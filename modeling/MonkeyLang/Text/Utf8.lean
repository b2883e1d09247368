/-!
# UTF-8

Reading bytes as UTF-8, one byte at a time. `Utf8.units` splits a byte string into the characters
it encodes and the maximal ill-formed pieces between them; the two readers differ only in what they
make of such a piece: `decode` writes one replacement character for it, `decode?` refuses the text.
Writing is the standard library's `String.utf8EncodeChar`.

A byte below 0x80 never continues a character, so it stands for itself wherever it occurs.
-/

namespace MonkeyLang.Utf8

/-- Where the reader stands: between characters, or inside one that still owes `owed` bytes, the
next of them between `low` and `high`, with the bits read so far in `bits`. -/
inductive State
  | start
  | inside (owed : Nat) (low high : UInt8) (bits : Nat)
deriving DecidableEq, Repr

/-- A piece of a byte string: a character, or `none` for a maximal ill-formed subpart. -/
abbrev Unit? := Option Char

/-- A byte read between two characters. The lead bytes E0, ED, F0 and F4 narrow the range of the
byte after them, which rules out overlong forms, surrogates and values above U+10FFFF. -/
def first (b : UInt8) : List Unit? × State :=
  if b < 0x80 then ([some (Char.ofNat b.toNat)], .start)
  else if b < 0xC2 then ([none], .start)
  else if b < 0xE0 then ([], .inside 1 0x80 0xBF (b.toNat - 0xC0))
  else if b = 0xE0 then ([], .inside 2 0xA0 0xBF 0)
  else if b = 0xED then ([], .inside 2 0x80 0x9F 13)
  else if b < 0xF0 then ([], .inside 2 0x80 0xBF (b.toNat - 0xE0))
  else if b = 0xF0 then ([], .inside 3 0x90 0xBF 0)
  else if b < 0xF4 then ([], .inside 3 0x80 0xBF (b.toNat - 0xF0))
  else if b = 0xF4 then ([], .inside 3 0x80 0x8F 4)
  else ([none], .start)

/-- One byte: the units it completes and the state after it. A byte that cannot continue the
character at hand closes an ill-formed piece and is read afresh. -/
def step : State → UInt8 → List Unit? × State
  | .start, b => first b
  | .inside owed low high bits, b =>
    if low ≤ b ∧ b ≤ high then
      let bits := bits * 64 + (b.toNat - 0x80)
      if owed ≤ 1 then ([some (Char.ofNat bits)], .start)
      else ([], .inside (owed - 1) 0x80 0xBF bits)
    else (none :: (first b).1, (first b).2)

/-- The units of a byte string read from a given state; the text may not end inside a character. -/
def unitsFrom : State → List UInt8 → List Unit?
  | .start, [] => []
  | .inside .., [] => [none]
  | q, b :: bs => (step q b).1 ++ unitsFrom (step q b).2 bs

/-- The characters of a byte string, `none` for each maximal ill-formed subpart. -/
def units (bytes : List UInt8) : List Unit? :=
  unitsFrom .start bytes

/-- The character that stands for an ill-formed piece. -/
def replacement : Char := '\uFFFD'

/-- Reads any byte string, each maximal ill-formed subpart as one U+FFFD. -/
def decode (bytes : List UInt8) : List Char :=
  (units bytes).map (·.getD replacement)

/-- Reads a well-formed byte string and refuses any other. -/
def decode? (bytes : List UInt8) : Option (List Char) :=
  (units bytes).mapM id

def encode (text : List Char) : List UInt8 :=
  text.flatMap String.utf8EncodeChar

@[simp] theorem unitsFrom_cons (q : State) (b : UInt8) (bs : List UInt8) :
    unitsFrom q (b :: bs) = (step q b).1 ++ unitsFrom (step q b).2 bs := by
  cases q <;> rfl

@[simp] theorem encode_nil : encode [] = [] := rfl

@[simp] theorem encode_append (s t : List Char) : encode (s ++ t) = encode s ++ encode t := by
  simp [encode]

end MonkeyLang.Utf8
