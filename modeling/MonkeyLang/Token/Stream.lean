import MonkeyLang.Text.Utf8
import MonkeyLang.Token.Lexeme

/-!
# Streams

A text read through a cursor, one character or one token at a time. The cursor may be placed
anywhere before reading starts. A position below zero counts from the end of the text: the
characters from there to the end come first and the whole text follows them. Nothing is seen ahead
of a cursor below position zero, and what is skipped as space there is skipped unseen.
-/

namespace MonkeyLang

/-! ## Cursors -/

/-- A cursor: its position and place, and the characters that are still to be read. -/
structure Cursor where
  position : Int
  place : Place
  rest : List Char
deriving DecidableEq, Repr

namespace Cursor

/-- The cursor after the characters `used` have been read, where `rest` follows them. -/
def skip (k : Cursor) (used rest : List Char) : Cursor :=
  ⟨k.position + used.length, k.place.after used, rest⟩

/-- The characters that are visible ahead. -/
def ahead (k : Cursor) : List Char :=
  if k.position < 0 then [] else k.rest

def atEnd (k : Cursor) : Bool :=
  k.rest.isEmpty && 0 ≤ k.position

/-- The cursor stands before the text, further than the text is long. -/
def isOutside (k : Cursor) : Bool :=
  k.rest.isEmpty && k.position < 0

/-- The space at a cursor: what stands before position zero, and the space characters after it. -/
def space (k : Cursor) : List Char :=
  let unseen := (-k.position).toNat
  k.rest.take unseen ++ (k.rest.drop unseen).takeWhile isSpace

/-- The cursor after the space that it stands at. -/
def pastSpace (k : Cursor) : Cursor :=
  k.skip k.space (k.rest.drop k.space.length)

/-- The next token, and the cursor after it. At the end of the text the token is an end-of-file
token and the cursor stays. -/
def token (k : Cursor) : Token × Cursor :=
  let k := k.pastSpace
  match k.rest with
  | [] => (⟨.eof, "", k.place⟩, k)
  | c :: rest =>
    let read := Lexeme.read c rest
    (read.1.token k.place, k.skip read.1.source read.2)

/-- All tokens up to and including the end-of-file token, and the cursor at the end. -/
def tokens (k : Cursor) : List Token × Cursor :=
  let k := k.pastSpace
  (tokensFrom k.place k.rest, k.skip k.rest [])

/-- The operator or delimiter that the cursor stands at, and the cursor after it. -/
def operator? (k : Cursor) : Option (Token × Cursor) :=
  match k.ahead with
  | [] => none
  | c :: rest =>
    (Lexeme.operator? c rest).map fun read =>
      (read.1.token k.place, k.skip read.1.source read.2)

end Cursor

/-! ## Reading errors -/

/-- Why nothing can be read. -/
inductive ReadError
  /-- The cursor stands at the end of the text or beyond it. -/
  | pastEnd (position line : Int)
  /-- The cursor stands further before the end of the text than the text is long. -/
  | outside
deriving DecidableEq, Repr

def ReadError.message : ReadError → String
  | .pastEnd position line =>
    "CharacterStreamError: Attempted to read past end of source at position=<" ++
      toString position ++ ">, line=<" ++ toString line ++ ">"
  | .outside => "string index out of range"

/-- The error of reading at a cursor with nothing left to be read. -/
def Cursor.readError (k : Cursor) : ReadError :=
  if k.position < 0 then .outside else .pastEnd k.position k.place.line

/-! ## Streams -/

/-- A text, the cursor at which reading starts and the cursor now. -/
structure Stream where
  text : List Char
  start : Cursor
  cursor : Cursor
deriving DecidableEq, Repr

namespace Stream

/-- The characters to be read from a position on. -/
def charsFrom (text : List Char) (position : Int) : List Char :=
  if 0 ≤ position then text.drop position.toNat
  else if (-position).toNat ≤ text.length then
    text.drop (text.length - (-position).toNat) ++ text
  else []

/-- A stream on a text that starts at a given position, which counts as the given place. -/
def ofText (text : List Char) (position : Int) (place : Place) : Stream :=
  let k : Cursor := ⟨position, place, charsFrom text position⟩
  ⟨text, k, k⟩

/-- A stream on a text that is given as bytes. -/
def ofBytes (bytes : List UInt8) (position : Int) (place : Place) : Stream :=
  ofText (Utf8.decode bytes) position place

/-- The character at an offset from the cursor, if there is one. -/
def peek? (s : Stream) (offset : Int) : Option Char :=
  let i := s.cursor.position + offset
  if i < 0 then none else s.text[i.toNat]?

/-- Moves the cursor back to where reading started. -/
def rewind (s : Stream) : Stream :=
  { s with cursor := s.start }

/-- Reads the operator or delimiter at the cursor; where there is none, the cursor stays. -/
def operator (s : Stream) : Option Token × Stream :=
  match s.cursor.operator? with
  | none => (none, s)
  | some (t, k) => (some t, { s with cursor := k })

end Stream

/-! ## Reading -/

/-- Reading from a stream. If it fails, the stream stays where it has been read to by then. -/
abbrev Reader := EStateM ReadError Stream

namespace Reader

/-- Reads a character. That there is one is checked before the cursor moves. -/
def char : Reader Char := fun s =>
  match s.cursor.rest with
  | [] => .error s.cursor.readError s
  | c :: rest => .ok c { s with cursor := s.cursor.skip [c] rest }

/-- Reads a string literal whose opening quote is the next character, whatever that is. The token
has the given place. -/
def string (place : Place) : Reader Token := fun s =>
  match char s with
  | .error e s => .error e s
  | .ok c behind =>
    let read := Lexeme.string c behind.cursor.rest
    .ok (read.1.token place) { s with cursor := s.cursor.skip read.1.source read.2 }

/-- Goes on unless the cursor is outside of the text, where the first character cannot be read. -/
def inside {α : Type} (f : Cursor → α × Cursor) : Reader α := fun s =>
  if s.cursor.isOutside then .error s.cursor.readError s
  else .ok (f s.cursor).1 { s with cursor := (f s.cursor).2 }

def skipSpace : Reader Unit :=
  inside fun k => ((), k.pastSpace)

def token : Reader Token :=
  inside Cursor.token

def tokens : Reader (List Token) :=
  inside Cursor.tokens

/-- Reads from a stream that is of no use after an error. -/
def answer {α : Type} (r : Reader α) (s : Stream) : Except ReadError (α × Stream) :=
  match r s with
  | .ok a s => .ok (a, s)
  | .error e _ => .error e

theorem inside_eq {α : Type} {s : Stream} (h : s.cursor.isOutside = false)
    (f : Cursor → α × Cursor) :
    inside f s = .ok (f s.cursor).1 { s with cursor := (f s.cursor).2 } := by
  rw [inside, h]
  rfl

theorem answer_of_ok {α : Type} {r : Reader α} {s s' : Stream} {a : α} (h : r s = .ok a s') :
    r.answer s = .ok (a, s') := by
  rw [answer, h]

end Reader

namespace Stream

def next (s : Stream) : Except ReadError (Char × Stream) :=
  Reader.char.answer s

def skipSpace (s : Stream) : Except ReadError Stream :=
  (Reader.skipSpace.answer s).map Prod.snd

def token (s : Stream) : Except ReadError (Token × Stream) :=
  Reader.token.answer s

def tokens (s : Stream) : Except ReadError (List Token × Stream) :=
  Reader.tokens.answer s

def string (s : Stream) (place : Place) : Except ReadError (Token × Stream) :=
  (Reader.string place).answer s

end Stream

end MonkeyLang
