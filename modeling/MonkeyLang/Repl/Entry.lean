import MonkeyLang.Text.Blank

/-!
# Entries

How an interactive session puts lines together. An entry goes on over further lines as long as more
braces have been opened than closed. A brace inside a string literal does not count, and a literal
may stay open over the end of a line; a backslash at the end of a line pairs with nothing on the
next one.
-/

namespace MonkeyLang

/-! ## Braces -/

/-- What the brace count of a line keeps in mind: the braces opened less those closed, whether a
string literal is open, and whether the last character was an unpaired backslash in it. -/
structure BraceState where
  depth : Int
  inString : Bool
  escaped : Bool
deriving DecidableEq, Repr

/-- Counts one character. -/
def BraceState.next (b : BraceState) (c : Char) : BraceState :=
  if b.inString then
    if b.escaped then { b with escaped := false }
    else if c = '\\' then { b with escaped := true }
    else if c = '"' then { b with inString := false }
    else b
  else if c = '"' then { b with inString := true }
  else if c = '{' then { b with depth := b.depth + 1 }
  else if c = '}' then { b with depth := b.depth - 1 }
  else b

/-- The braces that a line opens less those that it closes, and whether a string literal is open
after it; `inString` says whether one is open before it. -/
def braceBalance (inString : Bool) (line : List Char) : Int × Bool :=
  let b := line.foldl BraceState.next ⟨0, inString, false⟩
  (b.depth, b.inString)

/-! ## Lines -/

/-- What the user does when asked for a line. -/
inductive Event
  | line (text : String)
  | interrupt
  | endOfInput
deriving DecidableEq, Repr

/-- The lines of an entry that is not complete yet, with the count of its open braces and whether a
string literal is open. -/
structure Pending where
  lines : List String
  depth : Int
  inString : Bool
deriving DecidableEq, Repr

/-- What a line makes of an entry. -/
inductive Reading
  /-- The line asks to leave the session. -/
  | exit
  | complete (entry : String)
  | more (pending : Pending)
deriving DecidableEq, Repr

def exitCommand : String := ".exit"

namespace Pending

/-- No line yet. -/
def start : Pending :=
  ⟨[], 0, false⟩

/-- How the next line is asked for. -/
def prompt (p : Pending) : String :=
  if p.lines.isEmpty then ">> " else ".. "

/-- Adds a line. The exit command is one only where an entry starts. -/
def feed (p : Pending) (line : String) : Reading :=
  if p.lines.isEmpty ∧ Text.trim line = exitCommand then .exit
  else
    let lines := p.lines ++ [line]
    let balance := braceBalance p.inString line.toList
    if p.depth + balance.1 ≤ 0 then .complete (Text.trim ("\n".intercalate lines))
    else .more ⟨lines, p.depth + balance.1, balance.2⟩

end Pending

/-! ## Reading one entry -/

/-- How the reading of an entry ends. -/
inductive EntryEnd
  | exit
  | entry (text : String)
  | interrupted
  | endOfInput
deriving DecidableEq, Repr

/-- Reads one entry from a script of events: how the reading ends, the prompts shown, and the
events that are left. After the last event the input has ended. -/
def readEntry (p : Pending) : List Event → EntryEnd × List String × List Event
  | [] => (.endOfInput, [p.prompt], [])
  | .endOfInput :: events => (.endOfInput, [p.prompt], events)
  | .interrupt :: events => (.interrupted, [p.prompt], events)
  | .line text :: events =>
    match p.feed text with
    | .exit => (.exit, [p.prompt], events)
    | .complete entry => (.entry entry, [p.prompt], events)
    | .more q =>
      let r := readEntry q events
      (r.1, p.prompt :: r.2.1, r.2.2)

/-- Reads a number of entries one after another: how each reading ends and its prompts. -/
def readEntries : (count : Nat) → List Event → List (EntryEnd × List String)
  | 0, _ => []
  | n + 1, events =>
    let r := readEntry .start events
    (r.1, r.2.1) :: readEntries n r.2.2

end MonkeyLang
