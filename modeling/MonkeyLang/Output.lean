import MonkeyLang.Syntax.Error

/-!
# Output

What a program writes to its two channels, and the messages that the interactive session and the
command line share.
-/

namespace MonkeyLang

/-- What is written to the standard output and to the standard error output. -/
structure Output where
  out : String
  err : String
deriving DecidableEq, Repr

namespace Output

def nothing : Output :=
  ⟨"", ""⟩

def line (text : String) : Output :=
  ⟨text ++ "\n", ""⟩

/-- Lines on the standard output. -/
def lines (texts : List String) : Output :=
  ⟨String.join (texts.map (· ++ "\n")), ""⟩

def errorLine (text : String) : Output :=
  ⟨"", text ++ "\n"⟩

def append (a b : Output) : Output :=
  ⟨a.out ++ b.out, a.err ++ b.err⟩

instance : Append Output := ⟨append⟩

/-- A message of the log, which is written only if there is one. -/
def log (logging : Bool) (logger message : String) : Output :=
  if logging then errorLine ("DEBUG " ++ logger ++ ": " ++ message) else nothing

/-- The report of the syntax errors of a text. -/
def syntaxErrors (errors : List SyntaxError) : Output :=
  lines ("Woops! We ran into some monkey business here!" :: " parser errors:" ::
    errors.map fun e => "\t" ++ e.message)

end Output

end MonkeyLang
