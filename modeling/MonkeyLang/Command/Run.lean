import MonkeyLang.Command.Directory
import MonkeyLang.Output
import MonkeyLang.Source
import MonkeyLang.Syntax.Outline
import MonkeyLang.Text.Newline
import MonkeyLang.Text.Utf8
import MonkeyLang.Value.Inspect

/-!
# Running a program

One program from its source to its result: the source is read, parsed, and either printed as an
outline or evaluated. The status is 1 if the source has syntax errors or the run is broken off,
which is reported without the lines of the host on its own frames. A value of null is not shown, nor
is the missing value of a program that ends with a binding.
-/

namespace MonkeyLang

/-- How a program is run. -/
structure RunOptions where
  /-- The source is the program's text and not the name of a file. -/
  isText : Bool
  /-- The outline of the program is printed and the program is not evaluated. -/
  outline : Bool
  /-- The result stands between banners. -/
  banners : Bool
  logging : Bool
deriving DecidableEq, Repr

def RunOptions.log (o : RunOptions) (message : String) : Output :=
  .log o.logging "monkey.monkey_cli" message

/-- How a value is shown at the end of a run. -/
def RunOptions.show (o : RunOptions) (v : Value) : Output :=
  let banner := "===================="
  if o.banners then .lines [banner, "Result", banner, v.inspect, banner] else .line v.inspect

/-- The result of a run, if it is to be shown. -/
def RunOptions.showResult (o : RunOptions) : Option Value → Output
  | none | some .null => .nothing
  | some v => o.show v

def resultType (v : Option Value) : String :=
  (v.map fun v => v.type.name).getD "None"

/-- Runs the text of a program: what is written, and the status. -/
def RunOptions.runText (o : RunOptions) (text : String) : Output × Nat :=
  let parsed := parse text
  let counted := o.log
    ("parsed " ++ toString parsed.program.statements.length ++ " statement(s), " ++
      toString parsed.errors.length ++ " error(s)")
  if ¬parsed.errors.isEmpty then (counted ++ .syntaxErrors parsed.errors, 1)
  else if o.outline then (counted ++ .line parsed.program.outline.pretty, 0)
  else
    match parsed.program.runFresh .empty with
    | .done v _ => (counted ++ o.log ("result type: " ++ resultType v) ++ o.showResult v, 0)
    | .fault e => (counted ++ .errorLine (Abort.traceback "" (.fault e)), 1)
    | .exhausted => (counted ++ .errorLine (Abort.traceback "" .stackExhausted), 1)

def textOfBytes (bytes : List UInt8) : Except ReadFailure String :=
  match Utf8.decode? bytes with
  | some cs => .ok (String.ofList (Text.unifyNewlines cs))
  | none => .error .notText

/-- Runs a program whose files are read by `read`: what is written, and the status or why the
source cannot be read. -/
def RunOptions.run (o : RunOptions) (read : String → Except ReadFailure (List UInt8))
    (source : String) : Output × Except ReadFailure Nat :=
  if o.isText then
    let r := o.runText source
    (r.1, .ok r.2)
  else
    let reading := o.log ("reading source file " ++ source)
    match (read source).bind textOfBytes with
    | .error e => (reading, .error e)
    | .ok text =>
      let r := o.runText text
      (reading ++ r.1, .ok r.2)

/-- The full wording of a failure to read a source: for an error of the system its number, its
reason and the name. -/
def ReadFailure.message (e : ReadFailure) (source : String) : String :=
  match e with
  | .system e => "[Errno " ++ toString e.number ++ "] " ++ e.reason ++ ": " ++ Text.quote source
  | .nullInName => "embedded null byte"
  | .notText => ""

end MonkeyLang
