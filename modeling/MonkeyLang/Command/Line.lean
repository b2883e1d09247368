import MonkeyLang.Command.Arguments
import MonkeyLang.Command.Run
import MonkeyLang.Repl.Session

/-!
# The command line

What a call of the program does: it refuses its arguments, shows the help text, starts an
interactive session or runs one program.
-/

namespace MonkeyLang

/-- What a call of the program does. -/
inductive Plan
  /-- It writes something and ends with a status. -/
  | stop (output : Output) (status : Nat)
  /-- It starts an interactive session. -/
  | interact (verbose logging : Bool)
  /-- It runs a program. -/
  | run (options : RunOptions) (source : String)

/-- The plan of a call that is accepted. Without a source the session starts, whatever other flags
are given. -/
def Arguments.plan (a : Arguments) : Plan :=
  let verbose := a.flags.contains .verbose
  match a.source with
  | none => .interact verbose verbose
  | some source =>
    if a.flags.contains .repl then .interact verbose verbose
    else
      .run ⟨a.flags.contains .string, a.flags.contains .ast, a.flags.contains .pretty, verbose⟩
        source

def Plan.ofArguments (arguments : List String) : Plan :=
  match Command.ofArguments arguments with
  | .ok .help => .stop ⟨helpText, ""⟩ 0
  | .ok (.run a) => a.plan
  | .error e => .stop ⟨"", usage ++ "monkey: error: " ++ e.message ++ "\n"⟩ 2

/-- What is written when the system does not give the file of a source. -/
def openFailure (source : String) (e : SystemError) : Output :=
  .errorLine ("monkey: cannot read " ++ source ++ ": " ++ e.reason)

/-- How a call ends. -/
inductive CallEnd
  /-- The session was left. -/
  | returned
  | exited (status : Nat)
  /-- The source is not a text, or its name is no name of a file. -/
  | refused (failure : ReadFailure)
deriving DecidableEq, Repr

/-- A whole call: the requests for a line, what is written after the last of them, and the end. -/
structure Call where
  requests : List Session.Request
  output : Output
  ending : CallEnd

/-- How a call ends after a run of a program. -/
def Call.ofRun (source : String) : Output × Except ReadFailure Nat → Call
  | (output, .ok status) => ⟨[], output, .exited status⟩
  | (output, .error (.system e)) => ⟨[], output ++ openFailure source e, .exited 1⟩
  | (output, .error e) => ⟨[], output, .refused e⟩

/-- Makes a call with given arguments, with files that are read by `read` and a script of what the
user does when asked for a line. -/
def Call.make (arguments : List String) (read : String → Except ReadFailure (List UInt8))
    (events : List Event) : Call :=
  match Plan.ofArguments arguments with
  | .stop output status => ⟨[], output, .exited status⟩
  | .interact verbose logging =>
    let t := Session.transcript verbose logging events
    ⟨t.1, t.2, .returned⟩
  | .run options source => .ofRun source (options.run read source)

end MonkeyLang
