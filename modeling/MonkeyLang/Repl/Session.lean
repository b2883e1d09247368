import MonkeyLang.Output
import MonkeyLang.Repl.Entry
import MonkeyLang.Source
import MonkeyLang.Value.Inspect

/-!
# Interactive sessions

A session asks for lines, puts them together to entries and evaluates each entry in one scope. It is
a machine that takes one event at a time: a line, an interrupt or the end of the input. It ends with
the exit command, with the end of the input, or with an interrupt if no entry has been completed
since the interrupt before.

What it writes are messages, and the text of each is fixed, but for the frames of the host in the
report of a run that is broken off.
-/

namespace MonkeyLang

/-! ## Messages -/

/-- What a session writes. -/
inductive Message
  | greeting
  /-- It starts on a new line if the prompt has not been answered. -/
  | goodbye (answered : Bool)
  /-- What is said at an interrupt that does not end the session. -/
  | interruptHint
  /-- Each program is printed from now on, or no longer. -/
  | mode (verbose : Bool)
  | syntaxErrors (errors : List SyntaxError)
  | program (p : Program)
  /-- A line of the log. -/
  | evaluated (v : Option Value)
  | value (v : Value)
  /-- The report of a run that is broken off, with the lines of the host on its own frames. -/
  | aborted (frames : String) (cause : Abort)

namespace Message

def output : Message → Output
  | greeting => .line "Monkey REPL. Type '.exit' to leave."
  | goodbye answered => .line ((if answered then "" else "\n") ++ "See you next time!")
  | interruptHint => .line "\n(To exit, press Ctrl+C again or type .exit)"
  | mode verbose => .line ("[mode] >>> Verbose mode " ++ if verbose then "ON" else "OFF")
  | syntaxErrors errors => .syntaxErrors errors
  | program p => .line ("[ast] >>> " ++ p.render)
  | evaluated v =>
    .log true "monkey.monkey_repl" ("entry evaluated to " ++ (v.map Value.describe).getD "None")
  | value v => .line v.inspect
  | aborted frames cause =>
    .lines ["[error] >>>", cause.traceback frames ++ "\n"]

def outputs : List Message → Output
  | [] => .nothing
  | m :: ms => m.output ++ outputs ms

end Message

/-! ## Sessions -/

/-- A session between two events. -/
structure Session where
  /-- Each program is printed before it is run. -/
  verbose : Bool
  /-- There is a log. -/
  logging : Bool
  /-- The last event that ended the reading of an entry was an interrupt. -/
  interrupted : Bool
  pending : Pending
  scope : ScopeId
  store : Store
  /-- The lines of the host on its own frames when the run of a program is broken off. -/
  frames : Program → Outcome (Option Value) → String

namespace Session

/-- The entry that turns the printing of programs on and off, in any mix of cases. -/
def verboseCommand : String := "verbose-mode"

/-- The entry is the command that turns the printing of programs on and off. -/
def isVerboseCommand (entry : String) : Bool :=
  entry.toList.map Char.toLower == verboseCommand.toList

def start (verbose logging : Bool)
    (frames : Program → Outcome (Option Value) → String := fun _ _ => "") : Session :=
  let scope := Store.empty.openScope none
  ⟨verbose, logging, false, .start, scope.1, scope.2, frames⟩

/-! ## Entries -/

/-- A program is printed before it is run if the session is verbose. -/
def echo (s : Session) (program : Program) : List Message :=
  if s.verbose then [.program program] else []

/-- Values are logged if there is a log. -/
def note (s : Session) (v : Option Value) : List Message :=
  if s.logging then [.evaluated v] else []

/-- Shows the outcome of a program that was run in the session's scope. What the run has bound
stays bound, even if it is broken off. -/
def showOutcome (s : Session) (program : Program) (outcome : Outcome (Option Value)) :
    Session × List Message :=
  ({ s with store := outcome.store },
    match outcome with
    | .done v _ => s.note v ++ (v.map Message.value).toList
    | .fault e => [.aborted (s.frames program outcome) (.fault e)]
    | .exhausted => [.aborted (s.frames program outcome) .stackExhausted])

/-- Takes up a complete entry. -/
def takeEntry (s : Session) (entry : String) : Session × List Message :=
  if entry = "" then (s, [])
  else if isVerboseCommand entry then ({ s with verbose := !s.verbose }, [.mode !s.verbose])
  else
    match evaluate entry s.scope s.store with
    | .rejected errors => (s, [.syntaxErrors errors])
    | .ran program outcome =>
      let r := s.showOutcome program outcome
      (r.1, s.echo program ++ r.2)

/-! ## Events -/

/-- The session when the reading of an entry has ended: it waits for a new one. -/
def waiting (s : Session) (interrupted : Bool) : Session :=
  { s with interrupted, pending := .start }

/-- What an event makes of a session, nothing if it ends it, and what is written. -/
def step (s : Session) : Event → Option Session × List Message
  | .endOfInput => (none, [.goodbye false])
  | .interrupt =>
    if s.interrupted then (none, [.goodbye false])
    else (some (s.waiting true), [.interruptHint])
  | .line text =>
    match s.pending.feed text with
    | .exit => (none, [.goodbye true])
    | .more pending => (some { s with pending }, [])
    | .complete entry =>
      let r := (s.waiting false).takeEntry entry
      (some r.1, r.2)

/-- One request for a line: its prompt, and what was said since the request before. -/
structure Request where
  prompt : String
  messages : List Message

/-- What was written since the request before. -/
def Request.output (r : Request) : Output := Message.outputs r.messages

/-- The requests of a session on a script of events, and what is said after the last of them;
`said` is what was said before the first. After the last event the input has ended. -/
def script (s : Session) (said : List Message) : List Event → List Request × List Message
  | [] => ([⟨s.pending.prompt, said⟩], (s.step .endOfInput).2)
  | event :: events =>
    match s.step event with
    | (none, last) => ([⟨s.pending.prompt, said⟩], last)
    | (some s', messages) =>
      let r := s'.script messages events
      (⟨s.pending.prompt, said⟩ :: r.1, r.2)

/-- The requests of a new session on a script of events, and what is said after the last. -/
def conversation (verbose logging : Bool) (events : List Event)
    (frames : Program → Outcome (Option Value) → String := fun _ _ => "") :
    List Request × List Message :=
  (start verbose logging frames).script [.greeting] events

/-- The requests of a new session on a script of events, and what is written after the last. -/
def transcript (verbose logging : Bool) (events : List Event)
    (frames : Program → Outcome (Option Value) → String := fun _ _ => "") :
    List Request × Output :=
  let r := conversation verbose logging events frames
  (r.1, Message.outputs r.2)

end Session

end MonkeyLang
