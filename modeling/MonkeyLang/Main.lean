import MonkeyLang.Command.Line

/-!
# The program

The outer layer: it reads files and lines, writes what the command line and the session answer, and
decides nothing.
-/

namespace MonkeyLang

/-- Writes to the two output channels. -/
def Output.write (o : Output) : IO Unit := do
  let out ← IO.getStdout
  out.putStr o.out
  out.flush
  let err ← IO.getStderr
  err.putStr o.err
  err.flush

def readFile (path : String) : IO (Except ReadFailure (List UInt8)) := do
  try
    return .ok (← IO.FS.readBinFile path).toList
  catch
    | .inappropriateType _ code _ =>
      return .error (.system (if code = 21 then .isDirectory else .notDirectory))
    | .invalidArgument .. => return .error (.system .nameTooLong)
    | .permissionDenied .. => return .error (.system .denied)
    | _ => return .error (.system .notFound)

def askLine (prompt : String) : IO Event := do
  Output.write ⟨prompt, ""⟩
  let line ← (← IO.getStdin).getLine
  if line.isEmpty then return .endOfInput
  return .line (String.ofList (if line.toList.getLast? = some '\n' then line.toList.dropLast
    else line.toList))

/-- Goes on with a session until it ends. -/
partial def interact (s : Session) : IO Unit := do
  let event ← askLine s.pending.prompt
  match s.step event with
  | (none, messages) => (Message.outputs messages).write
  | (some s, messages) =>
    (Message.outputs messages).write
    interact s

end MonkeyLang

open MonkeyLang in
/-- Does what the arguments ask for. -/
def main (arguments : List String) : IO UInt32 := do
  match Plan.ofArguments arguments with
  | .stop output status =>
    output.write
    return status.toUInt32
  | .interact verbose logging =>
    Message.greeting.output.write
    interact (.start verbose logging)
    return 0
  | .run options source =>
    let content ← if options.isText then pure (.error (.system .notFound)) else readFile source
    let call := Call.ofRun source (options.run (fun _ => content) source)
    call.output.write
    return match call.ending with
      | .returned => 0
      | .exited status => status.toUInt32
      | .refused _ => 1
