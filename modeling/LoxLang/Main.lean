import LoxLang.CommandLine
import LoxLang.Folder

/-!
# The program

Connects the command line to the console. Output and reports are passed on as soon as a
unit has run.
-/

namespace LoxLang.Console

/-- The number of rounds that a loop may take, more than any will in practice. -/
def rounds : Nat := 1000000000000000000

def eventText : Event → String
  | .entry entry => entry.line
  | .report (.line text) => text ++ "\n"
  | .report (.located header location note) =>
    String.join ((header :: location.toList ++ note.toList).map (· ++ "\n"))
  | .message text => text

/-- Passes on what a machine has put out, which is then gone from it. -/
def passOn (machine : Machine) : IO Machine := do
  let output ← IO.getStdout
  output.write ⟨machine.sink.written⟩
  output.flush
  let errors ← IO.getStderr
  for event in machine.transcript do
    errors.putStr (eventText event)
  errors.flush
  return { machine with sink := { machine.sink with written := #[] }, transcript := #[] }

/-- Reads up to the next line feed or the end of the input. -/
partial def readLine (input : IO.FS.Stream) (start : Array UInt8) : IO (Array UInt8) := do
  let next ← input.read 1
  match next.data[0]? with
  | none => return start
  | some byte => if byte = 10 then return start.push byte else readLine input (start.push byte)

partial def interact (config : Config) (machine : Machine) : IO UInt32 := do
  let machine ← passOn (Session.ask machine).2
  let line ← readLine (← IO.getStdin) #[]
  if line.isEmpty then
    let _ ← passOn (machine.log .endOfInput)
    return 0
  match Session.step rounds config line.toList machine with
  | some (_, machine) => interact config (← passOn machine)
  | none => return 1

def readFile (path : String) : IO (Except String (List UInt8)) := do
  try
    let content ← IO.FS.readBinFile path
    return .ok content.data.toList
  catch error =>
    match error with
    | .noFileOrDirectory .. => return .error Folder.ReadError.missing.message
    | .inappropriateType _ 20 _ => return .error Folder.ReadError.notFolder.message
    | .inappropriateType _ 21 _ => return .error Folder.ReadError.isFolder.message
    | .invalidArgument _ 36 _ => return .error Folder.ReadError.tooLong.message
    | _ => return .error (toString error)

def perform (logText : Option String) (request : CommandLine.Request) : IO UInt32 := do
  match request with
  | .interactive options =>
    interact options.config (options.machine logText .unlimited)
  | request =>
    let content ←
      match request with
      | .script path _ => readFile path
      | _ => pure (.ok [])
    let around : CommandLine.Surroundings := ⟨logText, fun _ => content, [], .unlimited⟩
    match request.perform rounds around with
    | some (code, machine) =>
      let _ ← passOn machine
      return UInt32.ofNat code
    | none => return 1

end LoxLang.Console

def main (arguments : List String) : IO UInt32 := do
  LoxLang.Console.perform (← IO.getEnv "LOX_LOG") (LoxLang.CommandLine.parse arguments)
