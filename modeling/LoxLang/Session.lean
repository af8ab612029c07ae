import LoxLang.Run
import LoxLang.Text.Blank

/-!
# Interactive sessions

A session reads its input line by line and runs each line as a unit of its own on one
machine. A line ends behind a line feed. A prompt goes before each line and before the end
of the input; if the output fails outside of a running line, the session ends.
-/

namespace LoxLang.Session

def prompt : String := "lox> "

/-- The lines of an input, each with its line feed. -/
def splitLines : List UInt8 → List (List UInt8)
  | [] => []
  | byte :: bytes =>
    if byte = 10 then [byte] :: splitLines bytes
    else
      match splitLines bytes with
      | [] => [[byte]]
      | line :: rest => (byte :: line) :: rest

/-- A line without the line feeds and carriage returns at its end. -/
def chomp (line : List Char) : List Char :=
  (line.reverse.dropWhile fun c => c = '\n' || c = '\r').reverse

/-- Handles one line. Blank lines are passed over. -/
def step (rounds : Nat) (config : Config) (line : List UInt8) (machine : Machine) :
    Option (Except String Unit × Machine) :=
  let (text, machine) := decodeSource line machine
  let source := chomp text.toList
  if Text.isBlank source then some (.ok (), machine)
  else if config.tokensOnly then
    match listTokens (String.ofList source) machine with
    | (.error reason, _, machine) => some (.error reason, machine)
    | (.ok (), faults, machine) => some (.ok (), machine.emit config.style source none faults)
  else
    match runLine rounds (String.ofList source) machine with
    | none => none
    | some (faults, machine) => some (.ok (), machine.emit config.style source none faults)

/-- Prompts for input. -/
def ask (machine : Machine) : Except String Unit × Machine :=
  let (ended, sink) := machine.sink.say prompt
  (ended, { machine with sink := sink })

def runLines (rounds : Nat) (config : Config) :
    List (List UInt8) → Machine → Option (Except String Unit × Machine)
  | lines, machine =>
    match ask machine, lines with
    | (.error reason, machine), _ => some (.error reason, machine)
    | (.ok (), machine), [] => some (.ok (), machine.log .endOfInput)
    | (.ok (), machine), line :: rest =>
      match step rounds config line machine with
      | some (.ok (), machine) => runLines rounds config rest machine
      | ended => ended

/-- Runs a session over the whole of its input. -/
def run (rounds : Nat) (config : Config) (input : List UInt8) (machine : Machine) :
    Option (Except String Unit × Machine) :=
  runLines rounds config (splitLines input) machine

end LoxLang.Session
