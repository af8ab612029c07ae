import LoxLang.Run

/-!
# Script files

A script is run once, and its faults are reported when it ends. The exit status tells
whether it could be read, listed and run.
-/

namespace LoxLang

/-- The exit status when the script could not be read. -/
def exitNoInput : Nat := 66

/-- The exit status when tokens could not be written. -/
def exitOutput : Nat := 74

/-- Runs a script file, of which the content or the reason why it cannot be read is given.
The result is the exit status. -/
def runScript (rounds : Nat) (config : Config) (path : String)
    (content : Except String (List UInt8)) (machine : Machine) : Option (Nat × Machine) :=
  match content with
  | .error reason => some (exitNoInput, machine.complain s!"Error reading file '{path}': {reason}\n")
  | .ok bytes =>
    let (source, machine) := decodeSource bytes machine
    let machine := machine.log (.running path)
    let finish (faults : List Fault) (machine : Machine) : Nat × Machine :=
      (exitCode faults, machine.emit config.style source.toList (some path) faults)
    if config.tokensOnly then
      match listTokens source machine with
      | (.error reason, _, machine) =>
        some (exitOutput, machine.complain s!"Error writing tokens: {reason}\n")
      | (.ok (), faults, machine) => some (finish faults machine)
    else
      match run rounds source [] machine with
      | none => none
      | some (faults, machine) => some (finish faults machine)

end LoxLang
