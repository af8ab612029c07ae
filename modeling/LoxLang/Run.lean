import LoxLang.Exec
import LoxLang.Program

/-!
# Running source text

A unit is a source text that is scanned, parsed and run as one. It is run only if neither
scanning nor parsing found a fault. Its faults are collected in the order in which they
arise, and a run ends at the first of its own.
-/

namespace LoxLang

/-- What a run of a unit gives: its faults and the machine after it. Nothing if a loop was
not done within the given number of rounds. -/
abbrev UnitRun : Type := Option (List Fault × Machine)

namespace Program

/-- The statements of a source, with the faults of scanning before those of parsing. -/
def ofSource (mode : Grammar.Mode) (source : String) : Program :=
  let scan := Scan.ofSource source
  let program := parse mode scan.stream
  ⟨program.statements, scan.faults ++ program.faults⟩

end Program

def Scan.entries (scan : Scan) : List Log.Entry :=
  scan.tokens.map .token ++ [.scanned scan.stream.length scan.stop.line scan.faults.length]

def Program.entries (program : Program) : List Log.Entry :=
  program.statements.map (fun stmt => .statement stmt.form) ++
    [.parsed program.statements.length program.faults.length]

namespace Machine

/-- Reads a source and logs what was read. -/
def read (machine : Machine) (mode : Grammar.Mode) (source : String) : Program × Machine :=
  let scan := Scan.ofSource source
  let program := Program.parse mode scan.stream
  (⟨program.statements, scan.faults ++ program.faults⟩,
    (machine.logAll scan.entries).logAll program.entries)

@[simp] theorem read_fst (machine : Machine) (mode : Grammar.Mode) (source : String) :
    (machine.read mode source).1 = Program.ofSource mode source := rfl

/-- Runs statements in order, up to the first fault. -/
def execProgram (machine : Machine) (rounds : Nat) (statements : List Stmt) :
    Option (Except Fault Unit × Machine) :=
  Stmt.execAll rounds statements (machine.log (.evaluating statements.length))

end Machine

/-- The faults of a run, added to those found before it. -/
def collectFaults (before : List Fault) : Option (Except Fault Unit × Machine) → UnitRun
  | none => none
  | some (.ok (), machine) => some (before, machine)
  | some (.error fault, machine) => some (before ++ [fault], machine)

/-- Runs a unit. Faults that were collected before count as its own. -/
def run (rounds : Nat) (source : String) (before : List Fault) (machine : Machine) : UnitRun :=
  let (program, machine) := machine.read .script source
  let faults := before ++ program.faults
  if hadStaticFault faults then some (faults, machine.log (.skipping faults.length))
  else collectFaults faults (machine.execProgram rounds program.statements)

/-- The expression whose value is echoed: that of an only statement, unless it assigns. -/
def echoed? : List Stmt → Option (Expr × Span)
  | [.expression expr span] => if expr.isAssign then none else some (expr, span)
  | _ => none

/-- Runs a line of interactive input. -/
def runLine (rounds : Nat) (source : String) (machine : Machine) : UnitRun :=
  let (program, machine) := machine.read .interactive source
  if hadStaticFault program.faults then some (program.faults, machine)
  else
    match echoed? program.statements with
    | some (expr, span) =>
      collectFaults program.faults (Execution.evaluating expr (Execution.writing span) machine)
    | none => collectFaults program.faults (machine.execProgram rounds program.statements)

/-- Lists the tokens of a source, one on a line, and gives the faults of scanning it. -/
def listTokens (source : String) (machine : Machine) :
    Except String Unit × List Fault × Machine :=
  let scan := Scan.ofSource source
  let machine := machine.logAll scan.entries
  let (ended, sink) := machine.sink.writeLines (scan.stream.map Token.display)
  (ended, scan.faults, { machine with sink := sink })

/-- Decodes source bytes; that they are malformed is logged. -/
def decodeSource (bytes : List UInt8) (machine : Machine) : String × Machine :=
  let machine :=
    match Text.Utf8.flaw? bytes with
    | none => machine
    | some flaw => machine.log (.malformed flaw)
  (Text.Utf8.decode bytes, machine)

/-- How source text is run and how its faults are shown. -/
structure Config where
  style : Report.Style := .plain
  tokensOnly : Bool := false

end LoxLang
