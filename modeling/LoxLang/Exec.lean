import LoxLang.Eval
import LoxLang.Machine

/-!
# Executing statements

An execution takes a machine and gives back how it ended and the machine, or nothing if a
loop was not done within the given number of rounds. That number bounds each loop by
itself; all else follows the statement.
-/

namespace LoxLang

abbrev Execution : Type := Machine → Option (Except Fault Unit × Machine)

namespace Execution

def finish : Execution := fun machine => some (.ok (), machine)

/-- The second execution follows if the first ends without a fault. -/
def andThen (first second : Execution) : Execution := fun machine =>
  match first machine with
  | some (.ok (), machine) => second machine
  | ended => ended

/-- Evaluates an expression and goes on with its value. -/
def evaluating (expr : Expr) (next : Value → Execution) : Execution := fun machine =>
  match expr.eval machine.environment with
  | (.ok value, env) => next value { machine with environment := env }
  | (.error fault, env) => some (.error fault, { machine with environment := env })

/-- Writes the line of a value. A failure is a fault at the span. -/
def writing (span : Span) (value : Value) : Execution := fun machine =>
  match machine.sink.say (value.text ++ "\n") with
  | (.ok (), sink) => some (.ok (), { machine with sink := sink })
  | (.error reason, sink) =>
    some (.error (.plain span (.outputFailed reason)), { machine with sink := sink })

def defining (name : String) (value : Value) : Execution := fun machine =>
  some (.ok (), machine.define name value)

/-- Runs inside a new scope, which is closed however the run ends. -/
def inScope (inside : Execution) : Execution := fun machine =>
  (inside machine.pushScope).map fun (ended, machine) => (ended, machine.popScope)

/-- Runs the body as long as the condition holds, at most the given number of rounds. -/
def whileLoop (condition : Expr) (body : Execution) : Nat → Execution
  | 0, _ => none
  | rounds + 1, machine =>
    match condition.eval machine.environment with
    | (.error fault, env) => some (.error fault, { machine with environment := env })
    | (.ok value, env) =>
      if value.truthy then
        match body { machine with environment := env } with
        | some (.ok (), machine) => whileLoop condition body rounds machine
        | ended => ended
      else some (.ok (), { machine with environment := env })

def logging (entry : Log.Entry) (next : Execution) : Execution := fun machine =>
  next (machine.log entry)

end Execution

namespace Stmt

open Execution

mutual

def exec (rounds : Nat) : Stmt → Execution
  | expression expr _ => logging (.executing .expression) (evaluating expr fun _ => finish)
  | print expr span => logging (.executing .print) (evaluating expr (writing span))
  | declare name none _ => logging (.executing .declare) (defining name .nil)
  | declare name (some initial) _ =>
    logging (.executing .declare) (evaluating initial (defining name))
  | block body _ => logging (.executing .block) (inScope (execAll rounds body))
  | branch condition thenBranch none _ =>
    logging (.executing .branch) (evaluating condition fun value =>
      if value.truthy then thenBranch.exec rounds else finish)
  | branch condition thenBranch (some elseBranch) _ =>
    logging (.executing .branch) (evaluating condition fun value =>
      if value.truthy then thenBranch.exec rounds else elseBranch.exec rounds)
  | loop condition body _ =>
    logging (.executing .loop) (whileLoop condition (body.exec rounds) rounds)
termination_by structural stmt => stmt

/-- Executes statements in order, up to the first fault. -/
def execAll (rounds : Nat) : List Stmt → Execution
  | [] => finish
  | stmt :: rest => andThen (stmt.exec rounds) (execAll rounds rest)
termination_by structural stmts => stmts

end

end Stmt

end LoxLang
