import LoxLang.Proofs.Grammar.Alike
import LoxLang.Proofs.Run.Frame

/-!
# Executions side by side

Two executions of alike statements go the same way as long as their environments answer alike
and their sinks take the same texts. What has to be known for that is one law for each operation
on environments and one for writing; a `Simulation` holds relations on spans, environments and
sinks together with these laws. From them it follows by induction on statements that alike
statements end alike, in machines that are related again. The log plays no part in it.

The relation on environments depends on how many scopes the executions have opened since they
started. Nothing is asked about declarations in the scope in which they started: if the level is
zero, then only statements that declare nothing there are compared. Where such declarations are
harmless, an execution is started at a higher level.
-/

namespace LoxLang

/-! ## Machines, loops and units -/

namespace Machine

@[simp]
theorem sink_log (machine : Machine) (entry : Log.Entry) :
    (machine.log entry).sink = machine.sink := by
  unfold log
  split <;> rfl

@[simp]
theorem sink_pushScope (machine : Machine) : machine.pushScope.sink = machine.sink := by
  simp [pushScope]

@[simp]
theorem sink_popScope (machine : Machine) : machine.popScope.sink = machine.sink := by
  unfold popScope
  split <;> simp

@[simp]
theorem sink_logAll (machine : Machine) (entries : List Log.Entry) :
    (machine.logAll entries).sink = machine.sink := by
  induction entries generalizing machine with
  | nil => rfl
  | cons entry rest ih =>
    calc
      ((machine.log entry).logAll rest).sink = (machine.log entry).sink := ih _
      _ = machine.sink := machine.sink_log entry

@[simp]
theorem sink_read (machine : Machine) (mode : Grammar.Mode) (source : String) :
    (machine.read mode source).2.sink = machine.sink := by
  simp [read]

end Machine

namespace Execution

/-- One round of a loop, and the rest of the loop behind it. -/
theorem whileLoop_succ (condition : Expr) (body : Execution) (rounds : Nat) :
    whileLoop condition body (rounds + 1) =
      evaluating condition fun value ↦
        if value.truthy then body.andThen (whileLoop condition body rounds) else finish := by
  funext machine
  rw [whileLoop, evaluating]
  obtain ⟨fault | value, env⟩ := condition.eval machine.environment
  · rfl
  · dsimp only
    split
    · rfl
    · rfl

end Execution

theorem run_eq (rounds : Nat) (source : String) (machine : Machine) :
    run rounds source [] machine =
      let program := Program.ofSource .script source
      if hadStaticFault program.faults then
        some (program.faults, (machine.read .script source).2.log (.skipping program.faults.length))
      else
        collectFaults program.faults
          ((machine.read .script source).2.execProgram rounds program.statements) :=
  rfl

theorem runLine_eq (rounds : Nat) (source : String) (machine : Machine) :
    runLine rounds source machine =
      let program := Program.ofSource .interactive source
      if hadStaticFault program.faults then
        some (program.faults, (machine.read .interactive source).2)
      else
        match echoed? program.statements with
        | some (expr, span) => collectFaults program.faults
          (Execution.evaluating expr (Execution.writing span) (machine.read .interactive source).2)
        | none => collectFaults program.faults
          ((machine.read .interactive source).2.execProgram rounds program.statements) :=
  rfl

/-! ## Simulations -/

/-- The same value, or alike faults. -/
inductive EndsAlike {α : Type} (related : Span → Span → Prop) :
    Except Fault α → Except Fault α → Prop where
  | ok (value : α) : EndsAlike related (.ok value) (.ok value)
  | error {fault other : Fault} (h : fault.Alike related other) :
    EndsAlike related (.error fault) (.error other)

/-- Relations on what two executions work on, which the operations keep. -/
structure Simulation where
  spans : Span → Span → Prop
  environments : Nat → Environment → Environment → Prop
  sinks : Sink → Sink → Prop
  get? : ∀ {level env other}, environments level env other → ∀ name,
    env.get? name = other.get? name
  assign? : ∀ {level env other}, environments level env other → ∀ name value,
    Option.Rel (environments level) (env.assign? name value) (other.assign? name value)
  push : ∀ {level env other}, environments level env other →
    environments (level + 1) env.push other.push
  pop : ∀ {level env other}, environments (level + 1) env other →
    environments level env.pop other.pop
  define : ∀ {level env other}, environments (level + 1) env other → ∀ name value,
    environments (level + 1) (env.define name value) (other.define name value)
  say : ∀ {sink other}, sinks sink other → ∀ text, (sink.say text).1 = (other.say text).1 ∧
    sinks (sink.say text).2 (other.say text).2

namespace Simulation

variable (sim : Simulation)

structure Machines (level : Nat) (machine other : Machine) : Prop where
  environment : sim.environments level machine.environment other.environment
  sink : sim.sinks machine.sink other.sink

/-- Two executions that end, end alike. -/
structure Ends (level : Nat) (first second : Except Fault Unit × Machine) : Prop where
  result : EndsAlike sim.spans first.1 second.1
  machines : sim.Machines level first.2 second.2

/-- Started in related machines, both executions end alike, or neither of them ends. -/
def Matches (level : Nat) (first second : Execution) : Prop :=
  ∀ machine other, sim.Machines level machine other →
    Option.Rel (sim.Ends level) (first machine) (second other)

variable {sim} {level : Nat}

/-! ## Evaluation -/

structure Evaluates (sim : Simulation) (level : Nat)
    (first second : Except Fault Value × Environment) : Prop where
  result : EndsAlike sim.spans first.1 second.1
  environment : sim.environments level first.2 second.2

/-- Both evaluations go on with the value of a part. -/
theorem evaluates_sequel {first second : Except Fault Value × Environment}
    {next last : Value → Environment → Except Fault Value × Environment} :
    sim.Evaluates level first second →
    (∀ value env other, sim.environments level env other →
      sim.Evaluates level (next value env) (last value other)) →
    sim.Evaluates level
      (match first with
        | (.error fault, env) => (.error fault, env)
        | (.ok value, env) => next value env)
      (match second with
        | (.error fault, env) => (.error fault, env)
        | (.ok value, env) => last value env) := by
  intro hfirst hnext
  obtain ⟨result, env⟩ := first
  obtain ⟨otherResult, other⟩ := second
  obtain ⟨hresult, henvironment⟩ := hfirst
  cases hresult with
  | ok value => exact hnext value env other henvironment
  | error hfault => exact ⟨.error hfault, henvironment⟩

theorem evaluates_fault {env other : Environment} {span last : Span} (issue : Issue)
    (henvironment : sim.environments level env other) (hspan : sim.spans span last) :
    sim.Evaluates level (.error (.plain span issue), env) (.error (.plain last issue), other) :=
  ⟨.error ⟨hspan, rfl, rfl⟩, henvironment⟩

theorem evaluates_located {env other : Environment} {span last : Span}
    (result : Except Issue Value) (henvironment : sim.environments level env other)
    (hspan : sim.spans span last) :
    sim.Evaluates level (located span result, env) (located last result, other) := by
  cases result with
  | ok value => exact ⟨.ok value, henvironment⟩
  | error issue => exact evaluates_fault issue henvironment hspan

theorem evaluates_eval {expr last : Expr} (h : expr.Alike sim.spans last) {env other : Environment}
    (henvironment : sim.environments level env other) :
    sim.Evaluates level (expr.eval env) (last.eval other) := by
  induction h generalizing env other with
  | literal value hspan => exact ⟨.ok value, henvironment⟩
  | grouping hinner hspan ih => exact ih henvironment
  | reference name hspan =>
    rw [Expr.eval, Expr.eval, sim.get? henvironment name]
    split
    · exact ⟨.ok _, henvironment⟩
    · exact evaluates_fault _ henvironment hspan
  | assign name hvalue hspan ih =>
    rw [Expr.eval, Expr.eval]
    refine evaluates_sequel (ih henvironment) fun value env other henvironment ↦ ?_
    have hassign := sim.assign? henvironment name value
    generalize env.assign? name value = assigned at hassign ⊢
    generalize other.assign? name value = otherAssigned at hassign ⊢
    cases hassign with
    | none => exact evaluates_fault _ henvironment hspan
    | some hassigned => exact ⟨.ok value, hassigned⟩
  | unary op hoperand hspan ih =>
    rw [Expr.eval, Expr.eval]
    exact evaluates_sequel (ih henvironment) fun _ _ _ hmiddle ↦ evaluates_located _ hmiddle hspan
  | binary op hleft hright hspan ihleft ihright =>
    rw [Expr.eval, Expr.eval]
    refine evaluates_sequel (ihleft henvironment) fun _ _ _ hmiddle ↦ ?_
    exact evaluates_sequel (ihright hmiddle) fun _ _ _ hlast ↦ evaluates_located _ hlast hspan
  | logical op hleft hright hspan ihleft ihright =>
    rw [Expr.eval, Expr.eval]
    refine evaluates_sequel (ihleft henvironment) fun value _ _ hmiddle ↦ ?_
    split
    · exact ⟨.ok value, hmiddle⟩
    · exact ihright hmiddle

/-! ## Execution -/

theorem matches_finish : sim.Matches level .finish .finish :=
  fun _ _ hmachines ↦ .some ⟨.ok (), hmachines⟩

theorem Matches.logging {first second : Execution} (h : sim.Matches level first second)
    (entry : Log.Entry) : sim.Matches level (.logging entry first) second := by
  intro machine other hmachines
  refine h _ other ⟨?_, ?_⟩
  · rw [Machine.environment_log]
    exact hmachines.environment
  · rw [Machine.sink_log]
    exact hmachines.sink

theorem Matches.logging_right {first second : Execution} (h : sim.Matches level first second)
    (entry : Log.Entry) : sim.Matches level first (.logging entry second) := by
  intro machine other hmachines
  refine h machine _ ⟨?_, ?_⟩
  · rw [Machine.environment_log]
    exact hmachines.environment
  · rw [Machine.sink_log]
    exact hmachines.sink

theorem Matches.andThen {first second next last : Execution} (h : sim.Matches level first second)
    (hnext : sim.Matches level next last) :
    sim.Matches level (first.andThen next) (second.andThen last) := by
  intro machine other hmachines
  have hended := h machine other hmachines
  unfold Execution.andThen
  generalize first machine = ended at hended ⊢
  generalize second other = otherEnded at hended ⊢
  cases hended with
  | none => exact .none
  | @some ended otherEnded hended =>
    obtain ⟨result, middle⟩ := ended
    obtain ⟨otherResult, otherMiddle⟩ := otherEnded
    obtain ⟨hresult, hmiddle⟩ := hended
    cases hresult with
    | ok => exact hnext _ _ hmiddle
    | error hfault => exact .some ⟨.error hfault, hmiddle⟩

theorem matches_evaluating {expr last : Expr} {next sequel : Value → Execution}
    (hexpr : expr.Alike sim.spans last) (hnext : ∀ value, sim.Matches level (next value) (sequel value)) :
    sim.Matches level (.evaluating expr next) (.evaluating last sequel) := by
  intro machine other hmachines
  have heval := evaluates_eval hexpr hmachines.environment
  unfold Execution.evaluating
  generalize expr.eval machine.environment = evaluated at heval ⊢
  generalize last.eval other.environment = otherEvaluated at heval ⊢
  obtain ⟨result, env⟩ := evaluated
  obtain ⟨otherResult, otherEnv⟩ := otherEvaluated
  obtain ⟨hresult, henvironment⟩ := heval
  cases hresult with
  | ok value => exact hnext value _ _ ⟨henvironment, hmachines.sink⟩
  | error hfault => exact .some ⟨.error hfault, henvironment, hmachines.sink⟩

theorem matches_writing {span other : Span} (hspan : sim.spans span other) (value : Value) :
    sim.Matches level (.writing span value) (.writing other value) := by
  intro machine otherMachine hmachines
  obtain ⟨hsame, hsinks⟩ := sim.say hmachines.sink (value.text ++ "\n")
  unfold Execution.writing
  generalize machine.sink.say (value.text ++ "\n") = said at hsame hsinks ⊢
  generalize otherMachine.sink.say (value.text ++ "\n") = otherSaid at hsame hsinks ⊢
  obtain ⟨result, sink⟩ := said
  obtain ⟨otherResult, otherSink⟩ := otherSaid
  obtain rfl : result = otherResult := hsame
  cases result with
  | ok => exact .some ⟨.ok (), hmachines.environment, hsinks⟩
  | error reason => exact .some ⟨.error ⟨hspan, rfl, rfl⟩, hmachines.environment, hsinks⟩

theorem matches_defining (name : String) (value : Value) :
    sim.Matches (level + 1) (.defining name value) (.defining name value) :=
  fun _ _ hmachines ↦ .some ⟨.ok (), sim.define hmachines.environment name value, hmachines.sink⟩

theorem Machines.pushScope {machine other : Machine} (h : sim.Machines level machine other) :
    sim.Machines (level + 1) machine.pushScope other.pushScope := by
  constructor
  · rw [Machine.environment_pushScope, Machine.environment_pushScope]
    exact sim.push h.environment
  · rw [Machine.sink_pushScope, Machine.sink_pushScope]
    exact h.sink

theorem Machines.popScope {machine other : Machine} (h : sim.Machines (level + 1) machine other) :
    sim.Machines level machine.popScope other.popScope := by
  constructor
  · rw [Machine.environment_popScope, Machine.environment_popScope]
    exact sim.pop h.environment
  · rw [Machine.sink_popScope, Machine.sink_popScope]
    exact h.sink

theorem Matches.inScope {inside other : Execution} (h : sim.Matches (level + 1) inside other) :
    sim.Matches level inside.inScope other.inScope := by
  intro machine otherMachine hmachines
  have hended := h _ _ hmachines.pushScope
  unfold Execution.inScope
  generalize inside machine.pushScope = ended at hended ⊢
  generalize other otherMachine.pushScope = otherEnded at hended ⊢
  cases hended with
  | none => exact .none
  | some hended => exact .some ⟨hended.result, hended.machines.popScope⟩

theorem matches_whileLoop {condition guard : Expr} {body other : Execution}
    (hcondition : condition.Alike sim.spans guard) (hbody : sim.Matches level body other)
    (rounds : Nat) :
    sim.Matches level (.whileLoop condition body rounds) (.whileLoop guard other rounds) := by
  induction rounds with
  | zero => exact fun _ _ _ ↦ .none
  | succ rounds ih =>
    rw [Execution.whileLoop_succ, Execution.whileLoop_succ]
    refine matches_evaluating hcondition fun value ↦ ?_
    split
    · exact hbody.andThen ih
    · exact matches_finish

/-! ## Statements -/

section

open Stmt

mutual

/-- Alike statements go alike, if they declare nothing in the scope where the simulation says
nothing of declarations. -/
theorem matches_exec {level : Nat} {stmt last : Stmt} (h : stmt.Alike sim.spans last)
    (rounds : Nat) (hdeclared : level = 0 → stmt.declared = []) :
    sim.Matches level (stmt.exec rounds) (last.exec rounds) := by
  cases h with
  | expression hexpr hspan =>
    exact ((matches_evaluating hexpr fun _ ↦ matches_finish).logging _).logging_right _
  | print hexpr hspan =>
    exact ((matches_evaluating hexpr fun value ↦ matches_writing hspan value).logging _).logging_right _
  | declare name hinitial hspan =>
    cases level with
    | zero => cases hdeclared rfl
    | succ level =>
      cases hinitial with
      | none => exact ((matches_defining name .nil).logging _).logging_right _
      | some hexpr =>
        exact ((matches_evaluating hexpr (matches_defining name)).logging _).logging_right _
  | block hbody hspan =>
    have hinside := matches_execAll hbody rounds fun hlevel ↦ absurd hlevel (Nat.succ_ne_zero level)
    exact (hinside.inScope.logging _).logging_right _
  | ifThen hcondition hthen hspan =>
    refine Matches.logging_right (.logging (matches_evaluating hcondition fun value ↦ ?_) _) _
    split
    · exact matches_exec hthen rounds hdeclared
    · exact matches_finish
  | ifElse hcondition hthen helse hspan =>
    refine Matches.logging_right (.logging (matches_evaluating hcondition fun value ↦ ?_) _) _
    split
    · exact matches_exec hthen rounds fun hlevel ↦ (List.append_eq_nil_iff.mp (hdeclared hlevel)).1
    · exact matches_exec helse rounds fun hlevel ↦ (List.append_eq_nil_iff.mp (hdeclared hlevel)).2
  | loop hcondition hbody hspan =>
    have hround := matches_exec hbody rounds hdeclared
    exact ((matches_whileLoop hcondition hround rounds).logging _).logging_right _

theorem matches_execAll {level : Nat} {stmts last : List Stmt}
    (h : AllAlike sim.spans stmts last) (rounds : Nat)
    (hdeclared : level = 0 → stmts.flatMap declared = []) :
    sim.Matches level (execAll rounds stmts) (execAll rounds last) := by
  cases h with
  | nil => exact matches_finish
  | cons hstmt hrest =>
    refine Matches.andThen (matches_exec hstmt rounds fun hlevel ↦ ?_)
      (matches_execAll hrest rounds fun hlevel ↦ ?_)
    · exact (List.append_eq_nil_iff.mp (hdeclared hlevel)).1
    · exact (List.append_eq_nil_iff.mp (hdeclared hlevel)).2

end

end

/-! ## The same machine -/

theorem say_eq {sink other : Sink} (h : sink = other) (text : String) :
    (sink.say text).1 = (other.say text).1 ∧ (sink.say text).2 = (other.say text).2 := by
  rw [h]
  exact ⟨rfl, rfl⟩

/-- Executions in machines that differ in their logs alone. -/
def identical (spans : Span → Span → Prop) : Simulation where
  spans := spans
  environments _ := Eq
  sinks := Eq
  get? h _ := by rw [h]
  assign? := by
    rintro level env _ rfl name value
    cases env.assign? name value with
    | none => exact .none
    | some env => exact .some rfl
  push h := by rw [h]
  pop h := by rw [h]
  define h _ _ := by rw [h]
  say := say_eq

end Simulation

end LoxLang
