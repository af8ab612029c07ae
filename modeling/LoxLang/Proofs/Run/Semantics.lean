import LoxLang.Proofs.Run.Simulation

/-!
# What a run prints

A natural semantics of statements. A statement that is run in an evaluator prints lines and leaves
an evaluator, and it ends well or in a fault; behind a fault nothing is run. The rules have no
bound on the rounds of a loop, so they tell of the runs that come to an end, and of one run at most
for each program and evaluator.

An execution that ends follows the rules. It adds the lines that it prints to the output and
nothing else, but for the part of a line that a sink still took when it failed.
-/

namespace LoxLang

/-- What statements work on. -/
structure Evaluator where
  environment : Environment
  sink : Sink

namespace Machine

/-- A machine without its log. -/
def evaluator (machine : Machine) : Evaluator := ⟨machine.environment, machine.sink⟩

@[simp]
theorem evaluator_log (machine : Machine) (entry : Log.Entry) :
    (machine.log entry).evaluator = machine.evaluator := by
  simp [evaluator]

@[simp]
theorem evaluator_read (machine : Machine) (mode : Grammar.Mode) (source : String) :
    (machine.read mode source).2.evaluator = machine.evaluator := by
  simp [evaluator]

theorem evaluator_pushScope (machine : Machine) :
    machine.pushScope.evaluator = ⟨machine.environment.push, machine.sink⟩ := by
  simp [evaluator]

theorem evaluator_popScope (machine : Machine) :
    machine.popScope.evaluator = ⟨machine.environment.pop, machine.sink⟩ := by
  simp [evaluator]

end Machine

/-! ## Rules -/

namespace Stmt

/-- The expression that a statement starts with. -/
def subject? : Stmt → Option Expr
  | expression expr _ => some expr
  | print expr _ => some expr
  | declare _ initial _ => initial
  | block _ _ => none
  | branch condition _ _ _ => some condition
  | loop condition _ _ => some condition

/-- The statements that follow once the condition of a branch has a value. -/
def chosen (thenBranch : Stmt) (elseBranch : Option Stmt) (value : Value) : List Stmt :=
  if value.truthy then [thenBranch] else elseBranch.toList

/-- The statements, run in order in an evaluator, print the lines, end as given, and leave an
evaluator. -/
inductive Runs : List Stmt → Evaluator → List String → Except Fault Unit → Evaluator → Prop where
  | finish {state : Evaluator} : Runs [] state [] (.ok ()) state
  | fault {stmt : Stmt} {rest : List Stmt} {expr : Expr} {fault : Fault} {state : Evaluator}
    {env : Environment} (subject : stmt.subject? = some expr)
    (evaluated : expr.eval state.environment = (.error fault, env)) :
    Runs (stmt :: rest) state [] (.error fault) ⟨env, state.sink⟩
  | expression {expr : Expr} {span : Span} {rest : List Stmt} {state after : Evaluator}
    {value : Value} {env : Environment} {lines : List String} {ended : Except Fault Unit}
    (evaluated : expr.eval state.environment = (.ok value, env))
    (others : Runs rest ⟨env, state.sink⟩ lines ended after) :
    Runs (.expression expr span :: rest) state lines ended after
  | print {expr : Expr} {span : Span} {rest : List Stmt} {state after : Evaluator} {value : Value}
    {env : Environment} {sink : Sink} {lines : List String} {ended : Except Fault Unit}
    (evaluated : expr.eval state.environment = (.ok value, env))
    (written : state.sink.say (value.text ++ "\n") = (.ok (), sink))
    (others : Runs rest ⟨env, sink⟩ lines ended after) :
    Runs (.print expr span :: rest) state (value.text :: lines) ended after
  | unwritten {expr : Expr} {span : Span} {rest : List Stmt} {state : Evaluator} {value : Value}
    {env : Environment} {sink : Sink} {reason : String}
    (evaluated : expr.eval state.environment = (.ok value, env))
    (failed : state.sink.say (value.text ++ "\n") = (.error reason, sink)) :
    Runs (.print expr span :: rest) state [] (.error (.plain span (.outputFailed reason)))
      ⟨env, sink⟩
  | declareNil {name : String} {span : Span} {rest : List Stmt} {state after : Evaluator}
    {lines : List String} {ended : Except Fault Unit}
    (others : Runs rest ⟨state.environment.define name .nil, state.sink⟩ lines ended after) :
    Runs (.declare name none span :: rest) state lines ended after
  | declare {name : String} {initial : Expr} {span : Span} {rest : List Stmt}
    {state after : Evaluator} {value : Value} {env : Environment} {lines : List String}
    {ended : Except Fault Unit} (evaluated : initial.eval state.environment = (.ok value, env))
    (others : Runs rest ⟨env.define name value, state.sink⟩ lines ended after) :
    Runs (.declare name (some initial) span :: rest) state lines ended after
  | block {body : List Stmt} {span : Span} {rest : List Stmt} {state inner after : Evaluator}
    {lines more : List String} {ended : Except Fault Unit}
    (inside : Runs body ⟨state.environment.push, state.sink⟩ lines (.ok ()) inner)
    (others : Runs rest ⟨inner.environment.pop, inner.sink⟩ more ended after) :
    Runs (.block body span :: rest) state (lines ++ more) ended after
  | unwind {body : List Stmt} {span : Span} {rest : List Stmt} {state inner : Evaluator}
    {lines : List String} {fault : Fault}
    (inside : Runs body ⟨state.environment.push, state.sink⟩ lines (.error fault) inner) :
    Runs (.block body span :: rest) state lines (.error fault)
      ⟨inner.environment.pop, inner.sink⟩
  | branch {condition : Expr} {thenBranch : Stmt} {elseBranch : Option Stmt} {span : Span}
    {rest : List Stmt} {state after : Evaluator} {value : Value} {env : Environment}
    {lines : List String} {ended : Except Fault Unit}
    (evaluated : condition.eval state.environment = (.ok value, env))
    (others : Runs (chosen thenBranch elseBranch value ++ rest) ⟨env, state.sink⟩ lines ended
      after) :
    Runs (.branch condition thenBranch elseBranch span :: rest) state lines ended after
  | leave {condition : Expr} {body : Stmt} {span : Span} {rest : List Stmt}
    {state after : Evaluator} {value : Value} {env : Environment} {lines : List String}
    {ended : Except Fault Unit} (evaluated : condition.eval state.environment = (.ok value, env))
    (fails : value.truthy = false) (others : Runs rest ⟨env, state.sink⟩ lines ended after) :
    Runs (.loop condition body span :: rest) state lines ended after
  | again {condition : Expr} {body : Stmt} {span : Span} {rest : List Stmt}
    {state after : Evaluator} {value : Value} {env : Environment} {lines : List String}
    {ended : Except Fault Unit} (evaluated : condition.eval state.environment = (.ok value, env))
    (holds : value.truthy = true)
    (others : Runs (body :: .loop condition body span :: rest) ⟨env, state.sink⟩ lines ended
      after) :
    Runs (.loop condition body span :: rest) state lines ended after

/-- An expression that has a value does not end in a fault. -/
theorem evaluated_ok {stmt : Stmt} {expr other : Expr} {env after last : Environment}
    {value : Value} {fault : Fault} (hsubject : stmt.subject? = some expr)
    (hother : stmt.subject? = some other) (hvalue : expr.eval env = (.ok value, after)) :
    other.eval env ≠ (.error fault, last) := by
  obtain rfl := Option.some.inj (hsubject.symm.trans hother)
  rw [hvalue]
  exact nofun

namespace Runs

variable {stmts rest : List Stmt} {state middle after other : Evaluator}
  {lines more otherLines : List String} {ended otherEnded : Except Fault Unit}

theorem append (h : Runs stmts state lines (.ok ()) middle)
    (hrest : Runs rest middle more ended after) :
    Runs (stmts ++ rest) state (lines ++ more) ended after := by
  generalize hended : Except.ok () = result at h
  induction h with
  | finish => exact hrest
  | fault => cases hended
  | expression evaluated _ ih => exact .expression evaluated (ih hrest hended)
  | print evaluated written _ ih => exact .print evaluated written (ih hrest hended)
  | unwritten => cases hended
  | declareNil _ ih => exact .declareNil (ih hrest hended)
  | declare evaluated _ ih => exact .declare evaluated (ih hrest hended)
  | block inside _ _ ih =>
    rw [List.append_assoc]
    exact .block inside (ih hrest hended)
  | unwind => cases hended
  | branch evaluated _ ih =>
    have hothers := ih hrest hended
    rw [List.append_assoc] at hothers
    exact .branch evaluated hothers
  | leave evaluated fails _ ih => exact .leave evaluated fails (ih hrest hended)
  | again evaluated holds _ ih => exact .again evaluated holds (ih hrest hended)

/-- Nothing is run behind a fault. -/
theorem append_fault {fault : Fault} (h : Runs stmts state lines (.error fault) after)
    (rest : List Stmt) : Runs (stmts ++ rest) state lines (.error fault) after := by
  generalize hended : Except.error fault = result at h
  induction h with
  | finish => cases hended
  | fault subject evaluated => exact .fault subject evaluated
  | expression evaluated _ ih => exact .expression evaluated (ih hended)
  | print evaluated written _ ih => exact .print evaluated written (ih hended)
  | unwritten evaluated failed => exact .unwritten evaluated failed
  | declareNil _ ih => exact .declareNil (ih hended)
  | declare evaluated _ ih => exact .declare evaluated (ih hended)
  | block inside _ _ ih => exact .block inside (ih hended)
  | unwind inside => exact .unwind inside
  | branch evaluated _ ih =>
    have hothers := ih hended
    rw [List.append_assoc] at hothers
    exact .branch evaluated hothers
  | leave evaluated fails _ ih => exact .leave evaluated fails (ih hended)
  | again evaluated holds _ ih => exact .again evaluated holds (ih hended)

/-- A statement whose expression ends in a fault ends in the fault. -/
theorem eq_of_fault {stmt : Stmt} {expr : Expr} {fault : Fault} {env : Environment}
    (hsubject : stmt.subject? = some expr)
    (hfault : expr.eval state.environment = (.error fault, env))
    (h : Runs (stmt :: rest) state lines ended after) :
    lines = [] ∧ ended = .error fault ∧ after = ⟨env, state.sink⟩ := by
  cases h <;> simp_all [subject?]

/-- Statements do not go two ways. -/
theorem unique (h : Runs stmts state lines ended after)
    (hother : Runs stmts state otherLines otherEnded other) :
    lines = otherLines ∧ ended = otherEnded ∧ after = other := by
  induction h generalizing otherLines otherEnded other with
  | finish =>
    cases hother
    exact ⟨rfl, rfl, rfl⟩
  | fault subject evaluated =>
    obtain ⟨rfl, rfl, rfl⟩ := hother.eq_of_fault subject evaluated
    exact ⟨rfl, rfl, rfl⟩
  | expression evaluated _ ih =>
    cases hother with
    | fault subject failed => exact absurd failed (evaluated_ok rfl subject evaluated)
    | expression otherEvaluated others =>
      cases evaluated.symm.trans otherEvaluated
      exact ih others
  | print evaluated written _ ih =>
    cases hother with
    | fault subject failed => exact absurd failed (evaluated_ok rfl subject evaluated)
    | print otherEvaluated otherWritten others =>
      cases evaluated.symm.trans otherEvaluated
      cases written.symm.trans otherWritten
      obtain ⟨rfl, hends⟩ := ih others
      exact ⟨rfl, hends⟩
    | unwritten otherEvaluated failed =>
      cases evaluated.symm.trans otherEvaluated
      cases written.symm.trans failed
  | unwritten evaluated failed =>
    cases hother with
    | fault subject otherFailed => exact absurd otherFailed (evaluated_ok rfl subject evaluated)
    | print otherEvaluated written others =>
      cases evaluated.symm.trans otherEvaluated
      cases failed.symm.trans written
    | unwritten otherEvaluated otherFailed =>
      cases evaluated.symm.trans otherEvaluated
      cases failed.symm.trans otherFailed
      exact ⟨rfl, rfl, rfl⟩
  | declareNil _ ih =>
    cases hother with
    | fault subject failed => cases subject
    | declareNil others => exact ih others
  | declare evaluated _ ih =>
    cases hother with
    | fault subject failed => exact absurd failed (evaluated_ok rfl subject evaluated)
    | declare otherEvaluated others =>
      cases evaluated.symm.trans otherEvaluated
      exact ih others
  | block _ _ ihinside ih =>
    cases hother with
    | fault subject failed => cases subject
    | block otherInside others =>
      obtain ⟨rfl, -, rfl⟩ := ihinside otherInside
      obtain ⟨rfl, hends⟩ := ih others
      exact ⟨rfl, hends⟩
    | unwind otherInside => cases (ihinside otherInside).2.1
  | unwind _ ihinside =>
    cases hother with
    | fault subject failed => cases subject
    | block otherInside others => cases (ihinside otherInside).2.1
    | unwind otherInside =>
      obtain ⟨rfl, hended, rfl⟩ := ihinside otherInside
      exact ⟨rfl, hended, rfl⟩
  | branch evaluated _ ih =>
    cases hother with
    | fault subject failed => exact absurd failed (evaluated_ok rfl subject evaluated)
    | branch otherEvaluated others =>
      cases evaluated.symm.trans otherEvaluated
      exact ih others
  | leave evaluated fails _ ih =>
    cases hother with
    | fault subject failed => exact absurd failed (evaluated_ok rfl subject evaluated)
    | leave otherEvaluated _ others =>
      cases evaluated.symm.trans otherEvaluated
      exact ih others
    | again otherEvaluated holds _ =>
      cases evaluated.symm.trans otherEvaluated
      cases holds.symm.trans fails
  | again evaluated holds _ ih =>
    cases hother with
    | fault subject failed => exact absurd failed (evaluated_ok rfl subject evaluated)
    | leave otherEvaluated fails _ =>
      cases evaluated.symm.trans otherEvaluated
      cases holds.symm.trans fails
    | again otherEvaluated _ others =>
      cases evaluated.symm.trans otherEvaluated
      exact ih others

end Runs

end Stmt

/-! ## Output -/

namespace Sink

/-- What lines are on a sink. -/
def bytesOf (lines : List String) : List UInt8 :=
  lines.flatMap fun line ↦ Text.Utf8.encode (line ++ "\n")

/-- The sink with more bytes on it. -/
def add (sink : Sink) (bytes : List UInt8) : Sink := { sink with written := sink.written ++ bytes }

theorem add_nil (sink : Sink) : sink.add [] = sink := by
  simp [add]

theorem add_add (sink : Sink) (first second : List UInt8) :
    (sink.add first).add second = sink.add (first ++ second) := by
  simp only [add, mk.injEq, and_true]
  apply Array.ext'
  simp

/-- A sink takes bytes from the front, all of them if it does not fail. -/
theorem write_cases (sink : Sink) (bytes : List UInt8) :
    sink.write bytes = (.ok (), sink.add bytes) ∨
      ∃ complaint front, front <+: bytes ∧
        sink.write bytes = (.error complaint, sink.add front) := by
  unfold write
  split
  · exact .inl rfl
  · next limit _ =>
    dsimp only
    split
    · exact .inl rfl
    · exact .inr ⟨limit.complaint, _, List.take_prefix _ bytes, rfl⟩

theorem flush_add (sink : Sink) (bytes : List UInt8) : (sink.add bytes).flush = sink.flush := rfl

/-- A text that is said is on the sink; of one that is not, a part at its front may be. -/
theorem say_cases (sink : Sink) (text : String) :
    sink.say text = (.ok (), sink.add (Text.Utf8.encode text)) ∨
      ∃ complaint front, front <+: Text.Utf8.encode text ∧
        sink.say text = (.error complaint, sink.add front) := by
  unfold say
  rcases sink.write_cases (Text.Utf8.encode text) with hwrite | ⟨complaint, front, hfront, hwrite⟩
  · rw [hwrite]
    dsimp only
    rw [flush_add]
    unfold flush
    split
    · exact .inl rfl
    · next complaint _ => exact .inr ⟨complaint, _, List.prefix_refl _, rfl⟩
  · rw [hwrite]
    exact .inr ⟨complaint, front, hfront, rfl⟩

theorem eq_of_say {sink after : Sink} {text : String} (h : sink.say text = (.ok (), after)) :
    after = sink.add (Text.Utf8.encode text) := by
  rcases sink.say_cases text with hsay | ⟨complaint, front, -, hsay⟩
  · cases h.symm.trans hsay
    rfl
  · cases h.symm.trans hsay

theorem exists_of_say {sink after : Sink} {text reason : String}
    (h : sink.say text = (.error reason, after)) :
    ∃ front, front <+: Text.Utf8.encode text ∧ after = sink.add front := by
  rcases sink.say_cases text with hsay | ⟨complaint, front, hfront, hsay⟩
  · cases h.symm.trans hsay
  · cases h.symm.trans hsay
    exact ⟨front, hfront, rfl⟩

end Sink

/-- The bytes may be on a sink behind the lines of a run that ended so: a part of the line that
could not be written. -/
inductive Residue : Except Fault Unit → List UInt8 → Prop where
  | none {ended : Except Fault Unit} : Residue ended []
  | part {span : Span} {reason line : String} {front : List UInt8}
    (h : front <+: Text.Utf8.encode (line ++ "\n")) :
    Residue (.error (.plain span (.outputFailed reason))) front

/-- The output of a run is added to what was written before. -/
theorem Stmt.Runs.output {stmts : List Stmt} {state after : Evaluator} {lines : List String}
    {ended : Except Fault Unit} (h : Runs stmts state lines ended after) :
    ∃ rest, Residue ended rest ∧ after.sink = state.sink.add (Sink.bytesOf lines ++ rest) := by
  induction h with
  | finish => exact ⟨[], .none, (Sink.add_nil _).symm⟩
  | fault => exact ⟨[], .none, (Sink.add_nil _).symm⟩
  | expression _ _ ih => exact ih
  | print _ written _ ih =>
    obtain ⟨rest, hrest, hafter⟩ := ih
    refine ⟨rest, hrest, ?_⟩
    rw [hafter, Sink.eq_of_say written, Sink.add_add]
    simp [Sink.bytesOf]
  | unwritten _ failed =>
    obtain ⟨front, hfront, hsink⟩ := Sink.exists_of_say failed
    exact ⟨front, .part hfront, hsink⟩
  | declareNil _ ih => exact ih
  | declare _ _ ih => exact ih
  | block _ _ ihinside ih =>
    obtain ⟨inner, hinner, hinside⟩ := ihinside
    obtain ⟨rest, hrest, hafter⟩ := ih
    refine ⟨rest, hrest, ?_⟩
    cases hinner
    rw [hafter, hinside, Sink.add_add]
    simp [Sink.bytesOf]
  | unwind _ ih => exact ih
  | branch _ _ ih => exact ih
  | leave _ _ _ ih => exact ih
  | again _ _ _ ih => exact ih

/-! ## Executions -/

namespace Execution

variable {machine after : Machine} {ended : Except Fault Unit}

theorem andThen_eq_some {first second : Execution}
    (h : first.andThen second machine = some (ended, after)) :
    (∃ middle, first machine = some (.ok (), middle) ∧ second middle = some (ended, after)) ∨
      ∃ fault, ended = .error fault ∧ first machine = some (.error fault, after) := by
  unfold andThen at h
  split at h
  · next middle hfirst => exact .inl ⟨middle, hfirst, h⟩
  · next hfirst =>
    cases ended with
    | ok => exact absurd h (hfirst after)
    | error fault => exact .inr ⟨fault, rfl, h⟩

theorem evaluating_eq_some {expr : Expr} {next : Value → Execution}
    (h : evaluating expr next machine = some (ended, after)) :
    (∃ value env, expr.eval machine.environment = (.ok value, env) ∧
      next value { machine with environment := env } = some (ended, after)) ∨
    ∃ fault env, expr.eval machine.environment = (.error fault, env) ∧ ended = .error fault ∧
      after.evaluator = ⟨env, machine.sink⟩ := by
  unfold evaluating at h
  split at h
  · next value env heval => exact .inl ⟨value, env, heval, h⟩
  · next fault env heval =>
    cases h
    exact .inr ⟨fault, env, heval, rfl, rfl⟩

theorem inScope_eq_some {inside : Execution} (h : inScope inside machine = some (ended, after)) :
    ∃ inner, inside machine.pushScope = some (ended, inner) ∧
      after.evaluator = ⟨inner.evaluator.environment.pop, inner.evaluator.sink⟩ := by
  obtain ⟨⟨result, inner⟩, hinside, heq⟩ := Option.map_eq_some_iff.mp h
  cases heq
  exact ⟨inner, hinside, inner.evaluator_popScope⟩

/-- What the execution does are runs of the statements. -/
def Follows (stmts : List Stmt) (execution : Execution) : Prop :=
  ∀ machine ended after, execution machine = some (ended, after) →
    ∃ lines, Stmt.Runs stmts machine.evaluator lines ended after.evaluator

theorem follows_finish : finish.Follows [] := by
  intro machine ended after h
  cases h
  exact ⟨[], .finish⟩

theorem Follows.logging {stmts : List Stmt} {next : Execution} (h : next.Follows stmts)
    (entry : Log.Entry) : (logging entry next).Follows stmts := by
  intro machine ended after hnext
  rw [← machine.evaluator_log entry]
  exact h _ ended after hnext

theorem Follows.andThen {stmts others : List Stmt} {first second : Execution}
    (hfirst : first.Follows stmts) (hsecond : second.Follows others) :
    (first.andThen second).Follows (stmts ++ others) := by
  intro machine ended after h
  rcases andThen_eq_some h with ⟨middle, hmiddle, hrest⟩ | ⟨fault, rfl, hfault⟩
  · obtain ⟨lines, hlines⟩ := hfirst machine _ middle hmiddle
    obtain ⟨more, hmore⟩ := hsecond middle ended after hrest
    exact ⟨lines ++ more, hlines.append hmore⟩
  · obtain ⟨lines, hlines⟩ := hfirst machine _ after hfault
    exact ⟨lines, hlines.append_fault others⟩

/-- A statement that starts with an expression goes on as it does for the value. -/
theorem follows_evaluating {stmt : Stmt} {expr : Expr} {next : Value → Execution}
    (hsubject : stmt.subject? = some expr)
    (hnext : ∀ (machine : Machine) value env, expr.eval machine.environment = (.ok value, env) →
      ∀ ended after, next value { machine with environment := env } = some (ended, after) →
        ∃ lines, Stmt.Runs [stmt] machine.evaluator lines ended after.evaluator) :
    (evaluating expr next).Follows [stmt] := by
  intro machine ended after h
  rcases evaluating_eq_some h with ⟨value, env, heval, hrest⟩ | ⟨fault, env, heval, rfl, hafter⟩
  · exact hnext machine value env heval ended after hrest
  · rw [hafter]
    exact ⟨[], .fault hsubject heval⟩

theorem follows_expression (expr : Expr) (span : Span) :
    (evaluating expr fun _ ↦ finish).Follows [.expression expr span] := by
  apply follows_evaluating rfl
  intro machine value env heval ended after h
  cases h
  exact ⟨[], .expression heval .finish⟩

theorem follows_print (expr : Expr) (span : Span) :
    (evaluating expr (writing span)).Follows [.print expr span] := by
  apply follows_evaluating rfl
  intro machine value env heval ended after h
  unfold writing at h
  split at h
  · next sink hsay =>
    cases h
    exact ⟨[value.text], .print heval hsay .finish⟩
  · next reason sink hsay =>
    cases h
    exact ⟨[], .unwritten heval hsay⟩

theorem follows_declareNil (name : String) (span : Span) :
    (defining name .nil).Follows [.declare name none span] := by
  intro machine ended after h
  cases h
  exact ⟨[], .declareNil .finish⟩

theorem follows_declare (name : String) (initial : Expr) (span : Span) :
    (evaluating initial (defining name)).Follows [.declare name (some initial) span] := by
  apply follows_evaluating rfl
  intro machine value env heval ended after h
  cases h
  exact ⟨[], .declare heval .finish⟩

theorem follows_block {body : List Stmt} {inside : Execution} (h : inside.Follows body)
    (span : Span) : (inScope inside).Follows [.block body span] := by
  intro machine ended after hscope
  obtain ⟨inner, hinside, hafter⟩ := inScope_eq_some hscope
  obtain ⟨lines, hlines⟩ := h _ ended inner hinside
  rw [Machine.evaluator_pushScope] at hlines
  rw [hafter]
  cases ended with
  | ok => exact ⟨lines ++ [], .block hlines .finish⟩
  | error fault => exact ⟨lines, .unwind hlines⟩

theorem follows_branch {condition : Expr} {thenBranch : Stmt} {elseBranch : Option Stmt}
    {next : Value → Execution}
    (h : ∀ value, (next value).Follows (Stmt.chosen thenBranch elseBranch value)) (span : Span) :
    (evaluating condition next).Follows [.branch condition thenBranch elseBranch span] := by
  apply follows_evaluating rfl
  intro machine value env heval ended after hnext
  obtain ⟨lines, hlines⟩ := h value _ ended after hnext
  rw [← List.append_nil (Stmt.chosen thenBranch elseBranch value)] at hlines
  exact ⟨lines, .branch heval hlines⟩

theorem follows_loop {condition : Expr} {body : Stmt} {inside : Execution}
    (h : inside.Follows [body]) (span : Span) (rounds : Nat) :
    (whileLoop condition inside rounds).Follows [.loop condition body span] := by
  induction rounds with
  | zero =>
    intro machine ended after hnone
    cases hnone
  | succ rounds ih =>
    rw [whileLoop_succ]
    apply follows_evaluating rfl
    intro machine value env heval ended after hnext
    split at hnext
    · next hholds =>
      obtain ⟨lines, hlines⟩ := h.andThen ih _ ended after hnext
      exact ⟨lines, .again heval hholds hlines⟩
    · next hfails =>
      cases hnext
      exact ⟨[], .leave heval (Bool.eq_false_iff.mpr hfails) .finish⟩

end Execution

namespace Stmt

open Execution

mutual

theorem follows_exec (rounds : Nat) (stmt : Stmt) : (stmt.exec rounds).Follows [stmt] := by
  cases stmt with
  | expression expr span => exact (follows_expression expr span).logging _
  | print expr span => exact (follows_print expr span).logging _
  | declare name initial span =>
    cases initial with
    | none => exact (follows_declareNil name span).logging _
    | some initial => exact (follows_declare name initial span).logging _
  | block body span => exact (follows_block (follows_execAll rounds body) span).logging _
  | branch condition thenBranch elseBranch span =>
    cases elseBranch with
    | none =>
      apply Follows.logging
      apply follows_branch
      intro value
      unfold chosen
      split
      · exact follows_exec rounds thenBranch
      · exact follows_finish
    | some elseBranch =>
      apply Follows.logging
      apply follows_branch
      intro value
      unfold chosen
      split
      · exact follows_exec rounds thenBranch
      · exact follows_exec rounds elseBranch
  | loop condition body span =>
    exact (follows_loop (follows_exec rounds body) span rounds).logging _

/-- Statements are executed by the rules. -/
theorem follows_execAll (rounds : Nat) (stmts : List Stmt) :
    (execAll rounds stmts).Follows stmts := by
  cases stmts with
  | nil => exact follows_finish
  | cons stmt rest => exact (follows_exec rounds stmt).andThen (follows_execAll rounds rest)

end

end Stmt

end LoxLang
