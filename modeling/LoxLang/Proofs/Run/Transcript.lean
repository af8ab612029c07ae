import LoxLang.Proofs.Run.Simulation

/-!
# What an execution puts on the error channel

An execution adds entries to the log, as the filter admits them, and nothing else: faults are
given back, and whoever ran the unit reports them.
-/

namespace LoxLang

namespace Machine

/-- The error channel of the second machine holds more log entries, and else the same. -/
def Logged (before after : Machine) : Prop :=
  ∃ entries : List Log.Entry,
    after.transcript.toList = before.transcript.toList ++ entries.map .entry

namespace Logged

variable {before middle after : Machine}

theorem of_eq (h : after.transcript = before.transcript) : before.Logged after := by
  refine ⟨[], ?_⟩
  rw [h, List.map_nil, List.append_nil]

theorem refl (machine : Machine) : machine.Logged machine := of_eq rfl

theorem trans (hfirst : before.Logged middle) (hsecond : middle.Logged after) :
    before.Logged after := by
  obtain ⟨entries, hentries⟩ := hfirst
  obtain ⟨others, hothers⟩ := hsecond
  refine ⟨entries ++ others, ?_⟩
  rw [hothers, hentries, List.map_append, List.append_assoc]

end Logged

theorem logged_log (machine : Machine) (entry : Log.Entry) :
    machine.Logged (machine.log entry) := by
  unfold log
  split
  · exact ⟨[entry], Array.toList_push⟩
  · exact .refl machine

theorem logged_logAll (machine : Machine) (entries : List Log.Entry) :
    machine.Logged (machine.logAll entries) := by
  induction entries generalizing machine with
  | nil => exact .refl machine
  | cons entry rest ih => exact (machine.logged_log entry).trans (ih _)

theorem logged_read (machine : Machine) (mode : Grammar.Mode) (source : String) :
    machine.Logged (machine.read mode source).2 :=
  (machine.logged_logAll _).trans (logged_logAll _ _)

theorem logged_pushScope (machine : Machine) : machine.Logged machine.pushScope :=
  logged_log { machine with environment := machine.environment.push } _

theorem logged_popScope (machine : Machine) : machine.Logged machine.popScope := by
  unfold popScope
  split
  · exact logged_log { machine with environment := machine.environment.pop } _
  · exact .refl machine

end Machine

namespace Execution

/-- The execution logs, and reports nothing. -/
def OnlyLogs (execution : Execution) : Prop :=
  ∀ machine ended after, execution machine = some (ended, after) → machine.Logged after

theorem onlyLogs_finish : finish.OnlyLogs := by
  intro machine ended after h
  cases h
  exact .refl machine

theorem onlyLogs_defining (name : String) (value : Value) : (defining name value).OnlyLogs := by
  intro machine ended after h
  cases h
  exact .of_eq rfl

theorem onlyLogs_writing (span : Span) (value : Value) : (writing span value).OnlyLogs := by
  intro machine ended after h
  unfold writing at h
  split at h <;> cases h <;> exact .of_eq rfl

theorem OnlyLogs.logging {next : Execution} (h : next.OnlyLogs) (entry : Log.Entry) :
    (logging entry next).OnlyLogs :=
  fun machine ended after hrun ↦ (machine.logged_log entry).trans (h _ ended after hrun)

theorem OnlyLogs.andThen {first second : Execution} (hfirst : first.OnlyLogs)
    (hsecond : second.OnlyLogs) : (first.andThen second).OnlyLogs := by
  intro machine ended after h
  unfold Execution.andThen at h
  split at h
  · next middle hmiddle =>
    exact (hfirst machine _ middle hmiddle).trans (hsecond middle ended after h)
  · exact hfirst machine ended after h

theorem onlyLogs_evaluating (expr : Expr) {next : Value → Execution}
    (hnext : ∀ value, (next value).OnlyLogs) : (evaluating expr next).OnlyLogs := by
  intro machine ended after h
  unfold evaluating at h
  split at h
  · next value env _ => exact hnext value { machine with environment := env } ended after h
  · cases h
    exact .of_eq rfl

theorem OnlyLogs.inScope {inside : Execution} (h : inside.OnlyLogs) : (inScope inside).OnlyLogs := by
  intro machine ended after hscope
  obtain ⟨⟨_, inner⟩, hinside, heq⟩ := Option.map_eq_some_iff.mp hscope
  cases heq
  exact (machine.logged_pushScope.trans (h _ _ inner hinside)).trans inner.logged_popScope

theorem OnlyLogs.whileLoop {body : Execution} (h : body.OnlyLogs) (condition : Expr)
    (rounds : Nat) : (whileLoop condition body rounds).OnlyLogs := by
  induction rounds with
  | zero =>
    intro machine ended after hrun
    cases hrun
  | succ rounds ih =>
    rw [whileLoop_succ]
    refine onlyLogs_evaluating condition fun value ↦ ?_
    split
    · exact h.andThen ih
    · exact onlyLogs_finish

end Execution

namespace Stmt

open Execution

mutual

theorem onlyLogs_exec (rounds : Nat) (stmt : Stmt) : (stmt.exec rounds).OnlyLogs := by
  cases stmt with
  | expression expr span => exact (onlyLogs_evaluating expr fun _ ↦ onlyLogs_finish).logging _
  | print expr span => exact (onlyLogs_evaluating expr (onlyLogs_writing span)).logging _
  | declare name initial span =>
    cases initial with
    | none => exact (onlyLogs_defining name .nil).logging _
    | some expr => exact (onlyLogs_evaluating expr (onlyLogs_defining name)).logging _
  | block body span => exact (onlyLogs_execAll rounds body).inScope.logging _
  | branch condition thenBranch elseBranch span =>
    cases elseBranch with
    | none =>
      refine OnlyLogs.logging (onlyLogs_evaluating condition fun value ↦ ?_) _
      split
      · exact onlyLogs_exec rounds thenBranch
      · exact onlyLogs_finish
    | some elseBranch =>
      refine OnlyLogs.logging (onlyLogs_evaluating condition fun value ↦ ?_) _
      split
      · exact onlyLogs_exec rounds thenBranch
      · exact onlyLogs_exec rounds elseBranch
  | loop condition body span =>
    exact ((onlyLogs_exec rounds body).whileLoop condition rounds).logging _

theorem onlyLogs_execAll (rounds : Nat) (stmts : List Stmt) : (execAll rounds stmts).OnlyLogs := by
  cases stmts with
  | nil => exact onlyLogs_finish
  | cons stmt rest => exact (onlyLogs_exec rounds stmt).andThen (onlyLogs_execAll rounds rest)

end

end Stmt

end LoxLang
