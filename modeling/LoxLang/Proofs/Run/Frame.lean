import LoxLang.Run

/-!
# The frame of an execution

What an execution can change in an environment: values of the names it assigns to, in whatever
scope they are found, and the bindings of the names it declares, in the innermost scope alone.
Scopes that it opens are closed again however it ends, so the number of scopes and the names
bound in the outer ones stay as they were. A declaration inside of a block lands in a scope
that is gone when the block ends, and is not counted.

The frame of a composite execution is that of its parts. Nothing is said of an execution that
does not end.
-/

namespace LoxLang

/-! ## Bindings -/

namespace Scope

theorem lookup_cons_eq (bound other : String) (value : Value) (rest : List (String × Value)) :
    ((bound, value) :: rest).lookup other = if other = bound then some value else rest.lookup other := by
  rw [List.lookup_cons]
  by_cases h : other = bound
  · simp [h]
  · simp [h, beq_false_of_ne h]

theorem lookup_update (name other : String) (value : Value) (bindings : List (String × Value)) :
    (update name value bindings).lookup other =
      if other = name then some value else bindings.lookup other := by
  induction bindings with
  | nil => exact lookup_cons_eq name other value []
  | cons binding rest ih =>
    obtain ⟨bound, old⟩ := binding
    by_cases hbound : bound = name
    · rw [update, if_pos hbound, lookup_cons_eq, lookup_cons_eq, hbound]
      split <;> rfl
    · rw [update, if_neg hbound, lookup_cons_eq, lookup_cons_eq, ih]
      split
      · next hother => rw [if_neg (hother ▸ hbound)]
      · rfl

theorem get?_set (scope : Scope) (name other : String) (value : Value) :
    (scope.set name value).get? other = if other = name then some value else scope.get? other :=
  lookup_update name other value scope.bindings

end Scope

namespace Environment

/-- The value that a name has in the scope with the given index. -/
def valueAt (env : Environment) (index : Nat) (name : String) : Option Value :=
  env.scopes[index]?.bind (·.get? name)

/-- The scope with the given index binds the name. -/
def Binds (env : Environment) (index : Nat) (name : String) : Prop :=
  (env.valueAt index name).isSome

theorem valueAt_modify (env : Environment) (index place : Nat) (name other : String)
    (value : Value) :
    valueAt ⟨env.scopes.modify index (·.set name value)⟩ place other =
      if place = index ∧ place < env.depth ∧ other = name then some value
      else env.valueAt place other := by
  unfold valueAt
  rw [Array.getElem?_modify]
  by_cases hplace : place = index
  · subst hplace
    by_cases hlt : place < env.depth
    · have hlt' : place < env.scopes.size := hlt
      simp [hlt', hlt, Scope.get?_set]
    · have hle : env.scopes.size ≤ place := Nat.le_of_not_lt hlt
      simp [hlt, Array.getElem?_eq_none hle]
  · simp [hplace, Ne.symm hplace]

theorem depth_modify (env : Environment) (index : Nat) (f : Scope → Scope) :
    depth ⟨env.scopes.modify index f⟩ = env.depth :=
  Array.size_modify

theorem depth_push (env : Environment) : env.push.depth = env.depth + 1 :=
  Array.size_push _

theorem current_push (env : Environment) : env.push.current = env.depth := by
  simp [current, push, depth]

theorem depth_pop {env : Environment} (h : 1 < env.depth) : env.pop.depth = env.depth - 1 := by
  rw [pop, if_pos h]
  exact Array.size_pop

theorem valueAt_push (env : Environment) (index : Nat) (name : String) :
    env.push.valueAt index name = env.valueAt index name := by
  unfold valueAt push
  rw [Array.getElem?_push]
  split
  · next heq =>
    subst heq
    simp [Scope.get?]
  · rfl

theorem valueAt_pop {env : Environment} (h : 1 < env.depth) (index : Nat) (name : String) :
    env.pop.valueAt index name = if index < env.depth - 1 then env.valueAt index name else none := by
  rw [valueAt, pop, if_pos h, Array.getElem?_pop, valueAt]
  change _ = if index < env.scopes.size - 1 then _ else _
  split <;> rfl

theorem valueAt_eq_none {env : Environment} {index : Nat} (h : env.depth ≤ index)
    (name : String) : env.valueAt index name = none := by
  rw [valueAt, Array.getElem?_eq_none h]
  rfl

/-- Looking for a name ends at a scope that binds it. -/
theorem binds_of_search {env : Environment} {name : String} {bound : Nat} {start : Option Nat}
    {index : Nat} (h : env.search name bound start = some index) : env.Binds index name := by
  induction bound generalizing start with
  | zero => cases h
  | succ bound ih =>
    cases start with
    | none => cases h
    | some place =>
      rw [search] at h
      split at h
      · cases h
      · next scope hscope =>
        split at h
        · next hbinds =>
          obtain rfl : place = index := Option.some.inj h
          simpa [Binds, valueAt, hscope, Scope.binds] using hbinds
        · exact ih h

/-! ## Frames -/

/-- Of two environments the second has the same scopes. They bind the same names, but for the
declared ones that the innermost scope may gain; and a name that is neither among the targets
nor declared in the innermost scope has its old value in every scope. -/
structure Framed (declared targets : List String) (before after : Environment) : Prop where
  depth : after.depth = before.depth
  kept : ∀ index name, before.Binds index name → after.Binds index name
  gained : ∀ index name, after.Binds index name →
    before.Binds index name ∨ index = before.current ∧ name ∈ declared
  unchanged : ∀ index name, name ∉ targets → (index = before.current → name ∉ declared) →
    after.valueAt index name = before.valueAt index name

namespace Framed

variable {declared targets : List String} {before middle after : Environment}

theorem refl (env : Environment) : env.Framed declared targets env where
  depth := rfl
  kept _ _ h := h
  gained _ _ h := .inl h
  unchanged _ _ _ _ := rfl

theorem current (h : before.Framed declared targets after) : after.current = before.current :=
  congrArg (· - 1) h.depth

theorem trans (hfirst : before.Framed declared targets middle)
    (hsecond : middle.Framed declared targets after) : before.Framed declared targets after where
  depth := hsecond.depth.trans hfirst.depth
  kept index name h := hsecond.kept index name (hfirst.kept index name h)
  gained index name h := by
    rcases hsecond.gained index name h with hmiddle | hnew
    · exact hfirst.gained index name hmiddle
    · rw [hfirst.current] at hnew
      exact .inr hnew
  unchanged index name htarget hdeclared := by
    have hmiddle : index = middle.current → name ∉ declared := by
      rw [hfirst.current]
      exact hdeclared
    calc
      after.valueAt index name = middle.valueAt index name :=
        hsecond.unchanged index name htarget hmiddle
      _ = before.valueAt index name := hfirst.unchanged index name htarget hdeclared

theorem mono {moreDeclared moreTargets : List String} (h : before.Framed declared targets after)
    (hdeclared : declared ⊆ moreDeclared) (htargets : targets ⊆ moreTargets) :
    before.Framed moreDeclared moreTargets after where
  depth := h.depth
  kept := h.kept
  gained index name hafter := (h.gained index name hafter).imp_right fun hnew ↦
    ⟨hnew.1, hdeclared hnew.2⟩
  unchanged index name htarget hnew := h.unchanged index name (fun hmem ↦ htarget (htargets hmem))
    fun hindex hmem ↦ hnew hindex (hdeclared hmem)

end Framed

/-- Setting a name where it is bound, or in the innermost scope if it is declared. -/
theorem framed_modify {declared targets : List String} {env : Environment} {index : Nat}
    {name : String} (value : Value)
    (h : env.Binds index name ∧ name ∈ targets ∨ index = env.current ∧ name ∈ declared) :
    env.Framed declared targets ⟨env.scopes.modify index (·.set name value)⟩ where
  depth := depth_modify env index _
  kept place other hbinds := by
    rw [Binds, valueAt_modify]
    split
    · rfl
    · exact hbinds
  gained place other hbinds := by
    rw [Binds, valueAt_modify] at hbinds
    split at hbinds
    · next hsame =>
      obtain ⟨rfl, -, rfl⟩ := hsame
      exact h.imp And.left id
    · exact .inl hbinds
  unchanged place other htarget hdeclared := by
    rw [valueAt_modify, if_neg]
    rintro ⟨rfl, -, rfl⟩
    rcases h with ⟨-, hmem⟩ | ⟨hcurrent, hmem⟩
    · exact htarget hmem
    · exact hdeclared hcurrent hmem

theorem framed_define {declared targets : List String} (env : Environment) {name : String}
    (value : Value) (h : name ∈ declared) : env.Framed declared targets (env.define name value) :=
  framed_modify value (.inr ⟨rfl, h⟩)

theorem framed_assign {declared targets : List String} {env after : Environment} {name : String}
    {value : Value} (hname : name ∈ targets) (h : env.assign? name value = some after) :
    env.Framed declared targets after := by
  obtain ⟨index, howner, rfl⟩ := Option.map_eq_some_iff.mp h
  exact framed_modify value (.inl ⟨binds_of_search howner, hname⟩)

/-- Names declared in a scope that is opened and closed again are not gained. -/
theorem Framed.pop {declared targets : List String} {env inner : Environment}
    (hpos : 0 < env.depth) (h : env.push.Framed declared targets inner) :
    env.Framed [] targets inner.pop := by
  have hdepth : inner.depth = env.depth + 1 := h.depth.trans env.depth_push
  have hdeep : 1 < inner.depth := by omega
  have hinner (index : Nat) (name : String) : inner.pop.valueAt index name =
      if index < env.depth then inner.valueAt index name else none := by
    rw [valueAt_pop hdeep, hdepth, Nat.add_sub_cancel]
  have houter {index : Nat} {name : String} (hbinds : env.Binds index name) :
      index < env.depth := by
    apply Nat.lt_of_not_le
    intro hle
    simp [Binds, valueAt_eq_none hle] at hbinds
  refine ⟨?_, fun index name hbinds ↦ ?_, fun index name hbinds ↦ ?_,
    fun index name htarget _ ↦ ?_⟩
  · rw [depth_pop hdeep, hdepth, Nat.add_sub_cancel]
  · have hpushed : env.push.Binds index name := by
      rw [Binds, valueAt_push]
      exact hbinds
    rw [Binds, hinner, if_pos (houter hbinds)]
    exact h.kept index name hpushed
  · rw [Binds, hinner] at hbinds
    split at hbinds
    · next hlt =>
      rcases h.gained index name hbinds with hpushed | ⟨hcurrent, -⟩
      · rw [Binds, valueAt_push] at hpushed
        exact .inl hpushed
      · rw [current_push] at hcurrent
        omega
    · cases hbinds
  · rw [hinner]
    split
    · next hlt =>
      have hbelow : index = env.push.current → name ∉ declared := by
        rw [current_push]
        omega
      rw [h.unchanged index name htarget hbelow, valueAt_push]
    · next hle => rw [valueAt_eq_none (Nat.le_of_not_lt hle)]

end Environment

/-! ## Evaluation -/

namespace Expr

/-- The names that an expression assigns to. -/
def targets : Expr → List String
  | literal .. => []
  | reference .. => []
  | grouping inner _ => inner.targets
  | unary _ operand _ => operand.targets
  | binary _ left right _ => left.targets ++ right.targets
  | logical _ left right _ => left.targets ++ right.targets
  | assign name value _ => name :: value.targets

end Expr

/-- An evaluation that goes on with the value of a part, both within the frame. -/
theorem framed_sequel {declared targets : List String} {env : Environment}
    {first : Except Fault Value × Environment}
    {next : Value → Environment → Except Fault Value × Environment}
    (hfirst : env.Framed declared targets first.2)
    (hnext : ∀ value (middle : Environment),
      middle.Framed declared targets (next value middle).2) :
    env.Framed declared targets (match first with
      | (.error fault, env) => ((.error fault, env) : Except Fault Value × Environment)
      | (.ok value, env) => next value env).2 := by
  obtain ⟨ended | value, middle⟩ := first
  · exact hfirst
  · exact hfirst.trans (hnext value middle)

/-- Evaluation sets values of the targets, in scopes that bind them. -/
theorem Expr.framed_eval {declared targets : List String} {expr : Expr}
    (h : expr.targets ⊆ targets) (env : Environment) :
    env.Framed declared targets (expr.eval env).2 := by
  induction expr generalizing env with
  | literal value span => exact .refl env
  | grouping inner span ih => exact ih h env
  | reference name span =>
    rw [eval]
    split <;> exact .refl env
  | assign name value span ih =>
    obtain ⟨hname, hvalue⟩ := List.cons_subset.mp h
    rw [eval]
    refine framed_sequel (ih hvalue env) fun assigned middle ↦ ?_
    split
    · next hassign => exact Environment.framed_assign hname hassign
    · exact .refl middle
  | unary op operand span ih =>
    rw [eval]
    exact framed_sequel (ih h env) fun _ ↦ .refl
  | binary op left right span hleft hright =>
    obtain ⟨hleftTargets, hrightTargets⟩ := List.append_subset.mp h
    rw [eval]
    refine framed_sequel (hleft hleftTargets env) fun _ middle ↦ ?_
    exact framed_sequel (hright hrightTargets middle) fun _ ↦ .refl
  | logical op left right span hleft hright =>
    obtain ⟨hleftTargets, hrightTargets⟩ := List.append_subset.mp h
    rw [eval]
    refine framed_sequel (hleft hleftTargets env) fun value middle ↦ ?_
    split
    · exact .refl middle
    · exact hright hrightTargets middle

/-! ## Execution -/

namespace Execution

variable {declared targets : List String}

/-- However the execution ends, the environment stays within the frame. -/
def Frames (declared targets : List String) (execution : Execution) : Prop :=
  ∀ machine ended after, 0 < machine.environment.depth →
    execution machine = some (ended, after) →
    machine.environment.Framed declared targets after.environment

theorem Frames.mono {moreDeclared moreTargets : List String} {execution : Execution}
    (h : execution.Frames declared targets) (hdeclared : declared ⊆ moreDeclared)
    (htargets : targets ⊆ moreTargets) : execution.Frames moreDeclared moreTargets :=
  fun machine ended after hpos hrun ↦ (h machine ended after hpos hrun).mono hdeclared htargets

theorem frames_finish : finish.Frames declared targets := by
  intro machine ended after _ h
  cases h
  exact .refl _

theorem frames_defining {name : String} (value : Value) (h : name ∈ declared) :
    (defining name value).Frames declared targets := by
  intro machine ended after _ hrun
  cases hrun
  exact Environment.framed_define _ value h

theorem frames_writing (span : Span) (value : Value) :
    (writing span value).Frames declared targets := by
  intro machine ended after _ h
  unfold writing at h
  split at h <;> cases h <;> exact .refl _

end Execution

@[simp]
theorem Machine.environment_log (machine : Machine) (entry : Log.Entry) :
    (machine.log entry).environment = machine.environment := by
  unfold Machine.log
  split <;> rfl

@[simp]
theorem Machine.environment_pushScope (machine : Machine) :
    machine.pushScope.environment = machine.environment.push := by
  simp [Machine.pushScope]

@[simp]
theorem Machine.environment_popScope (machine : Machine) :
    machine.popScope.environment = machine.environment.pop := by
  unfold Machine.popScope Environment.pop
  split <;> simp_all

namespace Execution

variable {declared targets : List String}

theorem Frames.logging {next : Execution} (entry : Log.Entry) (h : next.Frames declared targets) :
    (logging entry next).Frames declared targets := by
  intro machine ended after hpos hrun
  have hframed := h (machine.log entry) ended after (by simpa using hpos) hrun
  rwa [Machine.environment_log] at hframed

theorem Frames.andThen {first second : Execution} (hfirst : first.Frames declared targets)
    (hsecond : second.Frames declared targets) : (first.andThen second).Frames declared targets := by
  intro machine ended after hpos h
  unfold Execution.andThen at h
  split at h
  · next middle hmiddle =>
    have hleft := hfirst machine _ middle hpos hmiddle
    have hright := hsecond middle ended after (hleft.depth ▸ hpos) h
    exact hleft.trans hright
  · exact hfirst machine ended after hpos h

theorem frames_evaluating {expr : Expr} {next : Value → Execution} (hexpr : expr.targets ⊆ targets)
    (hnext : ∀ value, (next value).Frames declared targets) :
    (evaluating expr next).Frames declared targets := by
  intro machine ended after hpos h
  have heval : machine.environment.Framed declared targets (expr.eval machine.environment).2 :=
    expr.framed_eval hexpr machine.environment
  unfold evaluating at h
  split at h
  · next value env hvalue =>
    rw [hvalue] at heval
    exact heval.trans (hnext value _ ended after (heval.depth ▸ hpos) h)
  · next fault env hfault =>
    cases h
    rwa [hfault] at heval

/-- A scope is closed however the run inside of it ends. -/
theorem Frames.inScope {inside : Execution} (h : inside.Frames declared targets) :
    (inScope inside).Frames [] targets := by
  intro machine ended after hpos hscope
  unfold Execution.inScope at hscope
  obtain ⟨⟨_, inner⟩, hinside, heq⟩ := Option.map_eq_some_iff.mp hscope
  cases heq
  have hpushed : 0 < machine.pushScope.environment.depth := by
    rw [Machine.environment_pushScope, Environment.depth_push]
    exact Nat.succ_pos _
  have hframed := h _ _ inner hpushed hinside
  rw [Machine.environment_pushScope] at hframed
  rw [Machine.environment_popScope]
  exact hframed.pop hpos

theorem frames_whileLoop {condition : Expr} {body : Execution}
    (hcondition : condition.targets ⊆ targets) (hbody : body.Frames declared targets)
    (rounds : Nat) : (whileLoop condition body rounds).Frames declared targets := by
  induction rounds with
  | zero =>
    intro machine ended after _ h
    cases h
  | succ rounds ih =>
    intro machine ended after hpos h
    have heval : machine.environment.Framed declared targets
        (condition.eval machine.environment).2 :=
      condition.framed_eval hcondition machine.environment
    unfold whileLoop at h
    split at h
    · next fault env hfault =>
      cases h
      rwa [hfault] at heval
    · next value env hvalue =>
      rw [hvalue] at heval
      have hafter : 0 < env.depth := heval.depth ▸ hpos
      split at h
      · split at h
        · next middle hmiddle =>
          have hround := heval.trans (hbody { machine with environment := env } _ middle hafter hmiddle)
          exact hround.trans (ih middle ended after (hround.depth ▸ hpos) h)
        · exact heval.trans (hbody { machine with environment := env } ended after hafter h)
      · cases h
        exact heval

end Execution

namespace Stmt

open Execution

/-- The names that a statement declares in the scope it is executed in: those of declarations
that are not inside of a block. -/
def declared : Stmt → List String
  | expression .. => []
  | print .. => []
  | declare name _ _ => [name]
  | block .. => []
  | branch _ thenBranch none _ => thenBranch.declared
  | branch _ thenBranch (some elseBranch) _ => thenBranch.declared ++ elseBranch.declared
  | loop _ body _ => body.declared
termination_by structural stmt => stmt

mutual

/-- The names that a statement assigns to, inside of blocks or not. -/
def targets : Stmt → List String
  | expression expr _ => expr.targets
  | print expr _ => expr.targets
  | declare _ none _ => []
  | declare _ (some initial) _ => initial.targets
  | block body _ => targetsOfAll body
  | branch condition thenBranch none _ => condition.targets ++ thenBranch.targets
  | branch condition thenBranch (some elseBranch) _ =>
    condition.targets ++ (thenBranch.targets ++ elseBranch.targets)
  | loop condition body _ => condition.targets ++ body.targets
termination_by structural stmt => stmt

def targetsOfAll : List Stmt → List String
  | [] => []
  | stmt :: rest => stmt.targets ++ targetsOfAll rest
termination_by structural stmts => stmts

end

mutual

theorem frames_exec (rounds : Nat) (stmt : Stmt) :
    (stmt.exec rounds).Frames stmt.declared stmt.targets := by
  cases stmt with
  | expression expr span =>
    exact (frames_evaluating (List.Subset.refl _) fun _ ↦ frames_finish).logging _
  | print expr span =>
    exact (frames_evaluating (List.Subset.refl _) (frames_writing span)).logging _
  | declare name initial span =>
    have hname : name ∈ [name] := List.mem_singleton_self name
    cases initial with
    | none => exact (frames_defining .nil hname).logging _
    | some expr =>
      exact (frames_evaluating (List.Subset.refl _) fun value ↦ frames_defining value hname).logging _
  | block body span => exact (frames_execAll rounds body).inScope.logging _
  | branch condition thenBranch elseBranch span =>
    cases elseBranch with
    | none =>
      refine Frames.logging _ (frames_evaluating (List.subset_append_left _ _) fun value ↦ ?_)
      split
      · exact (frames_exec rounds thenBranch).mono (List.Subset.refl _)
          (List.subset_append_right _ _)
      · exact frames_finish
    | some elseBranch =>
      have hbranches : thenBranch.targets ++ elseBranch.targets ⊆
          (branch condition thenBranch (some elseBranch) span).targets :=
        List.subset_append_right _ _
      refine Frames.logging _ (frames_evaluating (List.subset_append_left _ _) fun value ↦ ?_)
      split
      · exact (frames_exec rounds thenBranch).mono (List.subset_append_left _ _)
          (List.Subset.trans (List.subset_append_left _ _) hbranches)
      · exact (frames_exec rounds elseBranch).mono (List.subset_append_right _ _)
          (List.Subset.trans (List.subset_append_right _ _) hbranches)
  | loop condition body span =>
    have hbody := (frames_exec rounds body).mono (List.Subset.refl _)
      (List.subset_append_right condition.targets _)
    exact (frames_whileLoop (List.subset_append_left _ _) hbody rounds).logging _

theorem frames_execAll (rounds : Nat) (stmts : List Stmt) :
    (execAll rounds stmts).Frames (stmts.flatMap declared) (targetsOfAll stmts) := by
  cases stmts with
  | nil => exact frames_finish
  | cons stmt rest =>
    have hstmt := (frames_exec rounds stmt).mono
      (List.subset_append_left _ (rest.flatMap declared))
      (List.subset_append_left _ (targetsOfAll rest))
    have hrest := (frames_execAll rounds rest).mono
      (List.subset_append_right stmt.declared _) (List.subset_append_right stmt.targets _)
    exact hstmt.andThen hrest

end

end Stmt

/-! ## Units -/

namespace Machine

@[simp]
theorem environment_logAll (machine : Machine) (entries : List Log.Entry) :
    (machine.logAll entries).environment = machine.environment := by
  induction entries generalizing machine with
  | nil => rfl
  | cons entry rest ih =>
    calc
      ((machine.log entry).logAll rest).environment = (machine.log entry).environment := ih _
      _ = machine.environment := machine.environment_log entry

@[simp]
theorem environment_read (machine : Machine) (mode : Grammar.Mode) (source : String) :
    (machine.read mode source).2.environment = machine.environment := by
  simp [read]

end Machine

/-- The faults that come from how a run ended. -/
def raised : Except Fault Unit → List Fault
  | .ok () => []
  | .error fault => [fault]

theorem collectFaults_eq (before : List Fault) (run : Option (Except Fault Unit × Machine)) :
    collectFaults before run = run.map fun ended ↦ (before ++ raised ended.1, ended.2) := by
  unfold collectFaults
  split
  · rfl
  · rw [Option.map_some, raised, List.append_nil]
  · rfl

theorem exists_of_collectFaults {before faults : List Fault} {after : Machine}
    {run : Option (Except Fault Unit × Machine)}
    (h : collectFaults before run = some (faults, after)) :
    ∃ ended, run = some (ended, after) ∧ faults = before ++ raised ended := by
  rw [collectFaults_eq] at h
  obtain ⟨⟨ended, machine⟩, hrun, hended⟩ := Option.map_eq_some_iff.mp h
  cases hended
  exact ⟨ended, hrun, rfl⟩

/-- What holds of the environment before the execution holds of it afterwards. -/
def Execution.Keeps (holds : Environment → Prop) (execution : Execution) : Prop :=
  ∀ machine ended after, holds machine.environment → execution machine = some (ended, after) →
    holds after.environment

theorem Execution.Frames.keeps_depth {declared targets : List String} {execution : Execution}
    {depth : Nat} (h : execution.Frames declared targets) (hpos : 0 < depth) :
    execution.Keeps fun env ↦ env.depth = depth := by
  rintro machine ended after rfl hrun
  exact (h machine ended after hpos hrun).depth

section

variable {holds : Environment → Prop} {rounds : Nat} {machine after : Machine}
  (hstatements : ∀ statements, (Stmt.execAll rounds statements).Keeps holds)
  (hmachine : holds machine.environment)

include hstatements hmachine

theorem holds_of_execProgram {statements : List Stmt} {ended : Except Fault Unit}
    (h : machine.execProgram rounds statements = some (ended, after)) :
    holds after.environment := by
  refine hstatements statements _ ended after ?_ h
  rw [Machine.environment_log]
  exact hmachine

theorem holds_of_run {source : String} {before faults : List Fault}
    (h : run rounds source before machine = some (faults, after)) : holds after.environment := by
  simp only [run] at h
  split at h
  · cases h
    rw [Machine.environment_log, Machine.environment_read]
    exact hmachine
  · obtain ⟨ended, hrun, -⟩ := exists_of_collectFaults h
    refine holds_of_execProgram hstatements ?_ hrun
    rw [Machine.environment_read]
    exact hmachine

theorem holds_of_runLine {source : String} {faults : List Fault}
    (hechoed : ∀ expr span,
      (Execution.evaluating expr (Execution.writing span)).Keeps holds)
    (h : runLine rounds source machine = some (faults, after)) : holds after.environment := by
  have hread : holds (machine.read .interactive source).2.environment := by
    rw [Machine.environment_read]
    exact hmachine
  simp only [runLine] at h
  split at h
  · cases h
    exact hread
  · split at h
    · next expr span _ =>
      obtain ⟨ended, hrun, -⟩ := exists_of_collectFaults h
      exact hechoed expr span _ ended after hread hrun
    · obtain ⟨ended, hrun, -⟩ := exists_of_collectFaults h
      exact holds_of_execProgram hstatements hread hrun

end

/-- To evaluate an expression changes nothing of a machine but its environment. -/
theorem Execution.exists_evaluating_finish (expr : Expr) (machine : Machine) :
    ∃ ended, evaluating expr (fun _ ↦ finish) machine =
      some (ended, { machine with environment := (expr.eval machine.environment).2 }) := by
  unfold evaluating
  split
  · next heval => exact ⟨.ok (), by rw [heval]; rfl⟩
  · next fault _ heval => exact ⟨.error fault, by rw [heval]⟩

/-- Whether it ends well or in a fault, a statement changes no more than its frame, and an
expression binds no name and writes nothing. So a unit that starts with the global scope alone
also ends with it alone. -/
theorem frame_of_execution (rounds : Nat) :
    (∀ (stmt : Stmt) (machine : Machine) ended after, 0 < machine.environment.depth →
      stmt.exec rounds machine = some (ended, after) →
      machine.environment.Framed stmt.declared stmt.targets after.environment) ∧
    (∀ (expr : Expr) (machine : Machine),
      machine.environment.Framed [] expr.targets (expr.eval machine.environment).2 ∧
      ∃ ended, Execution.evaluating expr (fun _ ↦ .finish) machine =
        some (ended, { machine with environment := (expr.eval machine.environment).2 })) ∧
    ∀ machine after : Machine, machine.environment.depth = 1 →
      (∀ source before faults, run rounds source before machine = some (faults, after) →
        after.environment.depth = 1) ∧
      (∀ source faults, runLine rounds source machine = some (faults, after) →
        after.environment.depth = 1) ∧
      ∀ statements ended, machine.execProgram rounds statements = some (ended, after) →
        after.environment.depth = 1 := by
  refine ⟨fun stmt ↦ Stmt.frames_exec rounds stmt, fun expr machine ↦ ?_,
    fun machine after hone ↦ ?_⟩
  · exact ⟨expr.framed_eval (List.Subset.refl _) _,
      Execution.exists_evaluating_finish expr machine⟩
  · have hstatements (statements : List Stmt) :
        (Stmt.execAll rounds statements).Keeps fun env ↦ env.depth = 1 :=
      (Stmt.frames_execAll rounds statements).keeps_depth Nat.one_pos
    refine ⟨fun source before faults h ↦ ?_, fun source faults h ↦ ?_, fun statements ended h ↦ ?_⟩
    · exact holds_of_run hstatements hone h
    · refine holds_of_runLine hstatements hone (fun expr span ↦ ?_) h
      have hframes : (Execution.evaluating expr (Execution.writing span)).Frames [] expr.targets :=
        Execution.frames_evaluating (List.Subset.refl _) (Execution.frames_writing span)
      exact hframes.keeps_depth Nat.one_pos
    · exact holds_of_execProgram hstatements hone h

/-- The statement `{ var b; { a = true; c; } }`, in which `c` is not defined. -/
def Stmt.unwinding : Stmt :=
  let span : Span := ⟨0, 0, 1⟩
  .block [.declare "b" none span,
    .block [.expression (.assign "a" (.literal (.bool true) span) span) span,
      .expression (.reference "c" span) span] span] span

theorem frame_of_execution_unwinding :
    let machine : Machine := { environment := Environment.globals.define "a" .nil }
    ∃ fault after, Stmt.unwinding.exec 0 machine = some (.error fault, after) ∧
      (after.environment.valueAt 0 "a").any Value.truthy ∧
      machine.environment.Framed [] ["a"] after.environment ∧
      (runLine 0 "\x7b var b; \x7b c; \x7d \x7d" machine).map (·.2.environment.depth) = some 1 := by
  intro machine
  have hone : machine.environment.depth = 1 := rfl
  have hpos : 0 < machine.environment.depth := Nat.one_pos
  have hexec : (Stmt.unwinding.exec 0 machine).any fun result ↦
      !result.1.isOk && (result.2.environment.valueAt 0 "a").any Value.truthy := by decide +kernel
  have hline : (runLine 0 "\x7b var b; \x7b c; \x7d \x7d" machine).isSome := by decide +kernel
  obtain ⟨⟨ended, after⟩, hafter, hvalue⟩ := (Option.any_eq_true _ _).mp hexec
  obtain ⟨⟨faults, lineAfter⟩, hlineAfter⟩ := Option.isSome_iff_exists.mp hline
  cases ended with
  | ok => cases hvalue
  | error fault =>
    refine ⟨fault, after, hafter, hvalue, ?_, ?_⟩
    · exact (frame_of_execution 0).1 Stmt.unwinding machine _ after hpos hafter
    · have hdepth := ((frame_of_execution 0).2.2 machine lineAfter hone).2.1 _ faults hlineAfter
      rw [hlineAfter, Option.map_some, hdepth]

end LoxLang
