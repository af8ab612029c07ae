import LoxLang.Proofs.Environment.Stack
import LoxLang.Proofs.Run.Simulation

/-!
# `for` loops

There is no statement for a `for` loop: the parser puts together a `while` loop whose body is a
block of the loop's body and its increment, inside of another block if there is an initial
clause. The loop that is meant has no scope but the one for the initial clause. Here the two are
shown to be the same.

The block around body and increment opens an empty scope. It stays empty, since a body never
declares a name outside of a block of its own: declarations are read only where a block or a
program lists its statements. And an empty scope among others can not be told from none.
-/

namespace LoxLang

/-! ## Bodies declare nothing -/

namespace Rule

variable {α β : Type}

/-- Whatever the rule reads has the property, be it with faults or without. -/
def Yields (property : α → Prop) (rule : Rule α) : Prop :=
  ∀ input value rest, (rule input).outcome = .done value rest → property value

theorem outcome_bind_eq_done {rule : Rule α} {next : α → Rule β} {input rest : List Token}
    {value : β} (h : ((rule >>= next) input).outcome = .done value rest) :
    ∃ found middle, (rule input).outcome = .done found middle ∧
      (next found middle).outcome = .done value rest := by
  change (andThen rule next input).outcome = .done value rest at h
  unfold andThen at h
  split at h
  · next faults found middle hreading => exact ⟨found, middle, by rw [hreading], h⟩
  · cases h
  · cases h

theorem yields_pure {property : α → Prop} {value : α} (h : property value) :
    (pure value : Rule α).Yields property := by
  intro input found rest hdone
  cases hdone
  exact h

theorem Yields.bind {first : α → Prop} {property : β → Prop} {rule : Rule α} {next : α → Rule β}
    (h : rule.Yields first) (hnext : ∀ found, first found → (next found).Yields property) :
    (rule >>= next).Yields property := by
  intro input value rest hdone
  obtain ⟨found, middle, hfound, hvalue⟩ := outcome_bind_eq_done hdone
  exact hnext found (h input found middle hfound) middle value rest hvalue

theorem yields_bind {property : β → Prop} {rule : Rule α} {next : α → Rule β}
    (hnext : ∀ found, (next found).Yields property) : (rule >>= next).Yields property := by
  intro input value rest hdone
  obtain ⟨found, middle, -, hvalue⟩ := outcome_bind_eq_done hdone
  exact hnext found middle value rest hvalue

end Rule

namespace Grammar

/-- A `for` loop declares nothing if its body does not: the initial clause is inside of a
block. -/
theorem ForClauses.declared_toLoop (clauses : ForClauses) {body : Stmt} (span : Span)
    (h : body.declared = []) : (clauses.toLoop body span).declared = [] := by
  obtain ⟨initial, condition, separator, increment⟩ := clauses
  cases initial with
  | some initial => rfl
  | none =>
    cases increment with
    | none => exact h
    | some increment => rfl

namespace Parts

variable {parts : Parts}

theorem yields_expressionStatement :
    parts.expressionStatement.Yields fun stmt ↦ stmt.declared = [] := by
  refine Rule.yields_bind fun _ ↦ Rule.yields_bind fun _ ↦ Rule.yields_bind fun _ ↦ ?_
  split
  · exact Rule.yields_pure rfl
  · exact Rule.yields_bind fun _ ↦ Rule.yields_pure rfl

theorem yields_print (opening : Span) :
    (parts.print opening).Yields fun stmt ↦ stmt.declared = [] :=
  Rule.yields_bind fun _ ↦ Rule.yields_bind fun _ ↦ Rule.yields_pure rfl

theorem yields_block (opening : Span) :
    (parts.block opening).Yields fun stmt ↦ stmt.declared = [] :=
  Rule.yields_bind fun _ ↦ Rule.yields_bind fun _ ↦ Rule.yields_bind fun _ ↦ Rule.yields_pure rfl

section

variable (hstatement : parts.statement.Yields fun stmt ↦ stmt.declared = []) (opening : Span)

include hstatement

theorem yields_branch : (parts.branch opening).Yields fun stmt ↦ stmt.declared = [] := by
  refine Rule.yields_bind fun _ ↦ Rule.yields_bind fun _ ↦ Rule.yields_bind fun _ ↦ ?_
  refine hstatement.bind fun thenBranch hthen ↦ Rule.yields_bind fun keyword ↦ ?_
  cases keyword with
  | none => exact Rule.yields_pure hthen
  | some _ =>
    refine hstatement.bind fun elseBranch helse ↦ Rule.yields_pure ?_
    rw [Stmt.declared, hthen, helse]
    rfl

theorem yields_loop : (parts.loop opening).Yields fun stmt ↦ stmt.declared = [] := by
  refine Rule.yields_bind fun _ ↦ Rule.yields_bind fun _ ↦ Rule.yields_bind fun _ ↦ ?_
  exact hstatement.bind fun _ hbody ↦ Rule.yields_pure hbody

theorem yields_forLoop : (parts.forLoop opening).Yields fun stmt ↦ stmt.declared = [] := by
  refine Rule.yields_bind fun clauses ↦ hstatement.bind fun body hbody ↦ ?_
  exact Rule.yields_pure (clauses.declared_toLoop _ hbody)

theorem yields_body : parts.body.Yields fun stmt ↦ stmt.declared = [] := by
  intro input stmt rest hdone
  cases input with
  | nil => exact yields_expressionStatement [] stmt rest hdone
  | cons token tokens =>
    rw [body] at hdone
    split at hdone
    · exact yields_print token.span tokens stmt rest hdone
    · exact yields_block token.span tokens stmt rest hdone
    · exact yields_branch hstatement token.span tokens stmt rest hdone
    · exact yields_loop hstatement token.span tokens stmt rest hdone
    · exact yields_forLoop hstatement token.span tokens stmt rest hdone
    · exact yields_expressionStatement (token :: tokens) stmt rest hdone

end

end Parts

theorem yields_statement (mode : Mode) (eof : Span) (budget : Nat) :
    (parts mode eof budget).statement.Yields fun stmt ↦ stmt.declared = [] := by
  induction budget with
  | zero =>
    intro input stmt rest hdone
    cases hdone
  | succ budget ih => exact Parts.yields_body ih

end Grammar

/-! ## The loop that is meant -/

namespace Execution

/-- Goes on if the condition holds. A missing one counts as true. -/
def testing : Option Expr → Execution → Execution
  | none, next => next
  | some condition, next => evaluating condition fun value => if value.truthy then next else finish

/-- Runs rounds as long as the condition holds before them, at most the given number. -/
def repeating (condition : Option Expr) (round : Execution) : Nat → Execution
  | 0 => fun _ => none
  | rounds + 1 => testing condition (round.andThen (repeating condition round rounds))

theorem whileLoop_eq_repeating (condition : Option Expr) (round : Execution) (separator : Span)
    (rounds : Nat) :
    whileLoop (condition.getD (.literal (.bool true) separator)) round rounds =
      repeating condition round rounds := by
  induction rounds with
  | zero => rfl
  | succ rounds ih =>
    rw [whileLoop_succ, ih, repeating]
    cases condition with
    | none => rfl
    | some condition => rfl

theorem andThen_finish (first : Execution) : first.andThen finish = first := by
  funext machine
  unfold andThen
  split
  · next middle hmiddle => exact hmiddle.symm
  · rfl

end Execution

namespace Grammar.ForClauses

/-- The body and then the increment, in the scope where they stand. -/
def round (clauses : ForClauses) (body : Execution) : Execution :=
  match clauses.increment with
  | none => body
  | some increment => body.andThen (.evaluating increment fun _ => .finish)

/-- A `for` loop as it is meant: a scope for the initial clause, if there is one, and in it
rounds of the body and the increment. -/
def direct (clauses : ForClauses) (body : Stmt) (rounds : Nat) : Execution :=
  let loop := Execution.repeating clauses.condition (clauses.round (body.exec rounds)) rounds
  match clauses.initial with
  | none => loop
  | some initial => .inScope ((initial.exec rounds).andThen loop)

end Grammar.ForClauses

/-! ## An empty scope among others -/

namespace Stack

theorem get?_insert (upper lower : Stack) (name : String) :
    (upper ++ [] :: lower).get? name = (upper ++ lower).get? name := by
  induction upper with
  | nil => rfl
  | cons scope rest ih => rw [List.cons_append, get?, ih, List.cons_append, get?]

/-- Of two stacks the first has one more scope, which binds nothing: it lies under as many scopes
as the level says, and above at least one. -/
inductive Inserted (level : Nat) : Stack → Stack → Prop where
  | intro (upper lower : Stack) (hlevel : upper.length = level) (hlower : lower ≠ []) :
    Inserted level (upper ++ [] :: lower) (upper ++ lower)

namespace Inserted

variable {level : Nat} {stack other : Stack}

theorem ne_nil (h : Inserted level stack other) : stack ≠ [] ∧ other ≠ [] := by
  obtain ⟨upper, lower, hlevel, hlower⟩ := h
  simp [hlower]

theorem assign? (h : Inserted level stack other) (name : String) (value : Value) :
    Option.Rel (Inserted level) (stack.assign? name value) (other.assign? name value) := by
  obtain ⟨upper, lower, hlevel, hlower⟩ := h
  induction upper generalizing level with
  | nil =>
    have hempty : Stack.assign? name value ([] :: lower) =
        (lower.assign? name value).map ([] :: ·) := rfl
    rw [List.nil_append, List.nil_append, hempty]
    cases hassign : lower.assign? name value with
    | none => exact .none
    | some after => exact .some (.intro [] after hlevel (assign?_ne_nil hassign))
  | cons scope rest ih =>
    rw [List.cons_append, List.cons_append, Stack.assign?, Stack.assign?]
    split
    · exact .some (.intro (Scope.update name value scope :: rest) lower hlevel hlower)
    · have hbelow := ih rfl
      generalize Stack.assign? name value (rest ++ [] :: lower) = below at hbelow ⊢
      generalize Stack.assign? name value (rest ++ lower) = otherBelow at hbelow ⊢
      cases hbelow with
      | none => exact .none
      | some hafter =>
        obtain ⟨upper, lower, hrest, hlower⟩ := hafter
        refine .some (.intro (scope :: upper) lower ?_ hlower)
        rw [List.length_cons, hrest, ← hlevel, List.length_cons]

end Inserted

end Stack

namespace Simulation

open Environment

/-- The same linked environment on both sides. -/
def linked : Simulation where
  spans := Eq
  environments _ env other := env = other ∧ env.Linked
  sinks := Eq
  get? h _ := by rw [h.1]
  assign? := by
    rintro level env _ ⟨rfl, hlinked⟩ name value
    cases hassign : env.assign? name value with
    | none => exact .none
    | some after => exact .some ⟨rfl, hlinked.assign? hassign⟩
  push h := ⟨by rw [h.1], h.2.push⟩
  pop h := ⟨by rw [h.1], h.2.pop⟩
  define h name value := ⟨by rw [h.1], h.2.define name value⟩
  say := say_eq

/-- The first execution is inside of one more scope, which binds nothing. -/
def inserted : Simulation where
  spans := Eq
  environments level env other :=
    ∃ stack last, Stack.Inserted level stack last ∧ env = ofStack stack ∧ other = ofStack last
  sinks := Eq
  get? := by
    rintro level _ _ ⟨_, _, h, rfl, rfl⟩ name
    rw [get?_ofStack h.ne_nil.1, get?_ofStack h.ne_nil.2]
    obtain ⟨upper, lower, -, -⟩ := h
    exact Stack.get?_insert upper lower name
  assign? := by
    rintro level _ _ ⟨stack, last, h, rfl, rfl⟩ name value
    rw [assign?_ofStack h.ne_nil.1, assign?_ofStack h.ne_nil.2]
    have hassign := h.assign? name value
    generalize stack.assign? name value = assigned at hassign ⊢
    generalize last.assign? name value = otherAssigned at hassign ⊢
    cases hassign with
    | none => exact .none
    | some hafter => exact .some ⟨_, _, hafter, rfl, rfl⟩
  push := by
    rintro level _ _ ⟨_, _, h, rfl, rfl⟩
    rw [push_ofStack h.ne_nil.1, push_ofStack h.ne_nil.2]
    obtain ⟨upper, lower, hlevel, hlower⟩ := h
    exact ⟨_, _, .intro ([] :: upper) lower (congrArg (· + 1) hlevel) hlower, rfl, rfl⟩
  pop := by
    rintro level _ _ ⟨_, _, ⟨upper, lower, hlevel, hlower⟩, rfl, rfl⟩
    obtain ⟨scope, rest, rfl⟩ := List.exists_cons_of_length_eq_add_one hlevel
    rw [List.cons_append, List.cons_append, pop_ofStack (by simp), pop_ofStack (by simp [hlower])]
    exact ⟨_, _, .intro rest lower (Nat.succ.inj hlevel) hlower, rfl, rfl⟩
  define := by
    rintro level _ _ ⟨_, _, ⟨upper, lower, hlevel, hlower⟩, rfl, rfl⟩ name value
    obtain ⟨scope, rest, rfl⟩ := List.exists_cons_of_length_eq_add_one hlevel
    rw [List.cons_append, List.cons_append, define_ofStack, define_ofStack]
    exact ⟨_, _, .intro (Scope.update name value scope :: rest) lower hlevel hlower, rfl, rfl⟩
  say := say_eq

/-- A scope in which nothing is declared may as well not be opened. -/
theorem Matches.inScope_insert {level : Nat} {inside other : Execution}
    (h : inserted.Matches 0 inside other) : linked.Matches level inside.inScope other := by
  rintro machine otherMachine ⟨⟨henvironment, hlinked⟩, hsink⟩
  obtain ⟨stack, hne, hstack⟩ := hlinked.exists_stack
  have hpushed : inserted.Machines 0 machine.pushScope otherMachine := by
    constructor
    · rw [Machine.environment_pushScope, ← henvironment, hstack, push_ofStack hne]
      exact ⟨_, _, .intro [] stack rfl hne, rfl, rfl⟩
    · rw [Machine.sink_pushScope]
      exact hsink
  have hended := h _ _ hpushed
  unfold Execution.inScope
  generalize inside machine.pushScope = ended at hended ⊢
  generalize other otherMachine = otherEnded at hended ⊢
  cases hended with
  | none => exact .none
  | @some ended otherEnded hended =>
    obtain ⟨hresult, ⟨_, _, ⟨upper, lower, hlevel, hlower⟩, hinner, houter⟩, hsinks⟩ := hended
    obtain rfl := List.length_eq_zero_iff.mp hlevel
    have hpop : ended.2.popScope.environment = otherEnded.2.environment := by
      rw [Machine.environment_popScope, hinner, houter]
      exact pop_ofStack hlower
    refine .some ⟨hresult, ⟨hpop, ?_⟩, ?_⟩
    · rw [hpop, houter]
      exact linked_ofStack hlower
    · rw [Machine.sink_popScope]
      exact hsinks

end Simulation

/-! ## Linked machines

A new machine is linked, and whatever it runs leaves it linked. -/

theorem Simulation.Matches.keeps_linked {level : Nat} {execution : Execution}
    (h : linked.Matches level execution execution) : execution.Keeps Environment.Linked := by
  intro machine ended after hlinked hrun
  have hended := h machine machine ⟨⟨rfl, hlinked⟩, rfl⟩
  rw [hrun] at hended
  cases hended with
  | some hended => exact hended.machines.environment.2

theorem Stmt.keeps_linked_execAll (rounds : Nat) (statements : List Stmt) :
    (execAll rounds statements).Keeps Environment.Linked := by
  have hmatches : Simulation.linked.Matches 1 (execAll rounds statements)
      (execAll rounds statements) :=
    Simulation.matches_execAll (allAlike_refl (fun _ ↦ rfl) statements) rounds
      fun hlevel ↦ absurd hlevel Nat.one_ne_zero
  exact hmatches.keeps_linked

section

variable {rounds : Nat} {machine after : Machine} {source : String} {faults : List Fault}
  (hlinked : machine.environment.Linked)

include hlinked

theorem linked_of_run {before : List Fault}
    (h : run rounds source before machine = some (faults, after)) : after.environment.Linked :=
  holds_of_run (Stmt.keeps_linked_execAll rounds) hlinked h

theorem linked_of_runLine (h : runLine rounds source machine = some (faults, after)) :
    after.environment.Linked := by
  refine holds_of_runLine (Stmt.keeps_linked_execAll rounds) hlinked (fun expr span ↦ ?_) h
  have hmatches : Simulation.linked.Matches 1 (.evaluating expr (.writing span))
      (.evaluating expr (.writing span)) :=
    Simulation.matches_evaluating (expr.alike_refl fun _ ↦ rfl) (Simulation.matches_writing rfl)
  exact hmatches.keeps_linked

end

/-! ## Both loops -/

namespace Grammar.ForClauses

open Simulation

variable {level : Nat}

/-- The block around body and increment is transparent. -/
theorem matches_round {body : Stmt} (hbody : body.declared = []) (increment : Expr) (span : Span)
    (rounds : Nat) :
    linked.Matches level ((Stmt.block [body, .expression increment increment.span] span).exec rounds)
      ((body.exec rounds).andThen (.evaluating increment fun _ ↦ .finish)) := by
  have hfirst : inserted.Matches 0 (body.exec rounds) (body.exec rounds) :=
    matches_exec (body.alike_refl fun _ ↦ rfl) rounds fun _ ↦ hbody
  have hsecond : inserted.Matches 0 (.evaluating increment fun _ ↦ .finish)
      (.evaluating increment fun _ ↦ .finish) :=
    matches_evaluating (increment.alike_refl fun _ ↦ rfl) fun _ ↦ matches_finish
  have hinside := hfirst.andThen (hsecond.logging (.executing .expression))
  rw [← Execution.andThen_finish (.logging (.executing .expression) _)] at hinside
  exact hinside.inScope_insert.logging _

theorem matches_loop {repeated : Stmt} {round : Execution} {rounds : Nat}
    (h : linked.Matches level (repeated.exec rounds) round) (condition : Option Expr)
    (separator span : Span) :
    linked.Matches level
      ((Stmt.loop (condition.getD (.literal (.bool true) separator)) repeated span).exec rounds)
      (.repeating condition round rounds) := by
  rw [← Execution.whileLoop_eq_repeating condition round separator rounds]
  exact (matches_whileLoop (Expr.alike_refl (fun _ ↦ rfl) _) h rounds).logging _

theorem matches_initial {loop : Stmt} {other : Execution} {rounds : Nat}
    (h : linked.Matches (level + 1) (loop.exec rounds) other) (initial : Stmt) (span : Span) :
    linked.Matches level ((Stmt.block [initial, loop] span).exec rounds)
      (.inScope ((initial.exec rounds).andThen other)) := by
  have hinitial : linked.Matches (level + 1) (initial.exec rounds) (initial.exec rounds) :=
    matches_exec (initial.alike_refl fun _ ↦ rfl) rounds
      fun hlevel ↦ absurd hlevel (Nat.succ_ne_zero level)
  have hinside := hinitial.andThen h
  rw [← Execution.andThen_finish (loop.exec rounds)] at hinside
  exact hinside.inScope.logging _

theorem matches_toLoop (clauses : ForClauses) {body : Stmt} (hbody : body.declared = [])
    (span : Span) (rounds : Nat) :
    linked.Matches 1 ((clauses.toLoop body span).exec rounds) (clauses.direct body rounds) := by
  obtain ⟨initial, condition, separator, increment⟩ := clauses
  have hloop (level : Nat) : linked.Matches level
      ((toLoop ⟨none, condition, separator, increment⟩ body span).exec rounds)
      (direct ⟨none, condition, separator, increment⟩ body rounds) := by
    cases increment with
    | none =>
      have hround : linked.Matches level (body.exec rounds) (body.exec rounds) :=
        matches_exec (body.alike_refl fun _ ↦ rfl) rounds fun _ ↦ hbody
      exact matches_loop hround condition separator span
    | some increment => exact matches_loop (matches_round hbody increment span rounds) _ _ _
  cases initial with
  | none => exact hloop 1
  | some initial => exact matches_initial (hloop 2) initial span

end Grammar.ForClauses

/-- What an execution leaves, but for the log. -/
def observed (ended : Except Fault Unit × Machine) : Except Fault Unit × Environment × Sink :=
  (ended.1, ended.2.environment, ended.2.sink)

theorem Simulation.observed_eq {level : Nat} {first second : Execution}
    (h : linked.Matches level first second) {machine : Machine}
    (hlinked : machine.environment.Linked) :
    (first machine).map observed = (second machine).map observed := by
  have hended := h machine machine ⟨⟨rfl, hlinked⟩, rfl⟩
  generalize first machine = ended at hended ⊢
  generalize second machine = otherEnded at hended ⊢
  cases hended with
  | none => rfl
  | @some ended otherEnded hended =>
    obtain ⟨hresult, ⟨henvironment, -⟩, hsink⟩ := hended
    have hsame : ended.1 = otherEnded.1 := by
      generalize ended.1 = result at hresult ⊢
      generalize otherEnded.1 = otherResult at hresult ⊢
      cases hresult with
      | ok => rfl
      | @error fault other hfault =>
        obtain ⟨span, locus, issue⟩ := fault
        obtain ⟨rfl, rfl, rfl⟩ := hfault
        rfl
    rw [Option.map_some, Option.map_some, observed, observed, hsame, henvironment, hsink]

open Grammar in
/-- The tree that is read for a `for` loop runs as the loop of its clauses and its body is meant
to. The body leaves the same names bound as before in every scope, so nothing that it declares is
there when the increment or the next condition is evaluated. That the environment is linked is no
restriction: a new one is, and by `linked_of_run` and `linked_of_runLine` it remains so whatever
scripts and lines are run. -/
theorem forLoop_runs_direct (mode : Mode) (eof : Span) (budget : Nat) (opening : Span)
    (input rest : List Token) (stmt : Stmt)
    (h : ((parts mode eof budget).forLoop opening input).outcome = .done stmt rest) :
    ∃ clauses middle body,
      ((parts mode eof budget).forClauses input).outcome = .done clauses middle ∧
      ((parts mode eof budget).statement middle).outcome = .done body rest ∧
      ∀ rounds (machine : Machine), machine.environment.Linked →
        (stmt.exec rounds machine).map observed =
          (clauses.direct body rounds machine).map observed ∧
        ∀ ended after, body.exec rounds machine = some (ended, after) → ∀ index name,
          after.environment.Binds index name ↔ machine.environment.Binds index name := by
  obtain ⟨clauses, middle, hclauses, hnext⟩ := Rule.outcome_bind_eq_done h
  obtain ⟨body, _, hbody, hdone⟩ := Rule.outcome_bind_eq_done hnext
  cases hdone
  have hdeclared := yields_statement mode eof budget middle body rest hbody
  refine ⟨clauses, middle, body, hclauses, hbody, fun rounds machine hlinked ↦ ⟨?_, ?_⟩⟩
  · exact Simulation.observed_eq (clauses.matches_toLoop hdeclared _ rounds) hlinked
  · intro ended after hexec index name
    have hframed := Stmt.frames_exec rounds body machine ended after hlinked.depth_pos hexec
    rw [hdeclared] at hframed
    refine ⟨fun hafter ↦ ?_, hframed.kept index name⟩
    rcases hframed.gained index name hafter with hbefore | ⟨-, hmem⟩
    · exact hbefore
    · cases hmem

/-- What was read, if nothing is left behind it. -/
def Outcome.whole? {α : Type} : Outcome α → Option α
  | .done value [] => some value
  | .done _ (_ :: _) => none
  | .failed _ _ => none
  | .tooDeep _ => none

theorem Outcome.whole?_eq_some {α : Type} {outcome : Outcome α} {value : α}
    (h : outcome.whole? = some value) : outcome = .done value [] := by
  unfold whole? at h
  split at h
  · cases h
    rfl
  · cases h
  · cases h
  · cases h

open Grammar in
/-- The loop is run behind the script `var b;`. -/
theorem forLoop_runs_direct_shadowing :
    let input := (Scan.ofSource "(var a; !a; a = b) \x7b var a = true; print a; b = a; \x7d").tokens
    let rules := parts .script ⟨0, 0, 1⟩ 8
    ∃ machine stmt clauses middle body,
      run 0 "var b;" [] {} = some ([], machine) ∧
      (rules.forLoop ⟨0, 0, 1⟩ input).outcome = .done stmt [] ∧
      (rules.forClauses input).outcome = .done clauses middle ∧
      (rules.statement middle).outcome = .done body [] ∧
      machine.environment.Linked ∧
      (stmt.exec 2 machine).map (·.2.sink.written.toList) = some (Text.Utf8.encode "true\n") ∧
      (stmt.exec 2 machine).map observed = (clauses.direct body 2 machine).map observed := by
  intro input rules
  have hcheck : (run 0 "var b;" [] {}).any fun unit ↦ unit.1.isEmpty &&
      (rules.forLoop ⟨0, 0, 1⟩ input).outcome.whole?.any fun stmt ↦
        (stmt.exec 2 unit.2).map (·.2.sink.written.toList) = some (Text.Utf8.encode "true\n") := by
    decide +kernel
  obtain ⟨⟨faults, machine⟩, hscript, hloop⟩ := (Option.any_eq_true _ _).mp hcheck
  obtain ⟨hclean, hread⟩ := Bool.and_eq_true_iff.mp hloop
  obtain rfl := List.isEmpty_iff.mp hclean
  obtain ⟨stmt, hwhole, hwritten⟩ := (Option.any_eq_true _ _).mp hread
  have hstmt := Outcome.whole?_eq_some hwhole
  have hlinked : machine.environment.Linked := linked_of_run Environment.linked_globals hscript
  obtain ⟨clauses, middle, body, hclauses, hbody, hrun⟩ :=
    forLoop_runs_direct .script ⟨0, 0, 1⟩ 8 ⟨0, 0, 1⟩ input [] stmt hstmt
  exact ⟨machine, stmt, clauses, middle, body, hscript, hstmt, hclauses, hbody, hlinked,
    of_decide_eq_true hwritten, (hrun 2 machine hlinked).1⟩

end LoxLang
