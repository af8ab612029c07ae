import LoxLang.Proofs.Grammar.Indexed

/-!
# Reading by index beside the rules

What it means that an action on a token list agrees with a rule on some input. The input is what
is left of the list before the first mark in it. Where the rules have it left, the index is at its
first token, and the levels that were entered and those that the rules have left make up the
limit. If the rules go past the limit, the index is at the last token, which is a mark, and stays
there.
-/

namespace LoxLang.Indexed

open Indexed.Action

/-- A token list that ends with a mark, divided at the first mark in it. -/
structure Tape where
  front : List Token
  mark : Token
  tail : List Token
  inner : ∀ token ∈ front, token.kind ≠ .eof
  mark_kind : mark.kind = .eof
  last_kind : ((mark :: tail).getLast (List.cons_ne_nil mark tail)).kind = .eof

namespace Tape

variable (tape : Tape)

def tokens : List Token := tape.front ++ tape.mark :: tape.tail

/-- The index is at the first token of the input, which is what is left before the mark. -/
structure Placed (input : List Token) (state : State) : Prop where
  suffix : input <:+ tape.front
  current : state.current + input.length = tape.front.length
  running : state.aborted = false

/-- The index is at the input, with the given number of levels left. -/
structure Ready (input : List Token) (budget : Nat) (state : State) : Prop
    extends tape.Placed input state where
  depth : state.depth + budget = nestingLimit

/-- Reading was given up. -/
structure Aborted (state : State) : Prop where
  current : state.current = tape.tokens.length - 1
  aborted : state.aborted = true

/-- What an action leaves agrees with what a rule gives on the input, whose faults come behind
those recorded before. Past the limit the fault is recorded already, and any may be thrown: a block
that has been left open throws its own. -/
inductive Ends {α : Type} (budget : Nat) (before : List Fault) (input : List Token) :
    Reading α → Except Fault α × State → Prop where
  | done {faults : List Fault} {value : α} {rest : List Token} {state : State}
    (suffix : rest <:+ input) (ready : tape.Ready rest budget state)
    (recorded : state.faults = before ++ faults) :
    Ends budget before input ⟨faults, .done value rest⟩ (.ok value, state)
  | failed {faults : List Fault} {issue : Issue} {rest : List Token} {state : State}
    (suffix : rest <:+ input) (placed : tape.Placed rest state)
    (recorded : state.faults = before ++ faults) :
    Ends budget before input ⟨faults, .failed issue rest⟩
      (.error (.atNext tape.mark.span issue rest), state)
  | tooDeep {faults : List Fault} {rest : List Token} {thrown : Fault} {state : State}
    (aborted : tape.Aborted state)
    (recorded : state.faults =
      before ++ (faults ++ [.atNext tape.mark.span .nestingTooDeep rest])) :
    Ends budget before input ⟨faults, .tooDeep rest⟩ (.error thrown, state)

/-- On the input the action does not crash and agrees with the rule. It starts with one number of
levels left and ends with another. -/
def Follows {α : Type} (start final : Nat) (input : List Token) (action : Action α)
    (reading : Reading α) : Prop :=
  ∀ state, tape.Ready input start state → ∃ result, action tape.tokens state = .ok result ∧
    tape.Ends final state.faults input reading result

variable {tape} {α β : Type} {start middle final : Nat} {input rest : List Token} {token : Token}

/-! ## Actions in sequence -/

theorem Ends.behind {budget : Nat} {before faults : List Fault} {reading : Reading α}
    {result : Except Fault α × State} (h : tape.Ends budget (before ++ faults) rest reading result)
    (hrest : rest <:+ input) :
    tape.Ends budget before input ⟨faults ++ reading.faults, reading.outcome⟩ result := by
  cases h with
  | done suffix ready recorded =>
    exact .done (suffix.trans hrest) ready (by rw [recorded, List.append_assoc])
  | failed suffix placed recorded =>
    exact .failed (suffix.trans hrest) placed (by rw [recorded, List.append_assoc])
  | tooDeep aborted recorded =>
    exact .tooDeep aborted (by rw [recorded, List.append_assoc, List.append_assoc])

theorem bind_ok {first : Action α} {second : α → Action β} {tokens : List Token}
    {state after : State} {value : α} (h : first tokens state = .ok (.ok value, after)) :
    (first >>= second) tokens state = second value tokens after := by
  change Action.andThen first second tokens state = _
  simp only [Action.andThen, h]

theorem bind_error {first : Action α} {second : α → Action β} {tokens : List Token}
    {state after : State} {fault : Fault} (h : first tokens state = .ok (.error fault, after)) :
    (first >>= second) tokens state = .ok (.error fault, after) := by
  change Action.andThen first second tokens state = _
  simp only [Action.andThen, h]

theorem Follows.bind_done {rule : Rule α} {next : α → Rule β} {first : Action α}
    {second : α → Action β} (h : tape.Follows start middle input first (rule input))
    (hnext : ∀ value rest, (rule input).outcome = .done value rest → rest <:+ input →
      tape.Follows middle final rest (second value) (next value rest)) :
    tape.Follows start final input (first >>= second) ((rule >>= next) input) := by
  intro state hready
  obtain ⟨result, hrun, hends⟩ := h state hready
  change ∃ result, (first >>= second) tape.tokens state = .ok result ∧
    tape.Ends final state.faults input (Rule.andThen rule next input) result
  simp only [Rule.andThen]
  generalize hreading : rule input = reading at hends
  cases hends with
  | done suffix ready recorded =>
    obtain ⟨last, hlast, hendsLast⟩ := hnext _ _ (by rw [hreading]) suffix _ ready
    rw [recorded] at hendsLast
    exact ⟨last, (bind_ok hrun).trans hlast, hendsLast.behind suffix⟩
  | failed suffix placed recorded =>
    exact ⟨_, bind_error hrun, .failed suffix placed recorded⟩
  | tooDeep aborted recorded => exact ⟨_, bind_error hrun, .tooDeep aborted recorded⟩

theorem Follows.bind {rule : Rule α} {next : α → Rule β} {first : Action α}
    {second : α → Action β} (h : tape.Follows start middle input first (rule input))
    (hnext : ∀ value rest, rest <:+ input →
      tape.Follows middle final rest (second value) (next value rest)) :
    tape.Follows start final input (first >>= second) ((rule >>= next) input) :=
  h.bind_done fun value rest _ ↦ hnext value rest

/-- An action that records nothing, and one behind it. -/
theorem Follows.andThen {value : α} {first : Action α} {second : α → Action β}
    {reading : Reading β} (h : tape.Follows start middle input first ⟨[], .done value rest⟩)
    (hnext : tape.Follows middle final rest (second value) reading) :
    tape.Follows start final input (first >>= second) reading := by
  intro state hready
  obtain ⟨result, hrun, hends⟩ := h state hready
  cases hends with
  | done suffix ready recorded =>
    obtain ⟨last, hlast, hendsLast⟩ := hnext _ ready
    rw [recorded] at hendsLast
    exact ⟨last, (bind_ok hrun).trans hlast, hendsLast.behind suffix⟩

theorem follows_pure (value : α) :
    tape.Follows start start input (pure value) (Rule.done value input) :=
  fun _ hready ↦ ⟨_, rfl, .done (List.suffix_refl input) hready (List.append_nil _).symm⟩

theorem Follows.map {rule : Rule α} {action : Action α}
    (h : tape.Follows start final input action (rule input)) (f : α → β) :
    tape.Follows start final input (f <$> action) ((f <$> rule) input) :=
  h.bind fun value _ _ ↦ follows_pure (f value)

theorem follows_record (fault : Fault) :
    tape.Follows start start input (record fault) (Rule.note fault input) :=
  fun _ hready ↦ ⟨_, rfl, .done (List.suffix_refl input)
    ⟨⟨hready.suffix, hready.current, hready.running⟩, hready.depth⟩ rfl⟩

/-! ## Tokens -/

theorem Placed.getElem?_current {state : State} (h : tape.Placed input state) :
    tape.tokens[state.current]? = some (input.headD tape.mark) := by
  obtain ⟨before, hfront⟩ := h.suffix
  have hcurrent : state.current = before.length := by
    have hlength := h.current
    rw [← hfront, List.length_append] at hlength
    omega
  rw [tokens, ← hfront, hcurrent, List.append_assoc, List.getElem?_append_right (Nat.le_refl _),
    Nat.sub_self]
  cases input <;> rfl

theorem Placed.getElem?_previous {state : State} (h : tape.Placed rest state)
    (hsuffix : token :: rest <:+ tape.front) : tape.tokens[state.current - 1]? = some token := by
  have hlength := h.current
  have hle := hsuffix.length_le
  rw [List.length_cons] at hle
  have hbefore : tape.Placed (token :: rest) { state with current := state.current - 1 } := by
    refine ⟨hsuffix, ?_, h.running⟩
    rw [List.length_cons]
    dsimp only
    omega
  exact hbefore.getElem?_current

theorem follows_read {index : State → Nat} (action : Action Token)
    (haction : ∀ tokens state, action tokens state = tokenAt (index state) tokens state)
    (h : ∀ state, tape.Ready input start state → tape.tokens[index state]? = some token) :
    tape.Follows start start input action ⟨[], .done token input⟩ := by
  intro state hready
  refine ⟨(.ok token, state), ?_, .done (List.suffix_refl input) hready (List.append_nil _).symm⟩
  simp only [haction, tokenAt, h state hready]

theorem follows_peek :
    tape.Follows start start input peek ⟨[], .done (input.headD tape.mark) input⟩ :=
  follows_read peek (fun _ _ ↦ rfl) fun _ hready ↦ hready.getElem?_current

theorem follows_previous (h : token :: rest <:+ tape.front) :
    tape.Follows start start rest previous ⟨[], .done token rest⟩ :=
  follows_read previous (fun _ _ ↦ rfl) fun _ hready ↦ hready.getElem?_previous h

theorem kind_ne_eof (h : token :: rest <:+ tape.front) : token.kind ≠ .eof :=
  tape.inner token (h.subset List.mem_cons_self)

/-- An input is a part of the tokens before the mark. -/
theorem Follows.of_suffix {action : Action α} {reading : Reading α}
    (h : input <:+ tape.front → tape.Follows start final input action reading) :
    tape.Follows start final input action reading :=
  fun state hready ↦ h hready.suffix state hready

theorem follows_atEnd :
    tape.Follows start start input atEnd (Rule.done input.isEmpty input) := by
  apply Follows.of_suffix
  intro hinput
  have hend : decide ((input.headD tape.mark).kind = .eof) = input.isEmpty := by
    cases input with
    | nil => exact decide_eq_true tape.mark_kind
    | cons token rest => exact decide_eq_false (kind_ne_eof hinput)
  rw [← hend]
  exact follows_peek.andThen (follows_pure _)

theorem follows_step : tape.Follows start start (token :: rest) step (Rule.done () rest) := by
  intro state hready
  have hrest := List.suffix_cons token rest
  refine ⟨_, rfl, .done hrest ⟨⟨?_, ?_, hready.running⟩, hready.depth⟩ (List.append_nil _).symm⟩
  · exact hrest.trans hready.suffix
  · have hcurrent := hready.current
    rw [List.length_cons] at hcurrent
    dsimp only
    omega

theorem follows_advance :
    tape.Follows start start (token :: rest) advance (Rule.done token rest) := by
  apply Follows.of_suffix
  intro hinput
  exact follows_atEnd.andThen (follows_step.andThen (follows_previous hinput))

/-- At the end the index stays where it is, and the token before it is there to be read. -/
theorem exists_follows_advance :
    ∃ token, tape.Follows start start [] advance (Rule.done token []) := by
  have hindex : tape.front.length - 1 < tape.tokens.length := by
    rw [tokens, List.length_append, List.length_cons]
    omega
  refine ⟨tape.tokens[tape.front.length - 1], ?_⟩
  apply follows_atEnd.andThen
  apply follows_read previous fun _ _ ↦ rfl
  intro state hready
  have hcurrent : state.current = tape.front.length := hready.current
  rw [hcurrent]
  exact List.getElem?_eq_getElem hindex

theorem follows_check (kind : Token.Kind) :
    tape.Follows start start input (check kind)
      (Rule.done (decide (nextKind input = some kind)) input) := by
  apply follows_atEnd.andThen
  cases input with
  | nil => exact follows_pure false
  | cons token rest =>
    have hnext : decide (nextKind (token :: rest) = some kind) = decide (token.kind = kind) := by
      simp
    rw [hnext]
    exact follows_peek.andThen (follows_pure _)

/-- One action or another, by whether the next token is of the kind. -/
theorem Follows.check {kind : Token.Kind} {reading : Reading β} {yes no : Action β}
    (hyes : nextKind input = some kind → tape.Follows start final input yes reading)
    (hno : nextKind input ≠ some kind → tape.Follows start final input no reading) :
    tape.Follows start final input (Action.check kind >>= fun found ↦ if found then yes else no)
      reading := by
  apply (follows_check kind).andThen
  by_cases hkind : nextKind input = some kind
  · rw [decide_eq_true hkind]
    exact hyes hkind
  · rw [decide_eq_false hkind]
    exact hno hkind

theorem follows_accept {kinds : List Token.Kind} (hkind : token.kind ∈ kinds) :
    tape.Follows start start (token :: rest) (accept kinds) (Rule.done true rest) := by
  induction kinds with
  | nil => cases hkind
  | cons kind others ih =>
    refine Follows.check (fun _ ↦ ?_) fun hne ↦ ?_
    · exact follows_advance.andThen (follows_pure true)
    · apply ih
      exact (List.mem_cons.mp hkind).resolve_left fun heq ↦ hne (congrArg some heq)

theorem follows_accept_none {kinds : List Token.Kind}
    (hkind : ∀ kind ∈ kinds, nextKind input ≠ some kind) :
    tape.Follows start start input (accept kinds) (Rule.done false input) := by
  induction kinds with
  | nil => exact follows_pure false
  | cons kind others ih =>
    obtain ⟨hfirst, hothers⟩ := List.forall_mem_cons.mp hkind
    exact Follows.check (fun heq ↦ absurd heq hfirst) fun _ ↦ ih hothers

/-- One action or another, by whether the next token is of the kind, which is taken then. -/
theorem Follows.take {kind : Token.Kind} {reading : Reading β} {second : Bool → Action β}
    (hyes : ∀ token rest, input = token :: rest → token.kind = kind →
      token :: rest <:+ tape.front → tape.Follows start final rest (second true) reading)
    (hno : nextKind input ≠ some kind → tape.Follows start final input (second false) reading) :
    tape.Follows start final input (Action.accept [kind] >>= second) reading := by
  apply Follows.of_suffix
  intro hinput
  by_cases hkind : nextKind input = some kind
  · cases input with
    | nil => cases hkind
    | cons token rest =>
      have htoken : token.kind = kind := Option.some.inj hkind
      exact (follows_accept (List.mem_singleton.mpr htoken)).andThen
        (hyes token rest rfl htoken hinput)
  · exact (follows_accept_none (List.forall_mem_singleton.mpr hkind)).andThen (hno hkind)

/-- The same for a rule that is another one, behind a first token of the kind. -/
theorem Follows.keyword {kind : Token.Kind} {rule : Rule β} {special : Span → Rule β}
    {yes no : Action β}
    (hspecial : ∀ token rest, token.kind = kind → rule (token :: rest) = special token.span rest)
    (hyes : ∀ token rest, token :: rest <:+ tape.front → rest.length < input.length →
      tape.Follows start final rest yes (special token.span rest))
    (hno : nextKind input ≠ some kind → tape.Follows start final input no (rule input)) :
    tape.Follows start final input
      (Action.accept [kind] >>= fun found ↦ if found then yes else no) (rule input) := by
  apply Follows.take _ hno
  rintro token rest rfl hkind hplace
  rw [hspecial token rest hkind]
  exact hyes token rest hplace (Nat.lt_succ_self _)

/-- The same for a rule that goes on with the token, if there is one. -/
theorem Follows.accept {kind : Token.Kind} {next : Option Token → Rule β} {second : Bool → Action β}
    (hyes : ∀ token rest, input = token :: rest → token :: rest <:+ tape.front →
      tape.Follows start final rest (second true) (next (some token) rest))
    (hno : tape.Follows start final input (second false) (next none input)) :
    tape.Follows start final input (Action.accept [kind] >>= second)
      ((Rule.accept kind >>= next) input) := by
  refine Follows.take (fun token rest hinput hkind hplace ↦ ?_) fun hkind ↦ ?_
  · have haccept : (Rule.accept kind).Accepts input (some token) rest :=
      Rule.accepts_accept_some.mpr ⟨hkind, hinput⟩
    rw [haccept.bind_eq]
    exact hyes token rest hinput hplace
  · have haccept : (Rule.accept kind).Accepts input none input :=
      Rule.accepts_accept_none.mpr ⟨hkind, rfl⟩
    rw [haccept.bind_eq]
    exact hno

/-- One action or another, by whether the next token is one of the operators. -/
theorem Follows.operator {γ : Type} {operators : List (Token.Kind × γ)}
    {operator? : Token.Kind → Option γ} {reading : Reading β} {yes no : Action β}
    (hlisted : ∀ kind value, operator? kind = some value ↔ (kind, value) ∈ operators)
    (hyes : ∀ token rest value, input = token :: rest → operator? token.kind = some value →
      token :: rest <:+ tape.front → tape.Follows start final rest yes reading)
    (hno : (∀ token rest, input = token :: rest → operator? token.kind = none) →
      tape.Follows start final input no reading) :
    tape.Follows start final input
      (Action.accept (operators.map Prod.fst) >>= fun found ↦ if found then yes else no)
      reading := by
  have hmem (kind : Token.Kind) :
      kind ∈ operators.map Prod.fst ↔ ∃ value, operator? kind = some value := by
    simp [hlisted]
  apply Follows.of_suffix
  intro hinput
  cases input with
  | nil =>
    have hnone : ∀ kind ∈ operators.map Prod.fst, nextKind [] ≠ some kind := fun _ _ ↦ nofun
    exact (follows_accept_none hnone).andThen (hno nofun)
  | cons token rest =>
    cases hvalue : operator? token.kind with
    | some value =>
      have hkind := (hmem token.kind).mpr ⟨value, hvalue⟩
      exact (follows_accept hkind).andThen (hyes token rest value rfl hvalue hinput)
    | none =>
      refine (follows_accept_none ?_).andThen (hno ?_)
      · rintro kind hkind heq
        obtain rfl := Option.some.inj heq
        obtain ⟨value, hsome⟩ := (hmem token.kind).mp hkind
        cases hvalue.symm.trans hsome
      · rintro other others heq
        obtain ⟨rfl, rfl⟩ := List.cons.inj heq
        exact hvalue

theorem errorAt_headD (h : input <:+ tape.front) (issue : Issue) :
    errorAt (input.headD tape.mark) issue = .atNext tape.mark.span issue input := by
  cases input with
  | nil => exact if_pos tape.mark_kind
  | cons token rest => exact if_neg (kind_ne_eof h)

/-- A fault at the next token. -/
theorem follows_fail (issue : Issue) :
    tape.Follows start final input (fail (errorAt (input.headD tape.mark) issue) : Action α)
      (Rule.fail issue input) := by
  intro state hready
  rw [errorAt_headD hready.suffix]
  exact ⟨_, rfl, .failed (List.suffix_refl input) hready.toPlaced (List.append_nil _).symm⟩

theorem follows_consume (kind : Token.Kind) (issue : Issue) :
    tape.Follows start start input (consume kind issue) (Rule.expect kind issue input) := by
  refine Follows.check (fun hkind ↦ ?_) fun hkind ↦ ?_
  · cases input with
    | nil => cases hkind
    | cons token rest =>
      rw [Rule.expect, if_pos (Option.some.inj hkind)]
      exact follows_advance
  · have hfail : Rule.expect kind issue input = Rule.fail issue input := by
      cases input with
      | nil => rfl
      | cons token rest => exact if_neg fun heq ↦ hkind (congrArg some heq)
    rw [hfail]
    exact follows_peek.andThen (follows_fail issue)

theorem eq_cons_of_expect {kind : Token.Kind} {issue : Issue}
    (h : (Rule.expect kind issue input).outcome = .done token rest) : input = token :: rest := by
  unfold Rule.expect at h
  split at h
  · cases h
  · split at h <;> cases h
    rfl

/-! ## Levels -/

theorem Ready.budget_le {budget : Nat} {state : State} (h : tape.Ready input budget state) :
    budget ≤ nestingLimit := by
  have hdepth := h.depth
  omega

theorem Placed.withDepth {budget depth : Nat} {state : State} (h : tape.Placed input state)
    (hdepth : depth + budget = nestingLimit) :
    tape.Ready input budget { state with depth := depth } :=
  ⟨⟨h.suffix, h.current, h.running⟩, hdepth⟩

theorem follows_level :
    tape.Follows start start input level (Rule.done (nestingLimit - start) input) := by
  intro state hready
  have hdepth : state.depth = nestingLimit - start := by
    have := hready.depth
    omega
  rw [← hdepth]
  exact ⟨_, rfl, .done (List.suffix_refl input) hready (List.append_nil _).symm⟩

theorem follows_restore {budget : Nat} (h : budget ≤ nestingLimit) :
    tape.Follows start budget input (restore (nestingLimit - budget)) (Rule.done () input) := by
  intro state hready
  have hdepth : nestingLimit - budget + budget = nestingLimit := Nat.sub_add_cancel h
  exact ⟨_, rfl, .done (List.suffix_refl input) (hready.withDepth hdepth) (List.append_nil _).symm⟩

theorem follows_deepen {less : Nat} :
    tape.Follows (less + 1) less input deepen (Rule.done () input) := by
  intro state hready
  have hle : less + 1 ≤ nestingLimit := hready.budget_le
  have hdepth : nestingLimit - (less + 1) + 1 = nestingLimit - less := by omega
  refine follows_level.andThen ?_ state hready
  rw [hdepth, if_pos (Nat.sub_le _ _)]
  exact (follows_restore (Nat.le_of_succ_le hle)).andThen (follows_pure ())

/-- Past the limit reading is given up. -/
theorem follows_deepen_zero (final : Nat) :
    tape.Follows 0 final input deepen (Rule.tooDeep input) := by
  intro state hready
  have hdepth : ¬state.depth + 1 ≤ nestingLimit := by
    have := hready.depth
    omega
  have hpeek : tape.tokens[state.current]? = some (input.headD tape.mark) := hready.getElem?_current
  refine ⟨(.error (.atNext tape.mark.span .nestingTooDeep input), { state with
    current := tape.tokens.length - 1, depth := state.depth + 1, aborted := true,
    faults := state.faults ++ [.atNext tape.mark.span .nestingTooDeep input] }), ?_,
    .tooDeep ⟨rfl, rfl⟩ rfl⟩
  rw [← errorAt_headD hready.suffix]
  simp only [deepen, bind, Action.andThen, level, restore, hdepth, if_false, peek, tokenAt, hpeek,
    abort]

/-- Nothing is done behind an action that gave up. -/
theorem Follows.exceeds {first : Action α} {second : α → Action β}
    (h : tape.Follows start middle input first (Rule.tooDeep input)) :
    tape.Follows start final input (first >>= second) (Rule.tooDeep input) := by
  have hbind : tape.Follows start final input (first >>= second)
      ((Rule.tooDeep >>= fun _ ↦ Rule.tooDeep) input) :=
    h.bind_done fun _ _ houtcome ↦ nomatch houtcome
  exact hbind

theorem Follows.levelled {rule : Action α} {reading : Reading α}
    (h : tape.Follows start final input rule reading) :
    tape.Follows start start input (Action.levelled rule) reading := by
  intro state hready
  obtain ⟨⟨result, after⟩, hrun, hends⟩ := h state hready
  refine ⟨(result, { after with depth := state.depth }), by simp only [Action.levelled, hrun], ?_⟩
  cases hends with
  | done suffix ready recorded =>
    exact .done suffix (ready.withDepth hready.depth) recorded
  | failed suffix placed recorded =>
    exact .failed suffix ⟨placed.suffix, placed.current, placed.running⟩ recorded
  | tooDeep aborted recorded => exact .tooDeep ⟨aborted.current, aborted.aborted⟩ recorded

theorem follows_nested {less : Nat} {rule : Action α} {reading : Reading α}
    (h : tape.Follows less less input rule reading) :
    tape.Follows (less + 1) (less + 1) input (nested rule) reading :=
  (follows_deepen.andThen h).levelled

theorem follows_nested_zero (rule : Action α) :
    tape.Follows 0 0 input (nested rule) (Rule.tooDeep input) := by
  have h : tape.Follows 0 0 input (do deepen; rule) (Rule.tooDeep input) :=
    (follows_deepen_zero 0).exceeds
  exact h.levelled

theorem follows_deeper {rule : Grammar.Level → Rule α} {action : Action α}
    (h : ∀ less, tape.Follows less less input action (rule (Grammar.level less) input))
    (budget : Nat) :
    tape.Follows budget budget input (nested action)
      (Grammar.deeper (Grammar.below budget) rule input) := by
  cases budget with
  | zero => exact follows_nested_zero action
  | succ less => exact follows_nested (h less)

theorem Follows.of_budget {action : Action α} {reading : Reading α}
    (h : start ≤ nestingLimit → tape.Follows start final input action reading) :
    tape.Follows start final input action reading :=
  fun state hready ↦ h hready.budget_le state hready

/-! ## Recovering -/

variable (tape) in
/-- As `Ends`, for an action that does not throw. Where the rule is past the limit, the action has
a value that is of no account. -/
inductive Settles {α : Type} (lost : α → Prop) (budget : Nat) (before : List Fault)
    (input : List Token) : Reading α → Except Fault α × State → Prop where
  | done {faults : List Fault} {value : α} {rest : List Token} {state : State}
    (suffix : rest <:+ input) (ready : tape.Ready rest budget state)
    (recorded : state.faults = before ++ faults) :
    Settles lost budget before input ⟨faults, .done value rest⟩ (.ok value, state)
  | tooDeep {faults : List Fault} {value : α} {rest : List Token} {state : State}
    (nothing : lost value) (aborted : tape.Aborted state)
    (recorded : state.faults =
      before ++ (faults ++ [.atNext tape.mark.span .nestingTooDeep rest])) :
    Settles lost budget before input ⟨faults, .tooDeep rest⟩ (.ok value, state)

variable (tape) in
/-- On the input the action does not crash, does not throw, and agrees with the rule. -/
def Recovers {α : Type} (lost : α → Prop) (budget : Nat) (input : List Token) (action : Action α)
    (reading : Reading α) : Prop :=
  ∀ state, tape.Ready input budget state → ∃ result, action tape.tokens state = .ok result ∧
    tape.Settles lost budget state.faults input reading result

theorem Aborted.exists_last {state : State} (h : tape.Aborted state) :
    ∃ last, tape.tokens[state.current]? = some last ∧ last.kind = .eof := by
  refine ⟨(tape.mark :: tape.tail).getLast (List.cons_ne_nil _ _), ?_, tape.last_kind⟩
  rw [h.current, ← List.getLast?_eq_getElem?, tokens, List.getLast?_append,
    List.getLast?_eq_some_getLast (List.cons_ne_nil _ _), Option.some_or]

theorem Aborted.atEnd {state : State} (h : tape.Aborted state) :
    Action.atEnd tape.tokens state = .ok (.ok true, state) := by
  obtain ⟨last, hlast, hkind⟩ := h.exists_last
  have hpeek : peek tape.tokens state = .ok (.ok last, state) := by
    simp only [peek, tokenAt, hlast]
  rw [Action.atEnd, bind_ok hpeek, hkind]
  rfl

theorem Aborted.check {state : State} (h : tape.Aborted state) (kind : Token.Kind) :
    Action.check kind tape.tokens state = .ok (.ok false, state) := by
  rw [Action.check, bind_ok h.atEnd]
  rfl

theorem Aborted.consume {state : State} (h : tape.Aborted state) (kind : Token.Kind)
    (issue : Issue) :
    ∃ fault, Action.consume kind issue tape.tokens state = .ok (.error fault, state) := by
  obtain ⟨last, hlast, hkind⟩ := h.exists_last
  have hpeek : peek tape.tokens state = .ok (.ok last, state) := by
    simp only [peek, tokenAt, hlast]
  refine ⟨errorAt last issue, ?_⟩
  rw [Action.consume, bind_ok (h.check kind)]
  exact bind_ok hpeek

section

variable {budget : Nat} {lost : α → Prop} {gone : β → Prop} {first : Action α}
  {second : α → Action β}

/-- An action that recovers, and one behind it that throws where reading was given up. -/
theorem Recovers.bind {rule : Rule α} {next : α → Rule β}
    (h : tape.Recovers lost budget input first (rule input))
    (hnext : ∀ value rest, rest <:+ input →
      tape.Follows budget budget rest (second value) (next value rest))
    (haborted : ∀ value state, tape.Aborted state →
      ∃ fault, second value tape.tokens state = .ok (.error fault, state)) :
    tape.Follows budget budget input (first >>= second) ((rule >>= next) input) := by
  intro state hready
  obtain ⟨result, hrun, hsettles⟩ := h state hready
  change ∃ result, (first >>= second) tape.tokens state = .ok result ∧
    tape.Ends budget state.faults input (Rule.andThen rule next input) result
  simp only [Rule.andThen]
  generalize rule input = reading at hsettles
  cases hsettles with
  | done suffix ready recorded =>
    obtain ⟨last, hlast, hends⟩ := hnext _ _ suffix _ ready
    rw [recorded] at hends
    exact ⟨last, (bind_ok hrun).trans hlast, hends.behind suffix⟩
  | tooDeep nothing aborted recorded =>
    obtain ⟨fault, hfault⟩ := haborted _ _ aborted
    exact ⟨_, (bind_ok hrun).trans hfault, .tooDeep aborted recorded⟩

/-- An action that takes nothing, and one behind it that recovers. -/
theorem Follows.andRecovers {value : α} {reading : Reading β}
    (h : tape.Follows budget budget input first (Rule.done value input))
    (hnext : tape.Recovers gone budget input (second value) reading) :
    tape.Recovers gone budget input (first >>= second) reading := by
  intro state hready
  obtain ⟨result, hrun, hends⟩ := h state hready
  cases hends with
  | done suffix ready recorded =>
    obtain ⟨last, hlast, hsettles⟩ := hnext _ ready
    rw [recorded, List.append_nil] at hsettles
    exact ⟨last, (bind_ok hrun).trans hlast, hsettles⟩

theorem recovers_pure (budget : Nat) (value : α) :
    tape.Recovers lost budget input (pure value) (Rule.done value input) :=
  fun _ hready ↦ ⟨_, rfl, .done (List.suffix_refl input) hready (List.append_nil _).symm⟩

theorem Settles.behind {before faults : List Fault} {reading : Reading α}
    {result : Except Fault α × State}
    (h : tape.Settles lost budget (before ++ faults) rest reading result) (hrest : rest <:+ input) :
    tape.Settles lost budget before input ⟨faults ++ reading.faults, reading.outcome⟩ result := by
  cases h with
  | done suffix ready recorded =>
    exact .done (suffix.trans hrest) ready (by rw [recorded, List.append_assoc])
  | tooDeep nothing aborted recorded =>
    exact .tooDeep nothing aborted (by rw [recorded, List.append_assoc, List.append_assoc])

/-- Two actions that recover. -/
theorem Recovers.andThen {rule : Rule α} {next : α → Rule β}
    (h : tape.Recovers lost budget input first (rule input))
    (hnext : ∀ value faults rest, rule input = ⟨faults, .done value rest⟩ →
      tape.Recovers gone budget rest (second value) (next value rest))
    (haborted : ∀ value state, lost value → tape.Aborted state →
      ∃ last, gone last ∧ second value tape.tokens state = .ok (.ok last, state)) :
    tape.Recovers gone budget input (first >>= second) ((rule >>= next) input) := by
  intro state hready
  obtain ⟨result, hrun, hsettles⟩ := h state hready
  change ∃ result, (first >>= second) tape.tokens state = .ok result ∧
    tape.Settles gone budget state.faults input (Rule.andThen rule next input) result
  simp only [Rule.andThen]
  generalize hreading : rule input = reading at hsettles
  cases hsettles with
  | done suffix ready recorded =>
    obtain ⟨last, hlast, hlastSettles⟩ := hnext _ _ _ hreading _ ready
    rw [recorded] at hlastSettles
    exact ⟨last, (bind_ok hrun).trans hlast, hlastSettles.behind suffix⟩
  | tooDeep nothing aborted recorded =>
    obtain ⟨last, hgone, hlast⟩ := haborted _ _ nothing aborted
    exact ⟨_, (bind_ok hrun).trans hlast, .tooDeep hgone aborted recorded⟩

end

end Tape

end LoxLang.Indexed
