import LoxLang.Proofs.Grammar.Robustness

/-!
# How the index moves

What a reader by index does is put together from a few steps: it looks at the token at the index
and at the one before, takes a token, records a fault, counts levels, or gives up and goes to the
last token. In a list that ends with a mark no such step leads back. A token that is taken is not
the mark, so there is a token behind it, and no index in the list is behind that of the last token.
So none of the actions that a program is read with ends before the place where it began, whether
it ends with a value or throws a fault.
-/

namespace LoxLang.Indexed

open Indexed.Action

/-- The actions that are put together from the steps of a reader. -/
inductive Action.Stepwise : {α : Type} → Action α → Prop where
  | pure {α : Type} (value : α) : Stepwise (pure value : Action α)
  | fail {α : Type} (fault : Fault) : Stepwise (Action.fail fault : Action α)
  | crash {α : Type} (reason : Crash) : Stepwise (Action.crash reason : Action α)
  | peek : Stepwise Action.peek
  | previous : Stepwise Action.previous
  | advance : Stepwise Action.advance
  | record (fault : Fault) : Stepwise (Action.record fault)
  | level : Stepwise Action.level
  | restore (depth : Nat) : Stepwise (Action.restore depth)
  | abort {α : Type} (fault : Fault) : Stepwise (Action.abort fault : Action α)
  | bind {α β : Type} {first : Action α} {second : α → Action β} (hfirst : Stepwise first)
    (hsecond : ∀ value, Stepwise (second value)) : Stepwise (first >>= second)
  | levelled {α : Type} {rule : Action α} (hrule : Stepwise rule) : Stepwise (levelled rule)
  | catching {α : Type} {rule : Action α} {recover : Action Unit} (hrule : Stepwise rule)
    (hrecover : Stepwise recover) : Stepwise (catching rule recover)
  | moving {α : Type} {rule : Action α} (hrule : Stepwise rule) : Stepwise (moving rule)

/-! ## No step leads back -/

/-- The list ends with a mark. -/
def Marked (tokens : List Token) : Prop := tokens.getLast?.any (·.kind = .eof)

theorem marked_load (tokens : List Token) : Marked (load tokens) := by
  unfold load Marked
  cases hlast : tokens.getLast? with
  | none => rfl
  | some last =>
    dsimp only
    split
    · next hkind =>
      rw [hlast]
      exact decide_eq_true hkind
    · rw [List.getLast?_concat]
      rfl

/-- A token that is not a mark has another behind it. -/
theorem Marked.succ_lt_length {tokens : List Token} {index : Nat} {token : Token}
    (h : Marked tokens) (htoken : tokens[index]? = some token) (hkind : token.kind ≠ .eof) :
    index + 1 < tokens.length := by
  obtain ⟨hindex, -⟩ := List.getElem?_eq_some_iff.mp htoken
  by_contra hlast
  obtain rfl : index = tokens.length - 1 := by omega
  rw [Marked, List.getLast?_eq_getElem?, htoken] at h
  exact hkind (of_decide_eq_true h)

/-- The index is in the list, and not before where it was. -/
structure State.Ahead (tokens : List Token) (state after : State) : Prop where
  le : state.current ≤ after.current
  inside : after.current < tokens.length

theorem State.Ahead.trans {tokens : List Token} {state middle after : State}
    (h : state.Ahead tokens middle) (hnext : middle.Ahead tokens after) :
    state.Ahead tokens after :=
  ⟨Nat.le_trans h.le hnext.le, hnext.inside⟩

namespace Action

variable {α β : Type} {tokens : List Token}

/-- However the action ends, the index is not before the place where it began. -/
def Advances (tokens : List Token) (action : Action α) : Prop :=
  ∀ ⦃state result after⦄, state.current < tokens.length →
    action tokens state = .ok (result, after) → state.Ahead tokens after

/-- An action after which the index is where it was. -/
theorem advances_of_current_eq {action : Action α}
    (h : ∀ state result after, action tokens state = .ok (result, after) →
      after.current = state.current) : action.Advances tokens := by
  intro state result after hstate hrun
  have hcurrent := h state result after hrun
  exact ⟨Nat.le_of_eq hcurrent.symm, hcurrent ▸ hstate⟩

theorem advances_tokenAt (index : State → Nat) :
    Advances tokens (fun tokens state ↦ tokenAt (index state) tokens state) := by
  apply advances_of_current_eq
  intro state result after hrun
  simp only [tokenAt] at hrun
  split at hrun <;> cases hrun
  rfl

theorem advances_advance (htokens : Marked tokens) : advance.Advances tokens := by
  intro state result after hstate hrun
  have hprevious : previous.Advances tokens := advances_tokenAt fun state ↦ state.current - 1
  obtain ⟨token, htoken⟩ : ∃ token, tokens[state.current]? = some token :=
    ⟨_, List.getElem?_eq_getElem hstate⟩
  have hatEnd : atEnd tokens state = .ok (.ok (decide (token.kind = .eof)), state) := by
    simp only [atEnd, peek, tokenAt, bind, andThen, htoken]
    rfl
  rw [advance, Tape.bind_ok hatEnd] at hrun
  split at hrun
  · exact hprevious hstate hrun
  · next hkind =>
    have hstep : step tokens state =
        .ok (.ok (), { state with current := state.current + 1 }) := rfl
    rw [Tape.bind_ok hstep] at hrun
    have hbehind := htokens.succ_lt_length htoken fun heof ↦ hkind (decide_eq_true heof)
    exact State.Ahead.trans ⟨Nat.le_succ _, hbehind⟩ (hprevious hbehind hrun)

theorem advances_abort (fault : Fault) : (abort fault : Action α).Advances tokens := by
  intro state result after hstate hrun
  cases hrun
  exact ⟨Nat.le_sub_one_of_lt hstate, Nat.sub_one_lt_of_lt hstate⟩

theorem Advances.bind {first : Action α} {second : α → Action β} (h : first.Advances tokens)
    (hnext : ∀ value, (second value).Advances tokens) : (first >>= second).Advances tokens := by
  intro state result after hstate hrun
  change andThen first second tokens state = .ok (result, after) at hrun
  unfold andThen at hrun
  split at hrun
  · next hfirst =>
    have hmiddle := h hstate hfirst
    exact hmiddle.trans (hnext _ hmiddle.inside hrun)
  · next hfirst =>
    cases hrun
    exact h hstate hfirst
  · cases hrun

theorem Advances.levelled {rule : Action α} (h : rule.Advances tokens) :
    (levelled rule).Advances tokens := by
  intro state result after hstate hrun
  unfold Action.levelled at hrun
  split at hrun
  · next hrule =>
    cases hrun
    obtain ⟨hle, hinside⟩ := h hstate hrule
    exact ⟨hle, hinside⟩
  · cases hrun

theorem advances_record (fault : Fault) : (record fault).Advances tokens := by
  apply advances_of_current_eq
  intro state result after hrun
  cases hrun
  rfl

theorem advances_pure (value : α) : (pure value : Action α).Advances tokens := by
  apply advances_of_current_eq
  intro state result after hrun
  cases hrun
  rfl

theorem Advances.catching {rule : Action α} {recover : Action Unit} (h : rule.Advances tokens)
    (hrecover : recover.Advances tokens) : (catching rule recover).Advances tokens := by
  have hrecovered (fault : Fault) : (do
      record fault
      recover
      return none : Action (Option α)).Advances tokens :=
    (advances_record fault).bind fun _ ↦ hrecover.bind fun _ ↦ advances_pure none
  intro state result after hstate hrun
  unfold Action.catching at hrun
  split at hrun
  · next hrule =>
    cases hrun
    exact h hstate hrule
  · next fault middle hrule =>
    have hmiddle := h hstate hrule
    split at hrun
    · cases hrun
      exact hmiddle
    · exact hmiddle.trans (hrecovered fault hmiddle.inside hrun)
  · cases hrun

theorem Advances.moving {rule : Action α} (h : rule.Advances tokens) :
    (moving rule).Advances tokens := by
  intro state result after hstate hrun
  unfold Action.moving at hrun
  split at hrun
  · next hrule =>
    split at hrun
    · cases hrun
    · cases hrun
      exact h hstate hrule
  · cases hrun

theorem Stepwise.advances {action : Action α} (h : action.Stepwise) (htokens : Marked tokens) :
    action.Advances tokens := by
  induction h with
  | pure value => exact advances_pure value
  | fail fault | level | restore depth =>
    apply advances_of_current_eq
    intro state result after hrun
    cases hrun
    rfl
  | crash reason => exact fun _ _ _ _ hrun ↦ nomatch hrun
  | peek => exact advances_tokenAt State.current
  | previous => exact advances_tokenAt fun state ↦ state.current - 1
  | advance => exact advances_advance htokens
  | record fault => exact advances_record fault
  | abort fault => exact advances_abort fault
  | bind _ _ hfirst hsecond => exact hfirst.bind hsecond
  | levelled _ hrule => exact hrule.levelled
  | catching _ _ hrule hrecover => exact hrule.catching hrecover
  | moving _ hrule => exact hrule.moving

/-! ## Actions -/

namespace Stepwise

theorem map {f : α → β} {action : Action α} (h : action.Stepwise) : (f <$> action).Stepwise :=
  h.bind fun value ↦ .pure (f value)

theorem atEnd : Action.atEnd.Stepwise := Stepwise.peek.bind fun _ ↦ .pure _

theorem check (kind : Token.Kind) : (Action.check kind).Stepwise := by
  apply atEnd.bind
  intro ended
  split
  · exact .pure false
  · exact peek.bind fun _ ↦ .pure _

theorem accept (kinds : List Token.Kind) : (Action.accept kinds).Stepwise := by
  induction kinds with
  | nil => exact .pure false
  | cons kind others ih =>
    apply (check kind).bind
    intro found
    split
    · exact advance.bind fun _ ↦ .pure true
    · exact ih

theorem consume (kind : Token.Kind) (issue : Issue) : (Action.consume kind issue).Stepwise := by
  apply (check kind).bind
  intro found
  split
  · exact advance
  · exact peek.bind fun _ ↦ .fail _

theorem deepen : Action.deepen.Stepwise := by
  apply level.bind
  intro depth
  apply (restore (depth + 1)).bind
  intro _
  split
  · exact .pure ()
  · exact peek.bind fun _ ↦ .abort _

theorem nested {rule : Action α} (h : rule.Stepwise) : (Action.nested rule).Stepwise :=
  (deepen.bind fun _ ↦ h).levelled

end Stepwise

end Action

/-! ## Expressions -/

structure Calls.Stepwise (calls : Calls) : Prop where
  expression : calls.expression.Stepwise
  assignment : calls.assignment.Stepwise
  unary : calls.unary.Stepwise
  operand (tiers : List Tier) : (calls.operand tiers).Stepwise
  chain (depth : Nat) (tier : Tier) (tighter : List Tier) (left : Expr) :
    (calls.chain depth tier tighter left).Stepwise
  statement : calls.statement.Stepwise
  items : calls.items.Stepwise
  skip : calls.skip.Stepwise

section

variable {calls : Calls} (hcalls : calls.Stepwise)

theorem stepwise_taking (expr : Expr) : (taking expr).Stepwise :=
  Stepwise.advance.bind fun _ ↦ .pure expr

include hcalls

theorem stepwise_group (opening : Span) : (group calls opening).Stepwise := by
  apply (Stepwise.check .rightParen).bind
  intro closed
  split
  · exact Stepwise.peek.bind fun _ ↦ .fail _
  · apply hcalls.expression.bind
    intro inner
    apply (Stepwise.consume _ _).bind
    intro closing
    exact .pure _

theorem stepwise_primary : (primary calls).Stepwise := by
  apply Stepwise.peek.bind
  intro token
  split
  · exact stepwise_taking _
  · exact stepwise_taking _
  · exact stepwise_taking _
  · exact stepwise_taking _
  · exact .fail _
  · exact stepwise_taking _
  · exact .fail _
  · exact stepwise_taking _
  · exact Stepwise.advance.bind fun _ ↦ stepwise_group hcalls token.span
  · exact .fail _

theorem stepwise_unary : (unary calls).Stepwise := by
  apply (Stepwise.accept _).bind
  intro found
  split
  · apply Stepwise.previous.bind
    intro operator
    split
    · exact .crash _
    · exact hcalls.unary.nested.bind fun _ ↦ .pure _
  · exact stepwise_primary hcalls

theorem stepwise_chain (depth : Nat) (tier : Tier) (tighter : List Tier) (left : Expr) :
    (chain calls depth tier tighter left).Stepwise := by
  apply (Stepwise.accept _).bind
  intro found
  split
  · apply Stepwise.deepen.bind
    intro _
    apply Stepwise.previous.bind
    intro operator
    split
    · exact .crash _
    · exact (hcalls.operand tighter).bind fun _ ↦ hcalls.chain depth tier tighter _
  · exact (Stepwise.restore depth).bind fun _ ↦ .pure left

theorem stepwise_operand (tiers : List Tier) : (operand calls tiers).Stepwise := by
  induction tiers with
  | nil => exact stepwise_unary hcalls
  | cons tier tighter ih =>
    exact Stepwise.level.bind fun depth ↦ ih.bind fun left ↦
      stepwise_chain hcalls depth tier tighter left

theorem stepwise_assignment : (assignment calls).Stepwise := by
  apply (stepwise_operand hcalls Tier.all).bind
  intro target
  apply (Stepwise.accept _).bind
  intro found
  split
  · apply Stepwise.previous.bind
    intro equals
    apply hcalls.assignment.nested.bind
    intro value
    split
    · exact .pure _
    · exact (Stepwise.record _).bind fun _ ↦ .pure target
  · exact .pure target

theorem stepwise_expression : (expression calls).Stepwise := (stepwise_assignment hcalls).nested

/-! ## Statements -/

theorem stepwise_varDeclaration : (varDeclaration calls).Stepwise := by
  apply Stepwise.previous.bind
  intro opening
  apply (Stepwise.consume _ _).bind
  intro name
  apply (Stepwise.accept _).bind
  intro found
  have hclosed (initial : Option Expr) :
      (consume .semicolon .noSemicolonAfterDeclaration >>= fun closing ↦
        pure (Stmt.declare name.lexeme initial (opening.span.cover closing.span))).Stepwise :=
    (Stepwise.consume _ _).bind fun _ ↦ .pure _
  split
  · exact (stepwise_expression hcalls).map.bind hclosed
  · exact hclosed none

theorem stepwise_expressionStatement (mode : Grammar.Mode) :
    (expressionStatement calls mode).Stepwise := by
  apply Stepwise.peek.bind
  intro opening
  apply (stepwise_expression hcalls).bind
  intro expr
  apply Stepwise.atEnd.bind
  intro ended
  split
  · exact Stepwise.previous.bind fun _ ↦ .pure _
  · exact (Stepwise.consume _ _).bind fun _ ↦ .pure _

theorem stepwise_print : (print calls).Stepwise := by
  apply Stepwise.previous.bind
  intro opening
  apply (stepwise_expression hcalls).bind
  intro expr
  exact (Stepwise.consume _ _).bind fun _ ↦ .pure _

theorem stepwise_branch : (branch calls).Stepwise := by
  apply Stepwise.previous.bind
  intro opening
  apply (Stepwise.consume _ _).bind
  intro _
  apply (stepwise_expression hcalls).bind
  intro condition
  apply (Stepwise.consume _ _).bind
  intro _
  apply hcalls.statement.bind
  intro thenBranch
  apply (Stepwise.accept _).bind
  intro found
  split
  · exact hcalls.statement.bind fun _ ↦ .pure _
  · exact .pure _

theorem stepwise_loop : (loop calls).Stepwise := by
  apply Stepwise.previous.bind
  intro opening
  apply (Stepwise.consume _ _).bind
  intro _
  apply (stepwise_expression hcalls).bind
  intro condition
  apply (Stepwise.consume _ _).bind
  intro _
  exact hcalls.statement.bind fun _ ↦ .pure _

theorem stepwise_forInitial (mode : Grammar.Mode) : (forInitial calls mode).Stepwise := by
  apply (Stepwise.accept _).bind
  intro closed
  split
  · exact .pure none
  · apply (Stepwise.accept _).bind
    intro found
    split
    · exact (stepwise_varDeclaration hcalls).map
    · exact (stepwise_expressionStatement hcalls mode).map

theorem stepwise_expressionUnless (stop : Token.Kind) : (expressionUnless calls stop).Stepwise := by
  apply (Stepwise.check stop).bind
  intro found
  split
  · exact .pure none
  · exact (stepwise_expression hcalls).map

theorem stepwise_forClauses (mode : Grammar.Mode) : (forClauses calls mode).Stepwise := by
  apply (Stepwise.consume _ _).bind
  intro _
  apply (stepwise_forInitial hcalls mode).bind
  intro initial
  apply (stepwise_expressionUnless hcalls _).bind
  intro condition
  apply (Stepwise.consume _ _).bind
  intro separator
  apply (stepwise_expressionUnless hcalls _).bind
  intro increment
  exact (Stepwise.consume _ _).bind fun _ ↦ .pure _

theorem stepwise_forLoop (mode : Grammar.Mode) : (forLoop calls mode).Stepwise := by
  apply Stepwise.previous.bind
  intro opening
  apply (stepwise_forClauses hcalls mode).bind
  intro clauses
  exact hcalls.statement.bind fun _ ↦ .pure _

theorem stepwise_block : (block calls).Stepwise := by
  apply Stepwise.previous.bind
  intro opening
  apply hcalls.items.bind
  intro body
  apply (Stepwise.consume _ _).bind
  intro _
  exact Stepwise.previous.bind fun _ ↦ .pure _

theorem stepwise_body (mode : Grammar.Mode) : (body calls mode).Stepwise := by
  have hkeyword (kind : Token.Kind) {special other : Action Stmt} (hspecial : special.Stepwise)
      (hother : other.Stepwise) : (do if ← accept [kind] then special else other).Stepwise := by
    apply (Stepwise.accept [kind]).bind
    intro found
    split
    · exact hspecial
    · exact hother
  exact hkeyword .kwPrint (stepwise_print hcalls) <| hkeyword .leftBrace (stepwise_block hcalls) <|
    hkeyword .kwIf (stepwise_branch hcalls) <| hkeyword .kwWhile (stepwise_loop hcalls) <|
    hkeyword .kwFor (stepwise_forLoop hcalls mode) <| stepwise_expressionStatement hcalls mode

theorem stepwise_statement (mode : Grammar.Mode) : (statement calls mode).Stepwise :=
  (stepwise_body hcalls mode).nested

theorem stepwise_skip : (skip calls).Stepwise := by
  apply Stepwise.atEnd.bind
  intro ended
  split
  · exact .pure ()
  · apply Stepwise.previous.bind
    intro before
    split
    · exact .pure ()
    · apply Stepwise.peek.bind
      intro next
      split
      · exact .pure ()
      · exact Stepwise.advance.bind fun _ ↦ hcalls.skip

theorem stepwise_synchronize : (synchronize calls).Stepwise :=
  Stepwise.advance.bind fun _ ↦ stepwise_skip hcalls

theorem stepwise_declarationOrStatement (mode : Grammar.Mode) :
    (declarationOrStatement calls mode).Stepwise := by
  apply (Stepwise.accept _).bind
  intro found
  split
  · exact stepwise_varDeclaration hcalls
  · exact stepwise_statement hcalls mode

theorem stepwise_declaration (mode : Grammar.Mode) : (declaration calls mode).Stepwise := by
  have hrule := (stepwise_declarationOrStatement hcalls mode).levelled
  exact (hrule.catching (stepwise_synchronize hcalls)).moving

theorem stepwise_items (mode : Grammar.Mode) : (items calls mode).Stepwise := by
  apply (Stepwise.check _).bind
  intro closed
  split
  · exact .pure []
  · apply Stepwise.atEnd.bind
    intro ended
    split
    · exact .pure []
    · apply (stepwise_declaration hcalls mode).bind
      intro first
      exact hcalls.items.bind fun _ ↦ .pure _

end

/-! ## Programs -/

theorem stepwise_callsWithin (mode : Grammar.Mode) (bound : Nat) :
    (callsWithin mode bound).Stepwise := by
  induction bound with
  | zero =>
    constructor
    all_goals
      intros
      exact .crash .endless
  | succ bound ih =>
    constructor
    case expression => exact stepwise_expression ih
    case assignment => exact stepwise_assignment ih
    case unary => exact stepwise_unary ih
    case operand => exact stepwise_operand ih
    case chain => exact stepwise_chain ih
    case statement => exact stepwise_statement ih mode
    case items => exact stepwise_items ih mode
    case skip => exact stepwise_skip ih

theorem stepwise_declarations (mode : Grammar.Mode) (bound : Nat) :
    (declarations mode bound).Stepwise := by
  induction bound with
  | zero => exact .crash .endless
  | succ bound ih =>
    apply Stepwise.atEnd.bind
    intro ended
    split
    · exact .pure []
    · apply (stepwise_declaration (stepwise_callsWithin mode bound) mode).bind
      intro first
      exact ih.bind fun _ ↦ .pure _

end LoxLang.Indexed
