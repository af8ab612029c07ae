import LoxLang.Proofs.Grammar.Location

/-!
# What a rule takes and what it raises

A rule leaves a part of its input behind, and one that gives a value has taken tokens for it. It
raises issues of the grammar alone, and that a literal is wrong only where the input holds a token
whose literal does not fit its kind. Both are known of a composite rule by its parts.

So every declaration that is tried takes a token, whether it is read or given up.
-/

namespace LoxLang

/-- Numbers and strings carry a literal of their own type. -/
def Token.Fits (token : Token) : Prop :=
  match token.kind, token.literal with
  | .number, some (.number _) => True
  | .number, _ => False
  | .string, some (.string _) => True
  | .string, _ => False
  | _, _ => True

namespace Issue

/-- The issues that are raised for want of a literal. -/
def isMisfit : Issue → Bool
  | badNumberLiteral | badStringLiteral => true
  | _ => false

/-- The issues of the grammar. -/
def isGrammatical : Issue → Bool
  | other .. => false
  | issue => issue.stage = .parsing

/-- The issue is one that the grammar can raise for the tokens. -/
structure Arises (tokens : List Token) (issue : Issue) : Prop where
  grammatical : issue.isGrammatical
  misfit : issue.isMisfit → ∃ token ∈ tokens, ¬token.Fits

/-- Issues that do not depend on literals. -/
def isStructural (issue : Issue) : Bool := issue.isGrammatical && !issue.isMisfit

theorem arises_of_isStructural {tokens : List Token} {issue : Issue} (h : issue.isStructural) :
    issue.Arises tokens := by
  obtain ⟨hgrammatical, hfits⟩ := Bool.and_eq_true_iff.mp h
  refine ⟨hgrammatical, fun hmisfit ↦ ?_⟩
  rw [hmisfit] at hfits
  cases hfits

theorem Arises.mono {input rest : List Token} {issue : Issue} (h : issue.Arises rest)
    (hrest : rest ⊆ input) : issue.Arises input := by
  refine ⟨h.grammatical, fun hmisfit ↦ ?_⟩
  obtain ⟨token, htoken, hfits⟩ := h.misfit hmisfit
  exact ⟨token, hrest htoken, hfits⟩

/-- The issue is one that a rule raises for the tokens. Going past the nesting limit is not: it ends
a rule in a way of its own. -/
structure Raised (tokens : List Token) (issue : Issue) : Prop extends Arises tokens issue where
  shallow : issue ≠ .nestingTooDeep

/-- The issues that a rule raises at a token whatever its literal. -/
def isViolation : Issue → Bool
  | nestingTooDeep => false
  | issue => issue.isStructural

theorem raised_of_isViolation {tokens : List Token} {issue : Issue} (h : issue.isViolation) :
    issue.Raised tokens := by
  unfold isViolation at h
  split at h
  · cases h
  · next hshallow => exact ⟨arises_of_isStructural h, hshallow⟩

theorem Raised.mono {input rest : List Token} {issue : Issue} (h : issue.Raised rest)
    (hrest : rest ⊆ input) : issue.Raised input :=
  ⟨h.toArises.mono hrest, h.shallow⟩

end Issue

@[simp]
theorem Fault.issue_atNext (eof : Span) (issue : Issue) (left : List Token) :
    (atNext eof issue left).issue = issue := by
  cases left <;> rfl

@[simp]
theorem Fault.message_atNext (eof : Span) (issue : Issue) (left : List Token) :
    (atNext eof issue left).message = issue.message :=
  congrArg Issue.message (issue_atNext eof issue left)

/-! ## Rules -/

/-- How a rule may end that takes at least the given number of tokens for a value. -/
def Outcome.Behind {α : Type} (input : List Token) (least : Nat) : Outcome α → Prop
  | .done _ rest => rest <:+ input ∧ rest.length + least ≤ input.length
  | .failed issue rest => rest <:+ input ∧ issue.Raised input
  | .tooDeep rest => rest <:+ input

theorem Outcome.Behind.of_suffix {α : Type} {input rest : List Token} {taken least : Nat}
    {outcome : Outcome α} (h : outcome.Behind rest least) (hrest : rest <:+ input)
    (htaken : rest.length + taken ≤ input.length) : outcome.Behind input (taken + least) := by
  cases outcome with
  | done value left => exact ⟨h.1.trans hrest, by have := h.2; omega⟩
  | failed issue left => exact ⟨h.1.trans hrest, h.2.mono hrest.subset⟩
  | tooDeep left => exact List.IsSuffix.trans h hrest

theorem Outcome.Behind.mono {α : Type} {input : List Token} {most least : Nat} {outcome : Outcome α}
    (h : outcome.Behind input most) (hle : least ≤ most) : outcome.Behind input least := by
  cases outcome with
  | done value rest => exact ⟨h.1, Nat.le_trans (Nat.add_le_add_left hle _) h.2⟩
  | failed issue rest => exact h
  | tooDeep rest => exact h

namespace Rule

variable {α β : Type}

/-- On the input the rule takes at least the given number of tokens for a value, and raises what
arises from the input. -/
structure ConsumesOn (rule : Rule α) (least : Nat) (input : List Token) : Prop where
  faults : ∀ fault ∈ (rule input).faults, fault.issue.Raised input
  outcome : (rule input).outcome.Behind input least

def Consumes (rule : Rule α) (least : Nat) : Prop := ∀ input, rule.ConsumesOn least input

namespace ConsumesOn

variable {rule other : Rule α} {taken least : Nat} {input rest : List Token}

theorem of_done {value : α} (h : rule input = ⟨[], .done value rest⟩) (hrest : rest <:+ input)
    (htaken : rest.length + least ≤ input.length) : rule.ConsumesOn least input := by
  constructor <;> rw [h]
  · exact List.forall_mem_nil _
  · exact ⟨hrest, htaken⟩

theorem of_fail {issue : Issue} (h : rule input = fail issue input) (hissue : issue.Raised input) :
    rule.ConsumesOn least input := by
  constructor <;> rw [h]
  · exact List.forall_mem_nil _
  · exact ⟨List.suffix_refl input, hissue⟩

theorem of_eq (h : other.ConsumesOn least input) (heq : rule input = other input) :
    rule.ConsumesOn least input where
  faults := heq ▸ h.faults
  outcome := heq ▸ h.outcome

/-- A rule that goes on with another behind its first token. -/
theorem of_tail {token : Token} (h : other.ConsumesOn least rest)
    (heq : rule (token :: rest) = other rest) : rule.ConsumesOn (1 + least) (token :: rest) where
  faults := fun fault hfault ↦
    (h.faults fault (heq ▸ hfault)).mono (List.suffix_cons token rest).subset
  outcome := heq ▸ h.outcome.of_suffix (List.suffix_cons token rest) (Nat.le_refl _)

end ConsumesOn

namespace Consumes

variable {rule : Rule α} {next : α → Rule β}

theorem mono {most least : Nat} (h : rule.Consumes most) (hle : least ≤ most) :
    rule.Consumes least :=
  fun input ↦ ⟨(h input).faults, (h input).outcome.mono hle⟩

theorem bind_add {first second : Nat} (h : rule.Consumes first)
    (hnext : ∀ value, (next value).Consumes second) :
    (rule >>= next).Consumes (first + second) := by
  intro input
  have hbind : (rule >>= next) input = andThen rule next input := rfl
  obtain ⟨hfaults, houtcome⟩ := h input
  unfold andThen at hbind
  cases hreading : rule input with
  | mk faults outcome =>
    rw [hreading] at hbind hfaults houtcome
    cases outcome with
    | done value rest =>
      obtain ⟨hrest, htaken⟩ := houtcome
      obtain ⟨hnextFaults, hnextOutcome⟩ := hnext value rest
      constructor <;> rw [hbind]
      · apply List.forall_mem_append.mpr ⟨hfaults, ?_⟩
        intro fault hfault
        exact (hnextFaults fault hfault).mono hrest.subset
      · exact hnextOutcome.of_suffix hrest htaken
    | failed issue rest => constructor <;> rw [hbind] <;> assumption
    | tooDeep rest => constructor <;> rw [hbind] <;> assumption

/-- The tokens that the second rule takes. -/
theorem bind {first least : Nat} (h : rule.Consumes first)
    (hnext : ∀ value, (next value).Consumes least) : (rule >>= next).Consumes least :=
  (h.bind_add hnext).mono (Nat.le_add_left least first)

/-- The tokens that the first rule takes. -/
theorem bind_first {least : Nat} (h : rule.Consumes least)
    (hnext : ∀ value, (next value).Consumes 0) : (rule >>= next).Consumes least :=
  h.bind_add hnext

end Consumes

theorem consumes_pure (value : α) : (pure value : Rule α).Consumes 0 :=
  fun input ↦ .of_done rfl (List.suffix_refl input) (Nat.le_refl _)

theorem Consumes.map {f : α → β} {rule : Rule α} {least : Nat} (h : rule.Consumes least) :
    (f <$> rule).Consumes least :=
  h.bind_first fun value ↦ consumes_pure (f value)

theorem consumes_fail {issue : Issue} {least : Nat} (h : issue.isViolation) :
    (fail issue : Rule α).Consumes least :=
  fun _ ↦ .of_fail rfl (Issue.raised_of_isViolation h)

theorem consumes_tooDeep {least : Nat} : (tooDeep : Rule α).Consumes least :=
  fun input ↦ ⟨List.forall_mem_nil _, List.suffix_refl input⟩

theorem consumes_note {fault : Fault} (h : fault.issue.isViolation) : (note fault).Consumes 0 :=
  fun input ↦ ⟨List.forall_mem_singleton.mpr (Issue.raised_of_isViolation h),
    List.suffix_refl input, Nat.le_refl _⟩

theorem consumes_remaining : remaining.Consumes 0 :=
  fun input ↦ .of_done rfl (List.suffix_refl input) (Nat.le_refl _)

theorem consumes_peek : peek.Consumes 0 :=
  fun input ↦ .of_done rfl (List.suffix_refl input) (Nat.le_refl _)

theorem consumes_accept (wanted : Token.Kind) : (accept wanted).Consumes 0 := by
  intro input
  cases input with
  | nil => exact .of_done rfl (List.suffix_refl []) (Nat.le_refl _)
  | cons token rest =>
    by_cases hkind : token.kind = wanted
    · exact .of_done (if_pos hkind) (List.suffix_cons token rest) (Nat.le_succ _)
    · exact .of_done (if_neg hkind) (List.suffix_refl _) (Nat.le_refl _)

theorem consumes_expect {wanted : Token.Kind} {issue : Issue} (h : issue.isViolation) :
    (expect wanted issue).Consumes 1 := by
  intro input
  cases input with
  | nil => exact .of_fail rfl (Issue.raised_of_isViolation h)
  | cons token rest =>
    by_cases hkind : token.kind = wanted
    · exact .of_done (if_pos hkind) (List.suffix_cons token rest) (Nat.le_refl _)
    · exact .of_fail (if_neg hkind) (Issue.raised_of_isViolation h)

end Rule

/-! ## Expressions -/

namespace Grammar

open Rule

/-- Every rule of the level takes a token, but for a chain, whose first operand was read before. -/
structure Level.Consumes (level : Level) : Prop where
  assignment : level.assignment.Consumes 1
  unary : level.unary.Consumes 1
  operand (tiers : List Tier) : (level.operand tiers).Consumes 1
  chain (tier : Tier) (tighter : List Tier) (left : Expr) :
    (level.chain tier tighter left).Consumes 0

/-- The level below, if there is one, does. -/
def ConsumesBelow (below : Option Level) : Prop := ∀ level, below = some level → level.Consumes

theorem consumes_deeper {α : Type} {below : Option Level} {rule : Level → Rule α} {least : Nat}
    (hbelow : ConsumesBelow below)
    (h : ∀ level : Level, level.Consumes → (rule level).Consumes least) :
    (deeper below rule).Consumes least := by
  cases below with
  | none => exact consumes_tooDeep
  | some level => exact h level (hbelow level rfl)

/-- A primary is a leaf at its token, a violation that arises from the token, or a grouping. -/
theorem primary_arises (below : Option Level) (token : Token) (rest : List Token) :
    (∃ expr, primary below (token :: rest) = Rule.done expr rest) ∨
    (∃ issue : Issue, issue.Raised (token :: rest) ∧
      primary below (token :: rest) = fail issue (token :: rest)) ∨
    primary below (token :: rest) = group below token.span rest := by
  have hmisfit {issue : Issue} (hissue : issue.isGrammatical) (hshallow : issue ≠ .nestingTooDeep)
      (hfits : ¬token.Fits) : issue.Raised (token :: rest) :=
    ⟨⟨hissue, fun _ ↦ ⟨token, List.mem_cons_self, hfits⟩⟩, hshallow⟩
  simp only [primary]
  split
  · exact .inl ⟨_, rfl⟩
  · exact .inl ⟨_, rfl⟩
  · exact .inl ⟨_, rfl⟩
  · exact .inl ⟨_, rfl⟩
  · refine .inr (.inl ⟨.badNumberLiteral, hmisfit rfl (by decide) fun hfits ↦ ?_, rfl⟩)
    unfold Token.Fits at hfits
    split at hfits <;> simp_all
  · exact .inl ⟨_, rfl⟩
  · refine .inr (.inl ⟨.badStringLiteral, hmisfit rfl (by decide) fun hfits ↦ ?_, rfl⟩)
    unfold Token.Fits at hfits
    split at hfits <;> simp_all
  · exact .inl ⟨_, rfl⟩
  · exact .inr (.inr rfl)
  · exact .inr (.inl ⟨_, Issue.raised_of_isViolation rfl, rfl⟩)

section

variable {below : Option Level} (hbelow : ConsumesBelow below)

include hbelow

theorem consumes_group (opening : Span) : (group below opening).Consumes 0 := by
  apply consumes_peek.bind
  intro next
  split
  · exact consumes_fail rfl
  · apply (consumes_deeper hbelow fun level h ↦ h.assignment).bind
    intro inner
    apply (consumes_expect rfl).bind
    intro closing
    exact consumes_pure _

theorem consumes_primary : (primary below).Consumes 1 := by
  intro input
  cases input with
  | nil => exact (consumes_fail rfl []).of_eq rfl
  | cons token rest =>
    rcases primary_arises below token rest with ⟨expr, hleaf⟩ | ⟨issue, hissue, hfail⟩ | hgroup
    · exact .of_done hleaf (List.suffix_cons token rest) (Nat.le_refl _)
    · exact .of_fail hfail hissue
    · exact (consumes_group hbelow token.span rest).of_tail hgroup

theorem consumes_unary : (unary below).Consumes 1 := by
  intro input
  cases input with
  | nil => exact (consumes_primary hbelow []).of_eq rfl
  | cons token rest =>
    cases hop : UnaryOp.ofKind? token.kind with
    | none => exact (consumes_primary hbelow _).of_eq (by simp only [unary, hop])
    | some op =>
      have hsigned : (deeper below Level.unary >>= fun operand ↦ pure (Expr.unary op operand
          (token.span.cover operand.span))).Consumes 0 := by
        apply (consumes_deeper hbelow fun level h ↦ h.unary).bind
        intro operand
        exact consumes_pure _
      exact (hsigned rest).of_tail (by simp only [unary, hop])

theorem consumes_chain (tier : Tier) (tighter : List Tier) (left : Expr) :
    (chain below tier tighter left).Consumes 0 := by
  intro input
  cases input with
  | nil => exact (consumes_pure left []).of_eq rfl
  | cons token rest =>
    cases hconnective : tier.connective? token.kind with
    | none =>
      have hstep : chain below tier tighter left (token :: rest) =
          Rule.done left (token :: rest) := by
        simp only [chain, hconnective]
      exact (consumes_pure left _).of_eq hstep
    | some connective =>
      have hlink : (deeper below fun level ↦ do
          let right ← level.operand tighter
          level.chain tier tighter (connective.join left right)).Consumes 0 := by
        apply consumes_deeper hbelow
        intro level hlevel
        apply (hlevel.operand tighter).bind
        intro right
        exact hlevel.chain tier tighter _
      have hstep : (chain below tier tighter left).ConsumesOn (1 + 0) (token :: rest) :=
        (hlink rest).of_tail (by simp only [chain, hconnective])
      exact ⟨hstep.faults, hstep.outcome.mono (Nat.zero_le _)⟩

theorem consumes_operand (tiers : List Tier) : (operand below tiers).Consumes 1 := by
  induction tiers with
  | nil => exact consumes_unary hbelow
  | cons tier tighter ih =>
    apply ih.bind_first
    intro left
    exact consumes_chain hbelow tier tighter left

theorem consumes_assignment : (assignment below).Consumes 1 := by
  apply (consumes_operand hbelow Tier.all).bind_first
  intro target
  apply (consumes_accept .equal).bind
  intro equals
  split
  · exact consumes_pure target
  · apply (consumes_deeper hbelow fun level h ↦ h.assignment).bind
    intro value
    split
    · exact consumes_pure _
    · apply (consumes_note rfl).bind
      intro _
      exact consumes_pure target

theorem Level.consumes_above : (Level.above below).Consumes where
  assignment := consumes_assignment hbelow
  unary := consumes_unary hbelow
  operand := consumes_operand hbelow
  chain := consumes_chain hbelow

end

theorem consumes_level (budget : Nat) : (level budget).Consumes := by
  induction budget with
  | zero => exact Level.consumes_above fun level h ↦ nomatch h
  | succ budget ih => exact Level.consumes_above fun level h ↦ Option.some.inj h ▸ ih

theorem consumes_expression (budget : Nat) : (expression budget).Consumes 1 := by
  cases budget with
  | zero => exact consumes_tooDeep
  | succ budget => exact (consumes_level budget).assignment

/-! ## Statements -/

/-- The rules for the parts take a token each. -/
structure Parts.Consumes (parts : Parts) : Prop where
  expression : parts.expression.Consumes 1
  statement : parts.statement.Consumes 1

namespace Parts

variable {parts : Parts} (hparts : parts.Consumes) (opening : Span)

include hparts

theorem consumes_declaration : (parts.declaration opening).Consumes 1 := by
  apply (consumes_expect rfl).bind_first
  intro name
  apply (consumes_accept .equal).bind
  intro equals
  have hclosed (initial : Option Expr) :
      (expect .semicolon .noSemicolonAfterDeclaration >>= fun closing ↦
        pure (Stmt.declare name.lexeme initial (opening.cover closing.span))).Consumes 0 := by
    apply (consumes_expect rfl).bind
    intro closing
    exact consumes_pure _
  split
  · exact hparts.expression.map.bind hclosed
  · exact hclosed none

theorem consumes_expressionStatement : parts.expressionStatement.Consumes 1 := by
  apply consumes_remaining.bind
  intro input
  apply hparts.expression.bind_first
  intro expr
  apply consumes_peek.bind
  intro next
  split
  · exact consumes_pure _
  · apply (consumes_expect rfl).bind
    intro closing
    exact consumes_pure _

theorem consumes_print : (parts.print opening).Consumes 1 := by
  apply hparts.expression.bind_first
  intro expr
  apply (consumes_expect rfl).bind
  intro closing
  exact consumes_pure _

theorem consumes_branch : (parts.branch opening).Consumes 1 := by
  apply (consumes_expect rfl).bind_first
  intro _
  apply hparts.expression.bind
  intro condition
  apply (consumes_expect rfl).bind
  intro _
  apply hparts.statement.bind
  intro thenBranch
  apply (consumes_accept .kwElse).bind
  intro separator
  split
  · exact consumes_pure _
  · apply hparts.statement.bind
    intro elseBranch
    exact consumes_pure _

theorem consumes_loop : (parts.loop opening).Consumes 1 := by
  apply (consumes_expect rfl).bind_first
  intro _
  apply hparts.expression.bind
  intro condition
  apply (consumes_expect rfl).bind
  intro _
  apply hparts.statement.bind
  intro body
  exact consumes_pure _

theorem consumes_forInitial : parts.forInitial.Consumes 0 := by
  apply (consumes_accept .semicolon).bind
  intro closing
  split
  · exact consumes_pure none
  · apply (consumes_accept .kwVar).bind
    intro keyword
    split
    · exact (consumes_declaration hparts _).map.mono (Nat.zero_le 1)
    · exact (consumes_expressionStatement hparts).map.mono (Nat.zero_le 1)

theorem consumes_expressionUnless (stop : Token.Kind) :
    (parts.expressionUnless stop).Consumes 0 := by
  apply consumes_peek.bind
  intro next
  split
  · exact consumes_pure none
  · exact hparts.expression.map.mono (Nat.zero_le 1)

theorem consumes_forClauses : parts.forClauses.Consumes 1 := by
  apply (consumes_expect rfl).bind_first
  intro _
  apply (consumes_forInitial hparts).bind
  intro initial
  apply (consumes_expressionUnless hparts .semicolon).bind
  intro condition
  apply (consumes_expect rfl).bind
  intro separator
  apply (consumes_expressionUnless hparts .rightParen).bind
  intro increment
  apply (consumes_expect rfl).bind
  intro _
  exact consumes_pure _

theorem consumes_forLoop : (parts.forLoop opening).Consumes 1 := by
  apply (consumes_forClauses hparts).bind_first
  intro clauses
  apply hparts.statement.bind
  intro body
  exact consumes_pure _

theorem consumes_declarationOrStatement : parts.declarationOrStatement.Consumes 1 := by
  apply (consumes_accept .kwVar).bind
  intro keyword
  split
  · exact consumes_declaration hparts _
  · exact hparts.statement

end Parts

theorem synchronize_cons_suffix (token : Token) (rest : List Token) :
    synchronize (token :: rest) <:+ rest := by
  rw [synchronize]
  split
  · exact List.suffix_refl rest
  · exact synchronize_suffix rest

theorem synchronize_suffix_of_cons {token : Token} {left rest : List Token}
    (h : left <:+ token :: rest) : synchronize left <:+ rest := by
  cases left with
  | nil => exact List.nil_suffix
  | cons next others =>
    rcases List.suffix_cons_iff.mp h with heq | hrest
    · obtain ⟨-, rfl⟩ := List.cons.inj heq
      exact synchronize_cons_suffix next others
    · exact (synchronize_cons_suffix next others).trans ((List.suffix_cons next others).trans hrest)

/-- A violation is recorded as what it is, and passed over. -/
theorem consumes_recovering {α : Type} {eof : Span} {rule : Rule α} (h : rule.Consumes 1) :
    (recovering eof rule).Consumes 0 := by
  intro input
  obtain ⟨hfaults, houtcome⟩ := h input
  cases hreading : rule input with
  | mk faults outcome =>
    rw [hreading] at hfaults houtcome
    cases outcome with
    | done value rest =>
      constructor <;> simp only [recovering, hreading]
      · exact hfaults
      · exact ⟨houtcome.1, Nat.le_of_succ_le houtcome.2⟩
    | failed issue rest =>
      have hleft := (synchronize_suffix rest).trans houtcome.1
      have hissue : (Fault.atNext eof issue rest).issue.Raised input := by
        rw [Fault.issue_atNext]
        exact houtcome.2
      constructor <;> simp only [recovering, hreading]
      · exact List.forall_mem_append.mpr ⟨hfaults, List.forall_mem_singleton.mpr hissue⟩
      · exact ⟨hleft, hleft.length_le⟩
    | tooDeep rest =>
      constructor <;> simp only [recovering, hreading]
      · exact hfaults
      · exact houtcome

end Grammar

/-- Where reading goes on. Past the nesting limit nothing more is read. -/
def Outcome.left {α : Type} : Outcome α → List Token
  | .done _ rest => rest
  | .failed _ rest => rest
  | .tooDeep _ => []

namespace Grammar

open Rule

/-- Before the end of the input at least one token is taken, or passed over. -/
theorem left_recovering {α : Type} {rule : Rule α} (h : rule.Consumes 1) (eof : Span)
    (token : Token) (rest : List Token) :
    (recovering eof rule (token :: rest)).outcome.left <:+ rest := by
  have houtcome := (h (token :: rest)).outcome
  cases hreading : rule (token :: rest) with
  | mk faults outcome =>
    rw [hreading] at houtcome
    cases outcome with
    | done value left =>
      simp only [recovering, hreading]
      obtain ⟨hleft, htaken⟩ := houtcome
      rcases List.suffix_cons_iff.mp hleft with rfl | hrest
      · exact absurd htaken (Nat.not_succ_le_self _)
      · exact hrest
    | failed issue left =>
      simp only [recovering, hreading]
      exact synchronize_suffix_of_cons houtcome.1
    | tooDeep left =>
      simp only [recovering, hreading]
      exact List.nil_suffix

namespace Parts

/-- The statements by their first token. -/
theorem body_cons (parts : Parts) (token : Token) (rest : List Token) :
    parts.body (token :: rest) = parts.print token.span rest ∨
    parts.body (token :: rest) = parts.block token.span rest ∨
    parts.body (token :: rest) = parts.branch token.span rest ∨
    parts.body (token :: rest) = parts.loop token.span rest ∨
    parts.body (token :: rest) = parts.forLoop token.span rest ∨
    parts.body (token :: rest) = parts.expressionStatement (token :: rest) := by
  simp only [body]
  split <;> simp

variable {parts : Parts} (hparts : parts.Consumes)

include hparts

theorem consumes_item : parts.item.Consumes 0 :=
  consumes_recovering (consumes_declarationOrStatement hparts)

theorem consumes_items (bound : Nat) : (parts.items bound).Consumes 0 := by
  induction bound with
  | zero => exact consumes_pure []
  | succ bound ih =>
    apply consumes_peek.bind
    intro next
    split
    · exact consumes_pure []
    · exact consumes_pure []
    · apply (consumes_item hparts).bind
      intro first
      apply ih.bind
      intro others
      exact consumes_pure _

theorem consumes_block (opening : Span) : (parts.block opening).Consumes 1 := by
  apply consumes_remaining.bind
  intro input
  apply (consumes_items hparts input.length).bind
  intro body
  apply (consumes_expect rfl).bind_first
  intro closing
  exact consumes_pure _

theorem consumes_body : parts.body.Consumes 1 := by
  intro input
  cases input with
  | nil => exact (consumes_expressionStatement hparts []).of_eq rfl
  | cons token rest =>
    have htail {rule : Rule Stmt} (h : rule.Consumes 1)
        (heq : parts.body (token :: rest) = rule rest) :
        parts.body.ConsumesOn 1 (token :: rest) := by
      have hbody := (h rest).of_tail heq
      exact ⟨hbody.faults, hbody.outcome.mono (by decide)⟩
    rcases parts.body_cons token rest with heq | heq | heq | heq | heq | heq
    · exact htail (consumes_print hparts token.span) heq
    · exact htail (consumes_block hparts token.span) heq
    · exact htail (consumes_branch hparts token.span) heq
    · exact htail (consumes_loop hparts token.span) heq
    · exact htail (consumes_forLoop hparts token.span) heq
    · exact (consumes_expressionStatement hparts _).of_eq heq

end Parts

theorem consumes_parts (mode : Mode) (eof : Span) (budget : Nat) :
    (parts mode eof budget).Consumes := by
  induction budget with
  | zero => exact ⟨consumes_expression 0, consumes_tooDeep⟩
  | succ budget ih => exact ⟨consumes_expression (budget + 1), Parts.consumes_body ih⟩

/-- An item that is read before the end leaves less than it was given. -/
theorem item_suffix {mode : Mode} {eof : Span} {budget : Nat} {token : Token}
    {rest left : List Token} {faults : List Fault} {value : Option Stmt}
    (h : (parts mode eof budget).item (token :: rest) = ⟨faults, .done value left⟩) :
    left <:+ rest := by
  have hconsumes := Parts.consumes_declarationOrStatement (consumes_parts mode eof budget)
  have hleft := left_recovering hconsumes (parts mode eof budget).eof token rest
  change ((parts mode eof budget).item (token :: rest)).outcome.left <:+ rest at hleft
  rw [h] at hleft
  exact hleft

end Grammar

/-! ## Programs -/

namespace Program

theorem arises_collect {eof : Span} {item : Rule (Option Stmt)} (h : item.Consumes 0) (bound : Nat)
    (tokens : List Token) :
    ∀ fault ∈ (collect eof item bound tokens).faults, fault.issue.Arises tokens := by
  induction bound generalizing tokens with
  | zero => exact List.forall_mem_nil _
  | succ bound ih =>
    cases tokens with
    | nil => exact List.forall_mem_nil _
    | cons token rest =>
      obtain ⟨hfaults, houtcome⟩ := h (token :: rest)
      cases hreading : item (token :: rest) with
      | mk faults outcome =>
        rw [hreading] at hfaults houtcome
        have harises : ∀ fault ∈ faults, fault.issue.Arises (token :: rest) :=
          fun fault hfault ↦ (hfaults fault hfault).toArises
        simp only [collect, hreading]
        cases outcome with
        | done stmt left =>
          apply List.forall_mem_append.mpr ⟨harises, ?_⟩
          intro fault hfault
          exact (ih left fault hfault).mono houtcome.1.subset
        | failed issue left =>
          apply List.forall_mem_append.mpr ⟨harises, List.forall_mem_singleton.mpr ?_⟩
          rw [Fault.issue_atNext]
          exact houtcome.2.toArises
        | tooDeep left =>
          apply List.forall_mem_append.mpr ⟨harises, List.forall_mem_singleton.mpr ?_⟩
          rw [Fault.issue_atNext]
          exact Issue.arises_of_isStructural rfl

end Program

theorem TokenInput.tokens_ofList (tokens : List Token) :
    (ofList tokens).tokens = tokens.takeWhile (·.kind ≠ .eof) := by
  unfold ofList
  split <;> rfl

/-- Whatever the tokens are, parsing raises issues of the grammar alone. -/
theorem Program.arises_parse (mode : Grammar.Mode) (tokens : List Token) :
    ∀ fault ∈ (parse mode tokens).faults, fault.issue.Arises tokens := by
  intro fault hfault
  have hitem := Grammar.Parts.consumes_item
    (Grammar.consumes_parts mode (TokenInput.ofList tokens).eof nestingLimit)
  have harises := arises_collect hitem _ _ fault hfault
  rw [TokenInput.tokens_ofList] at harises
  exact harises.mono (List.takeWhile_subset _)

end LoxLang
