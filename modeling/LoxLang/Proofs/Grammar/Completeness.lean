import LoxLang.Proofs.Grammar.Soundness

/-!
# What is derivable is accepted

On the frontier of a derivation a rule reads its tree if the nesting counter of the
derivation stays within the levels that are left, and goes past the limit otherwise. What
follows the frontier must not be able to continue it: no operator behind an operand, no `=`
behind an expression, no `else` behind a dangling `if`. The proof is by induction on the
derivation. A chain is followed up to the place where the rule is about to look for one
more operator, which is also what a longer chain starts from.

A text with some derivation has one in which each `else` is at the nearest `if`, so the two
outcomes together decide every derivable text.
-/

namespace LoxLang

namespace Grammar

/-! ## Levels -/

/-- The level below the one with the given number of further levels. -/
def below : Nat → Option Level
  | 0 => none
  | budget + 1 => some (level budget)

theorem level_eq_above (budget : Nat) : level budget = Level.above (below budget) := by
  cases budget <;> rfl

theorem expression_eq_deeper (budget : Nat) :
    expression budget = deeper (below budget) Level.assignment := by
  cases budget <;> rfl

/-- One level deeper the counter is one higher. -/
theorem meets_deeper {α : Type} {rule : Level → Rule α} {reached counter budget : Nat}
    {input rest : List Token} {value : α} (hreached : counter < reached)
    (h : ∀ less, (rule (level less)).Meets (reached ≤ counter + 1 + less) input value rest) :
    (deeper (below budget) rule).Meets (reached ≤ counter + budget) input value rest := by
  cases budget with
  | zero => exact ⟨fun hfits ↦ by omega, fun _ ↦ ⟨input, rfl⟩⟩
  | succ less => exact (h less).congr (by omega)

theorem Phrase.le_peak {symbol : Symbol} (phrase : Phrase symbol) (counter : Nat) :
    counter ≤ phrase.peak counter := by
  induction phrase generalizing counter with
  | expression inner ih => exact Nat.le_trans (Nat.le_succ counter) (ih (counter + 1))
  | assign name equals value ih => exact Nat.le_trans (Nat.le_succ counter) (ih (counter + 1))
  | simple operand ih => exact ih counter
  | first operand ih => exact ih counter
  | link left operator right ih _ => exact Nat.le_trans (ih counter) (Nat.le_max_left _ _)
  | signed operator operand ih => exact Nat.le_trans (Nat.le_succ counter) (ih (counter + 1))
  | primary inner ih => exact ih counter
  | literal => exact Nat.le_refl counter
  | reference => exact Nat.le_refl counter
  | group opening inner closing ih => exact ih counter

theorem Phrase.links_le_peak {symbol : Symbol} (phrase : Phrase symbol) (counter : Nat) :
    counter + phrase.links ≤ phrase.peak counter := by
  cases phrase with
  | link left operator right =>
    exact Nat.le_trans (right.le_peak _) (Nat.le_max_right _ _)
  | expression inner => exact le_peak _ counter
  | assign name equals value => exact le_peak _ counter
  | simple operand => exact le_peak _ counter
  | first operand => exact le_peak _ counter
  | signed operator operand => exact le_peak _ counter
  | primary inner => exact le_peak _ counter
  | literal => exact Nat.le_refl counter
  | reference => exact Nat.le_refl counter
  | group opening inner closing => exact le_peak _ counter

/-! ## Where phrases end -/

/-- No operator of the given tiers comes next. -/
def Ends (tiers : List Tier) (rest : List Token) : Prop :=
  ∀ tier ∈ tiers, ∀ kind, nextKind rest = some kind → tier.connective? kind = none

/-- Nothing that could continue an expression comes next. -/
structure EndsExpression (rest : List Token) : Prop where
  chains : Ends Tier.all rest
  equals : nextKind rest ≠ some .equal

theorem connective?_eq_none_of_ne {tier other : Tier} {kind : Token.Kind} {connective : Connective}
    (h : tier.connective? kind = some connective) (hne : other ≠ tier) :
    other.connective? kind = none := by
  cases tier <;> cases kind <;> simp [Tier.connective?] at h <;>
    cases other <;> first | rfl | exact absurd rfl hne

theorem ends_cons_operator {tier : Tier} {tighter : List Tier} {rest : List Token}
    (htiers : tier :: tighter <:+ Tier.all) (operator : ChainOperator tier) :
    Ends tighter (operator.token :: rest) := by
  intro other hother kind hkind
  rw [nextKind_cons, Option.some.injEq] at hkind
  subst hkind
  apply connective?_eq_none_of_ne (Tier.connective?_eq_some_iff.mpr operator.listed)
  rintro rfl
  have hnodup : (other :: tighter).Nodup := htiers.sublist.nodup (by decide)
  exact (List.nodup_cons.mp hnodup).1 hother

theorem endsExpression_cons {token : Token} {rest : List Token}
    (h : token.kind = .semicolon ∨ token.kind = .rightParen) : EndsExpression (token :: rest) := by
  constructor
  · intro tier _ kind hkind
    rw [nextKind_cons, Option.some.injEq] at hkind
    subst hkind
    rcases h with h | h <;> rw [h] <;> cases tier <;> rfl
  · rcases h with h | h <;> simp [h]

theorem chain_of_ends {level : Option Level} {tier : Tier} {tighter : List Tier} {left : Expr}
    {rest : List Token} (h : Ends [tier] rest) :
    (chain level tier tighter left).Accepts rest left rest := by
  cases rest with
  | nil => rfl
  | cons token rest =>
    have hnone : tier.connective? token.kind = none := h tier (by simp) token.kind rfl
    simp [Rule.Accepts, chain, hnone, Rule.done]

theorem chain_cons_operator {level : Option Level} {tier : Tier} {tighter : List Tier} {left : Expr}
    {rest : List Token} (operator : ChainOperator tier) :
    chain level tier tighter left (operator.token :: rest) =
      deeper level (fun level ↦ do
        let right ← level.operand tighter
        level.chain tier tighter (operator.connective.join left right)) rest := by
  simp only [chain, Tier.connective?_eq_some_iff.mpr operator.listed]

/-! ## Expressions -/

/-- What the rule for the symbol makes of the frontier. A chain is followed up to the place
where one more operator may come. -/
def Phrase.Complete : {symbol : Symbol} → Phrase symbol → Prop
  | .expression, phrase => ∀ budget counter rest, EndsExpression rest →
    (Grammar.expression budget).Meets (phrase.peak counter ≤ counter + budget)
      (phrase.tokens ++ rest) phrase.tree rest
  | .assignment, phrase => ∀ budget counter rest, EndsExpression rest →
    (assignment (below budget)).Meets (phrase.peak counter ≤ counter + budget)
      (phrase.tokens ++ rest) phrase.tree rest
  | .tier tier, phrase => ∀ tighter, tier :: tighter <:+ Tier.all →
    ∀ budget counter rest, Ends tighter rest →
      (phrase.peak counter ≤ counter + budget →
        operand (below budget) (tier :: tighter) (phrase.tokens ++ rest) =
          chain (below (budget - phrase.links)) tier tighter phrase.tree rest) ∧
      (¬phrase.peak counter ≤ counter + budget →
        (operand (below budget) (tier :: tighter)).Exceeds (phrase.tokens ++ rest))
  | .unary, phrase => ∀ budget counter rest,
    (unary (below budget)).Meets (phrase.peak counter ≤ counter + budget) (phrase.tokens ++ rest)
      phrase.tree rest
  | .primary, phrase => ∀ budget counter rest,
    (Grammar.primary (below budget)).Meets (phrase.peak counter ≤ counter + budget)
      (phrase.tokens ++ rest) phrase.tree rest

theorem Phrase.Complete.operand {symbol : Symbol} {phrase : Phrase symbol} (h : phrase.Complete)
    {tiers : List Tier} (hsymbol : symbolOf tiers = symbol) (htiers : tiers <:+ Tier.all)
    (budget counter : Nat) {rest : List Token} (hends : Ends tiers rest) :
    (Grammar.operand (below budget) tiers).Meets (phrase.peak counter ≤ counter + budget)
      (phrase.tokens ++ rest) phrase.tree rest := by
  subst hsymbol
  cases tiers with
  | nil => exact h budget counter rest
  | cons tier tighter =>
    have htighter : Ends tighter rest := fun other hother ↦ hends other (by simp [hother])
    have hstop : Ends [tier] rest := fun other hother ↦ hends other (by simp_all)
    obtain ⟨hreads, hexceeds⟩ := h tighter htiers budget counter rest htighter
    exact ⟨fun hfits ↦ (hreads hfits).trans (chain_of_ends hstop), hexceeds⟩

theorem first_complete {tier : Tier} {operand : Phrase (operandOf tier)} (h : operand.Complete) :
    (Phrase.first operand).Complete := by
  intro tighter htiers budget counter rest hends
  have hoperand := h.operand (symbolOf_tighter htiers)
    ((List.suffix_cons tier tighter).trans htiers) budget counter hends
  exact ⟨fun hfits ↦ (hoperand.accepts hfits).bind_eq, fun hfits ↦ (hoperand.exceeds hfits).bind⟩

theorem link_complete {tier : Tier} {left : Phrase (.tier tier)} {operator : ChainOperator tier}
    {right : Phrase (operandOf tier)} (hleft : left.Complete) (hright : right.Complete) :
    (left.link operator right).Complete := by
  intro tighter htiers budget counter rest hends
  obtain ⟨hreads, hexceeds⟩ := hleft tighter htiers budget counter
    (operator.token :: (right.tokens ++ rest)) (ends_cons_operator htiers operator)
  have htokens : (left.link operator right).tokens ++ rest =
      left.tokens ++ operator.token :: (right.tokens ++ rest) := by
    simp [Phrase.tokens]
  have hlinks := left.links_le_peak counter
  have hrightPeak := right.le_peak (counter + (left.links + 1))
  rw [htokens]
  by_cases hfits : left.peak counter ≤ counter + budget
  · obtain ⟨less, rfl⟩ : ∃ less, budget = less + left.links :=
      ⟨budget - left.links, by omega⟩
    have hstep := hreads hfits
    rw [Nat.add_sub_cancel, chain_cons_operator] at hstep
    cases less with
    | zero =>
      refine ⟨fun hmax ↦ ?_, fun _ ↦ ⟨right.tokens ++ rest, hstep⟩⟩
      simp only [Phrase.peak] at hmax
      omega
    | succ less =>
      have hoperand := hright.operand (symbolOf_tighter htiers)
        ((List.suffix_cons tier tighter).trans htiers) less (counter + (left.links + 1)) hends
      change _ = ((level less).operand tighter >>= fun right ↦ (level less).chain tier tighter _) _
        at hstep
      rw [level_eq_above] at hstep
      simp only [Phrase.peak, Phrase.links, Phrase.tree_link]
      constructor
      · intro hmax
        rw [show less + 1 + left.links - (left.links + 1) = less by omega]
        exact hstep.trans (hoperand.accepts (by omega)).bind_eq
      · intro hmax
        obtain ⟨after, hafter⟩ := (hoperand.exceeds (by omega)).bind
        exact ⟨after, hstep.trans hafter⟩
  · refine ⟨fun hmax ↦ ?_, fun _ ↦ hexceeds hfits⟩
    simp only [Phrase.peak] at hmax
    omega

theorem nextKind_tokens {symbol : Symbol} (phrase : Phrase symbol) (rest : List Token) :
    nextKind (phrase.tokens ++ rest) = some phrase.head.kind := by
  obtain ⟨more, hmore⟩ := phrase.tokens_eq_cons
  simp [hmore]

theorem nextKind_tokens_ne {symbol : Symbol} (phrase : Phrase symbol) (rest : List Token)
    {kind : Token.Kind} (h : kind ∉ expressionStarts) :
    nextKind (phrase.tokens ++ rest) ≠ some kind := by
  rw [nextKind_tokens]
  rintro ⟨⟩
  exact h (head_mem_expressionStarts phrase)

theorem expression_complete {inner : Phrase .assignment} (h : inner.Complete) :
    (Phrase.expression inner).Complete := by
  intro budget counter rest hends
  rw [expression_eq_deeper]
  apply meets_deeper (inner.le_peak (counter + 1))
  intro less
  rw [level_eq_above]
  exact h less (counter + 1) rest hends

theorem operand_reference {level : Option Level} (name : Word .identifier) {tiers : List Tier}
    {rest : List Token} (hends : Ends tiers rest) :
    (operand level tiers).Accepts (name.val :: rest) (.reference name.val.lexeme name.val.span)
      rest := by
  induction tiers with
  | nil =>
    have hunary : operand level [] (name.val :: rest) = primary level (name.val :: rest) := by
      simp [operand, unary, name.property, UnaryOp.ofKind?]
    exact hunary.trans (accepts_primary_cons.mpr (.inr (.inl ⟨name.property, rfl, rfl⟩)))
  | cons tier tighter ih =>
    have htighter : Ends tighter rest := fun other hother ↦ hends other (by simp [hother])
    have hstop : Ends [tier] rest := fun other hother ↦ hends other (by simp_all)
    exact Rule.accepts_bind.mpr ⟨_, _, ih htighter, chain_of_ends hstop⟩

theorem assign_complete {name : Word .identifier} {equals : Word .equal}
    {value : Phrase .assignment} (h : value.Complete) :
    (Phrase.assign name equals value).Complete := by
  intro budget counter rest hends
  have hequals : Ends Tier.all (equals.val :: (value.tokens ++ rest)) := by
    intro tier _ kind hkind
    rw [nextKind_cons, equals.property, Option.some.injEq] at hkind
    subst hkind
    cases tier <;> rfl
  have hvalue : (deeper (below budget) Level.assignment).Meets
      (value.peak (counter + 1) ≤ counter + budget) (value.tokens ++ rest) value.tree rest := by
    apply meets_deeper (value.le_peak (counter + 1))
    intro less
    rw [level_eq_above]
    exact h less (counter + 1) rest hends
  refine (operand_reference name hequals).meets_bind (.accept_bind ?_ equals.property)
  exact hvalue.bind_accepts (Rule.accepts_pure.mpr ⟨rfl, rfl⟩)

theorem simple_complete {operand : Phrase (.tier .disjunction)} (h : operand.Complete) :
    (Phrase.simple operand).Complete := by
  intro budget counter rest hends
  have hoperand := h.operand rfl (List.suffix_refl Tier.all) budget counter hends.chains
  refine hoperand.bind_accepts (Rule.accepts_bind.mpr ⟨none, rest, ?_, ?_⟩)
  · exact Rule.accepts_accept_none.mpr ⟨hends.equals, rfl⟩
  · exact Rule.accepts_pure.mpr ⟨rfl, rfl⟩

theorem signed_complete {operator : PrefixOperator} {operand : Phrase .unary}
    (h : operand.Complete) : (Phrase.signed operator operand).Complete := by
  intro budget counter rest
  have hoperand : (deeper (below budget) Level.unary).Meets
      (operand.peak (counter + 1) ≤ counter + budget) (operand.tokens ++ rest) operand.tree rest := by
    apply meets_deeper (operand.le_peak (counter + 1))
    intro less
    rw [level_eq_above]
    exact h less (counter + 1) rest
  have hstep : unary (below budget) (operator.token :: (operand.tokens ++ rest)) =
      (deeper (below budget) Level.unary >>= fun operand ↦ pure (Expr.unary operator.op operand
        (operator.token.span.cover operand.span))) (operand.tokens ++ rest) := by
    simp only [unary, ofKind?_eq_some_iff.mpr operator.listed]
  refine Rule.Meets.of_eq ?_ hstep
  exact hoperand.bind_accepts (Rule.accepts_pure.mpr ⟨rfl, rfl⟩)

theorem primary_complete {inner : Phrase .primary} (h : inner.Complete) :
    (Phrase.primary inner).Complete := by
  intro budget counter rest
  have hstep : unary (below budget) (inner.tokens ++ rest) =
      primary (below budget) (inner.tokens ++ rest) := by
    obtain ⟨more, hmore⟩ := inner.tokens_eq_cons
    have hnone : UnaryOp.ofKind? inner.head.kind = none := by
      have hstart := head_mem_primaryStarts inner
      generalize inner.head.kind = kind at hstart
      revert hstart
      cases kind <;> decide
    simp only [hmore, List.cons_append, unary, hnone]
  exact (h budget counter rest).of_eq hstep

theorem group_complete {opening : Word .leftParen} {inner : Phrase .expression}
    {closing : Word .rightParen} (h : inner.Complete) :
    (Phrase.group opening inner closing).Complete := by
  intro budget counter rest
  have hinner := h budget counter (closing.val :: rest)
    (endsExpression_cons (.inr closing.property))
  rw [expression_eq_deeper] at hinner
  have hgroup : (group (below budget) opening.val.span).Meets
      (inner.peak counter ≤ counter + budget) (inner.tokens ++ closing.val :: rest)
      (.grouping inner.tree (opening.val.span.cover closing.val.span)) rest := by
    refine (Rule.accepts_peek.mpr ⟨rfl, rfl⟩).meets_bind ?_
    rw [if_neg (nextKind_tokens_ne inner _ (by decide))]
    exact hinner.bind_accepts (Rule.accepts_expect_pure closing.property)
  apply hgroup.of_eq
  simp [Phrase.tokens, primary, opening.property]

theorem Phrase.complete {symbol : Symbol} (phrase : Phrase symbol) : phrase.Complete := by
  induction phrase with
  | expression _ ih => exact expression_complete ih
  | assign _ _ _ ih => exact assign_complete ih
  | simple _ ih => exact simple_complete ih
  | first _ ih => exact first_complete ih
  | link _ _ _ hleft hright => exact link_complete hleft hright
  | signed _ _ ih => exact signed_complete ih
  | primary _ ih => exact primary_complete ih
  | literal token value hvalue =>
    intro budget counter rest
    refine (Rule.Accepts.meets ?_).congr (by simp [Phrase.peak])
    exact accepts_primary_cons.mpr (.inl ⟨value, hvalue, rfl, rfl⟩)
  | reference name =>
    intro budget counter rest
    refine (Rule.Accepts.meets ?_).congr (by simp [Phrase.peak])
    exact accepts_primary_cons.mpr (.inr (.inl ⟨name.property, rfl, rfl⟩))
  | group _ _ _ ih => exact group_complete ih

/-! ## Statements -/

theorem VarDecl.le_peak (decl : VarDecl) (counter : Nat) : counter ≤ decl.peak counter := by
  unfold peak
  split
  · exact Nat.le_refl counter
  · next equals expr _ => exact expr.le_peak counter

theorem Passage.le_peak {category : Category} (passage : Passage category) (counter : Nat) :
    counter ≤ passage.peak counter := by
  induction passage generalizing counter with
  | expression stmt => exact Nat.le_trans (Nat.le_succ counter) (stmt.expr.le_peak _)
  | print keyword expr closing => exact Nat.le_trans (Nat.le_succ counter) (expr.le_peak _)
  | block opening body closing ih => exact Nat.le_trans (Nat.le_succ counter) (ih _)
  | ifThen guard thenBranch ih =>
    have := ih (counter + 1)
    simp only [peak]
    omega
  | ifElse guard thenBranch separator elseBranch ih _ =>
    have := ih (counter + 1)
    simp only [peak]
    omega
  | whileLoop guard body ih =>
    have := ih (counter + 1)
    simp only [peak]
    omega
  | forLoop header body ih =>
    have := ih (counter + 1)
    simp only [peak]
    omega
  | declare decl => exact decl.le_peak counter
  | statement stmt ih => exact ih counter
  | empty => exact Nat.le_refl counter
  | more decl rest ih _ => exact Nat.le_trans (ih counter) (Nat.le_max_left _ _)

/-- A statement raises the counter. -/
theorem Passage.lt_peak (passage : Passage .statement) (counter : Nat) :
    counter < passage.peak counter := by
  cases passage with
  | expression stmt => exact stmt.expr.le_peak (counter + 1)
  | print keyword expr closing => exact expr.le_peak (counter + 1)
  | block opening body closing => exact body.le_peak (counter + 1)
  | ifThen guard thenBranch =>
    exact Nat.lt_of_lt_of_le (guard.condition.le_peak (counter + 1)) (Nat.le_max_left _ _)
  | ifElse guard thenBranch separator elseBranch =>
    exact Nat.lt_of_lt_of_le (guard.condition.le_peak (counter + 1)) (Nat.le_max_left _ _)
  | whileLoop guard body =>
    exact Nat.lt_of_lt_of_le (guard.condition.le_peak (counter + 1)) (Nat.le_max_left _ _)
  | forLoop header body =>
    exact Nat.lt_of_lt_of_le (body.le_peak (counter + 1)) (Nat.le_max_right _ _)

/-- What the rule for the category makes of the frontier. -/
def Passage.Complete : {category : Category} → Passage category → Prop
  | .statement, passage => ∀ eof budget counter rest, passage.Nearest →
    (passage.dangling = true → nextKind rest ≠ some .kwElse) →
      (parts .script eof budget).statement.Meets (passage.peak counter ≤ counter + budget)
        (passage.tokens ++ rest) passage.tree rest
  | .declaration, passage => ∀ eof budget counter rest, passage.Nearest →
    (passage.dangling = true → nextKind rest ≠ some .kwElse) →
      (parts .script eof budget).declarationOrStatement.Meets
        (passage.peak counter ≤ counter + budget) (passage.tokens ++ rest) passage.tree rest
  | .sequence, passage => ∀ eof budget counter bound rest, passage.Nearest →
    (nextKind rest = none ∨ nextKind rest = some .rightBrace) → passage.tokens.length ≤ bound →
      ((parts .script eof budget).items bound).Meets (passage.peak counter ≤ counter + budget)
        (passage.tokens ++ rest) passage.tree rest

section

variable (eof : Span) (budget counter : Nat) (rest : List Token)

/-- A statement is read with one level less. -/
theorem meets_statement {reached : Nat} {input : List Token} {value : Stmt}
    (hreached : counter < reached)
    (h : ∀ less, (parts .script eof less).body.Meets (reached ≤ counter + 1 + less) input value rest) :
    (parts .script eof budget).statement.Meets (reached ≤ counter + budget) input value rest := by
  cases budget with
  | zero => exact ⟨fun hfits ↦ by omega, fun _ ↦ ⟨input, rfl⟩⟩
  | succ less => exact (h less).congr (by omega)

theorem meets_expression (phrase : Phrase .expression) {closing : Token}
    (hclosing : closing.kind = .semicolon ∨ closing.kind = .rightParen) :
    (parts .script eof budget).expression.Meets (phrase.peak counter ≤ counter + budget)
      (phrase.tokens ++ closing :: rest) phrase.tree (closing :: rest) := by
  rw [parts_expression]
  exact phrase.complete budget counter _ (endsExpression_cons hclosing)

theorem meets_declaration (decl : VarDecl) :
    ((parts .script eof budget).declaration decl.keyword.val.span).Meets
      (decl.peak counter ≤ counter + budget) (decl.tokens.tail ++ rest) decl.tree rest := by
  obtain ⟨keyword, name, initial, closing⟩ := decl
  cases initial with
  | none =>
    refine .expect_bind (.accept_none_bind ?_ (by simp [closing.property])) name.property
    refine (Rule.accepts_pure.mpr ⟨rfl, rfl⟩).meets_bind (.expect_bind ?_ closing.property)
    exact (Rule.Accepts.meets (Rule.accepts_pure.mpr ⟨rfl, rfl⟩)).congr (by simp [VarDecl.peak])
  | some initial =>
    obtain ⟨equals, expr⟩ := initial
    have htail : (VarDecl.mk keyword name (some (equals, expr)) closing).tokens.tail ++ rest =
        name.val :: equals.val :: (expr.tokens ++ closing.val :: rest) := by
      simp [VarDecl.tokens]
    rw [htail]
    refine .expect_bind (.accept_bind ?_ equals.property) name.property
    have hexpr := meets_expression eof budget counter rest expr (.inl closing.property)
    exact hexpr.map.bind_accepts (Rule.accepts_expect_pure closing.property)

theorem meets_expressionStatement (stmt : ExprStmt) :
    (parts .script eof budget).expressionStatement.Meets (stmt.expr.peak counter ≤ counter + budget)
      (stmt.tokens ++ rest) stmt.tree rest := by
  obtain ⟨expr, closing⟩ := stmt
  have htokens : (ExprStmt.mk expr closing).tokens ++ rest =
      expr.tokens ++ closing.val :: rest := by
    simp [ExprStmt.tokens]
  obtain ⟨more, hmore⟩ := expr.tokens_eq_cons
  have hfirst : firstSpan eof (expr.tokens ++ closing.val :: rest) = expr.head.span := by
    simp [firstSpan, hmore]
  rw [htokens]
  have hexpr := meets_expression eof budget counter rest expr (.inl closing.property)
  refine (Rule.accepts_remaining.mpr ⟨rfl, rfl⟩).meets_bind (hexpr.bind_accepts ?_)
  refine Rule.accepts_bind.mpr ⟨_, _, Rule.accepts_peek.mpr ⟨rfl, rfl⟩, ?_⟩
  rw [parts_mode, if_neg (by simp), parts_eof, hfirst]
  exact Rule.accepts_expect_pure closing.property

theorem meets_forInitial (initial : ForInitial) :
    (parts .script eof budget).forInitial.Meets (initial.peak counter ≤ counter + budget)
      (initial.tokens ++ rest) initial.tree? rest := by
  cases initial with
  | absent closing =>
    refine .accept_bind ?_ closing.property
    exact (Rule.Accepts.meets (Rule.accepts_pure.mpr ⟨rfl, rfl⟩)).congr (by simp [ForInitial.peak])
  | declare decl =>
    have hkeyword : nextKind (decl.tokens ++ rest) = some .kwVar := by
      simp [VarDecl.tokens, decl.keyword.property]
    refine .accept_none_bind ?_ (by simp [ForInitial.tokens, hkeyword])
    refine .accept_bind ?_ decl.keyword.property
    exact (meets_declaration eof budget counter rest decl).map
  | expression stmt =>
    have htokens : stmt.tokens ++ rest = stmt.expr.tokens ++ stmt.closing.val :: rest := by
      simp [ExprStmt.tokens]
    have hne {kind : Token.Kind} (h : kind ∉ expressionStarts) :
        nextKind (stmt.tokens ++ rest) ≠ some kind := by
      rw [htokens]
      exact nextKind_tokens_ne stmt.expr _ h
    refine .accept_none_bind (.accept_none_bind ?_ (hne (by decide))) (hne (by decide))
    exact (meets_expressionStatement eof budget counter rest stmt).map

theorem meets_expressionUnless (clause : Option (Phrase .expression)) {closing : Token}
    {stop : Token.Kind} (hclosing : closing.kind = stop)
    (hstop : stop = .semicolon ∨ stop = .rightParen) :
    ((parts .script eof budget).expressionUnless stop).Meets
      ((clause.map fun phrase ↦ phrase.peak counter).getD counter ≤ counter + budget)
      ((clause.map Phrase.tokens).getD [] ++ closing :: rest) (clause.map Phrase.tree)
      (closing :: rest) := by
  refine (Rule.accepts_peek.mpr ⟨rfl, rfl⟩).meets_bind ?_
  cases clause with
  | none =>
    simp only [Option.map_none, Option.getD_none, List.nil_append, nextKind_cons, hclosing, ↓reduceIte]
    exact (Rule.Accepts.meets (Rule.accepts_pure.mpr ⟨rfl, rfl⟩)).congr (by simp)
  | some phrase =>
    have hstart : stop ∉ expressionStarts := by
      rcases hstop with rfl | rfl <;> decide
    simp only [Option.map_some, Option.getD_some, nextKind_tokens_ne phrase _ hstart, ↓reduceIte]
    exact (meets_expression eof budget counter rest phrase (hclosing ▸ hstop)).map

theorem ForHeader.meets (header : ForHeader) :
    (parts .script eof budget).forClauses.Meets (header.peak counter ≤ counter + budget)
      (header.tokens.tail ++ rest) ⟨header.initial.tree?, header.condition.map Phrase.tree,
        header.separator.val.span, header.increment.map Phrase.tree⟩ rest := by
  have htail : header.tokens.tail ++ rest = header.opening.val :: (header.initial.tokens ++
      ((header.condition.map Phrase.tokens).getD [] ++ header.separator.val ::
        ((header.increment.map Phrase.tokens).getD [] ++ header.closing.val :: rest))) := by
    simp [tokens]
  have hinitial := fun rest ↦ meets_forInitial eof budget counter rest header.initial
  have hcondition := fun rest ↦ meets_expressionUnless eof budget counter rest header.condition
    header.separator.property (.inl rfl)
  have hincrement := meets_expressionUnless eof budget counter rest header.increment
    header.closing.property (.inr rfl)
  rw [htail]
  refine Rule.Meets.congr (.expect_bind ((hinitial _).bind ((hcondition _).bind
    (.expect_bind (hincrement.bind_accepts (Rule.accepts_expect_pure header.closing.property))
      header.separator.property))) header.opening.property) ?_
  simp only [peak, Nat.max_le]

theorem body_eq_expressionStatement (parts : Parts) {token : Token}
    (h : token.kind ∈ expressionStarts) :
    parts.body (token :: rest) = parts.expressionStatement (token :: rest) := by
  simp only [Parts.body]
  split <;> first | rfl | simp_all [expressionStarts, primaryStarts]

theorem meets_recovering {α : Type} {rule : Rule α} {fits : Prop} {input : List Token} {value : α}
    {rest : List Token} (h : rule.Meets fits input value rest) :
    (recovering eof rule).Meets fits input (some value) rest := by
  constructor
  · intro hfits
    simp only [Rule.Accepts, recovering, show rule input = _ from h.accepts hfits]
  · intro hfits
    obtain ⟨left, hleft⟩ := h.exceeds hfits
    exact ⟨left, by simp only [recovering, hleft]⟩

/-- The condition of an `if` or a `while`, before what depends on it. -/
theorem Guard.meets {kind : Token.Kind} (guard : Guard kind) {issue issue' : Issue}
    {next : Expr → Rule Stmt} {fits : Prop} {value : Stmt} {input : List Token}
    (h : (next guard.condition.tree).Meets fits input value rest) :
    (do
      let _ ← Rule.expect .leftParen issue
      let condition ← (parts .script eof budget).expression
      let _ ← Rule.expect .rightParen issue'
      next condition : Rule Stmt).Meets
      (guard.condition.peak counter ≤ counter + budget ∧ fits) (guard.tokens.tail ++ input) value
      rest := by
  have htail : guard.tokens.tail ++ input =
      guard.opening.val :: (guard.condition.tokens ++ guard.closing.val :: input) := by
    simp [tokens]
  rw [htail]
  refine .expect_bind ?_ guard.opening.property
  have hcondition := meets_expression eof budget counter input guard.condition
    (.inr guard.closing.property)
  exact hcondition.bind (.expect_bind h guard.closing.property)

end

namespace Passage

theorem expression_complete (stmt : ExprStmt) : (Passage.expression stmt).Complete := by
  intro eof budget counter rest _ _
  apply meets_statement eof budget counter rest (lt_peak _ _)
  intro less
  apply (meets_expressionStatement eof less (counter + 1) rest stmt).of_eq
  obtain ⟨more, hmore⟩ := stmt.expr.tokens_eq_cons
  simp only [tokens, ExprStmt.tokens, hmore, List.cons_append]
  exact body_eq_expressionStatement _ _ (head_mem_expressionStarts stmt.expr)

theorem print_complete (keyword : Word .kwPrint) (expr : Phrase .expression)
    (closing : Word .semicolon) : (Passage.print keyword expr closing).Complete := by
  intro eof budget counter rest _ _
  apply meets_statement eof budget counter rest (lt_peak _ _)
  intro less
  have hprint : ((parts .script eof less).print keyword.val.span).Meets
      (expr.peak (counter + 1) ≤ counter + 1 + less) (expr.tokens ++ closing.val :: rest)
      (.print expr.tree (keyword.val.span.cover closing.val.span)) rest :=
    (meets_expression eof less (counter + 1) rest expr (.inl closing.property)).bind_accepts
      (Rule.accepts_expect_pure closing.property)
  exact hprint.of_eq (by simp [tokens, Parts.body, keyword.property])

theorem block_complete {opening : Word .leftBrace} {body : Passage .sequence}
    {closing : Word .rightBrace} (h : body.Complete) :
    (Passage.block opening body closing).Complete := by
  intro eof budget counter rest hnearest _
  apply meets_statement eof budget counter rest (lt_peak _ _)
  intro less
  have hblock : ((parts .script eof less).block opening.val.span).Meets
      (body.peak (counter + 1) ≤ counter + 1 + less) (body.tokens ++ closing.val :: rest)
      (.block body.tree (opening.val.span.cover closing.val.span)) rest := by
    have hitems := h eof less (counter + 1) (body.tokens ++ closing.val :: rest).length
      (closing.val :: rest) hnearest (.inr (by simp [closing.property])) (by simp)
    exact (Rule.accepts_remaining.mpr ⟨rfl, rfl⟩).meets_bind
      (hitems.bind_accepts (Rule.accepts_expect_pure closing.property))
  exact hblock.of_eq (by simp [tokens, Parts.body, opening.property])

theorem ifThen_complete {guard : Guard .kwIf} {thenBranch : Passage .statement}
    (h : thenBranch.Complete) : (Passage.ifThen guard thenBranch).Complete := by
  intro eof budget counter rest hnearest hclosed
  apply meets_statement eof budget counter rest (lt_peak _ _)
  intro less
  have hthen := h eof less (counter + 1) rest hnearest fun _ ↦ hclosed rfl
  have hbranch : ((parts .script eof less).branch guard.keyword.val.span).Meets
      (guard.condition.peak (counter + 1) ≤ counter + 1 + less ∧
        thenBranch.peak (counter + 1) ≤ counter + 1 + less)
      (guard.tokens.tail ++ (thenBranch.tokens ++ rest)) (Passage.ifThen guard thenBranch).tree
      rest := by
    refine guard.meets eof less (counter + 1) rest (hthen.bind_accepts ?_)
    exact Rule.accepts_bind.mpr ⟨none, rest, Rule.accepts_accept_none.mpr ⟨hclosed rfl, rfl⟩,
      Rule.accepts_pure.mpr ⟨rfl, rfl⟩⟩
  apply (hbranch.congr Nat.max_le.symm).of_eq
  simp [tokens, Guard.tokens, Parts.body, guard.keyword.property]

theorem ifElse_complete {guard : Guard .kwIf} {thenBranch elseBranch : Passage .statement}
    {separator : Word .kwElse} (hthen : thenBranch.Complete) (helse : elseBranch.Complete) :
    (Passage.ifElse guard thenBranch separator elseBranch).Complete := by
  intro eof budget counter rest ⟨hcomplete, hthenNearest, helseNearest⟩ hclosed
  apply meets_statement eof budget counter rest (lt_peak _ _)
  intro less
  have hfirst := hthen eof less (counter + 1) (separator.val :: (elseBranch.tokens ++ rest))
    hthenNearest (by simp [hcomplete])
  have hsecond := helse eof less (counter + 1) rest helseNearest hclosed
  have hbranch : ((parts .script eof less).branch guard.keyword.val.span).Meets
      (guard.condition.peak (counter + 1) ≤ counter + 1 + less ∧
        (thenBranch.peak (counter + 1) ≤ counter + 1 + less ∧
          elseBranch.peak (counter + 1) ≤ counter + 1 + less))
      (guard.tokens.tail ++ (thenBranch.tokens ++ separator.val :: (elseBranch.tokens ++ rest)))
      (Passage.ifElse guard thenBranch separator elseBranch).tree rest := by
    refine guard.meets eof less (counter + 1) rest (hfirst.bind ?_)
    exact .accept_bind (hsecond.bind_accepts (Rule.accepts_pure.mpr ⟨rfl, rfl⟩)) separator.property
  apply (hbranch.congr (by simp only [peak, Nat.max_le])).of_eq
  simp [tokens, Guard.tokens, Parts.body, guard.keyword.property]

theorem whileLoop_complete {guard : Guard .kwWhile} {body : Passage .statement}
    (h : body.Complete) : (Passage.whileLoop guard body).Complete := by
  intro eof budget counter rest hnearest hclosed
  apply meets_statement eof budget counter rest (lt_peak _ _)
  intro less
  have hbody := h eof less (counter + 1) rest hnearest hclosed
  have hloop : ((parts .script eof less).loop guard.keyword.val.span).Meets
      (guard.condition.peak (counter + 1) ≤ counter + 1 + less ∧
        body.peak (counter + 1) ≤ counter + 1 + less)
      (guard.tokens.tail ++ (body.tokens ++ rest)) (Passage.whileLoop guard body).tree rest :=
    guard.meets eof less (counter + 1) rest
      (hbody.bind_accepts (Rule.accepts_pure.mpr ⟨rfl, rfl⟩))
  apply (hloop.congr Nat.max_le.symm).of_eq
  simp [tokens, Guard.tokens, Parts.body, guard.keyword.property]

theorem forLoop_complete {header : ForHeader} {body : Passage .statement} (h : body.Complete) :
    (Passage.forLoop header body).Complete := by
  intro eof budget counter rest hnearest hclosed
  apply meets_statement eof budget counter rest (lt_peak _ _)
  intro less
  have hbody := h eof less (counter + 1) rest hnearest hclosed
  have hloop : ((parts .script eof less).forLoop header.keyword.val.span).Meets
      (header.peak (counter + 1) ≤ counter + 1 + less ∧
        body.peak (counter + 1) ≤ counter + 1 + less)
      (header.tokens.tail ++ (body.tokens ++ rest)) (Passage.forLoop header body).tree rest := by
    refine (header.meets eof less (counter + 1) _).bind (hbody.bind_accepts ?_)
    exact Rule.accepts_pure.mpr ⟨header.toLoop_eq_tree body.tree, rfl⟩
  apply (hloop.congr Nat.max_le.symm).of_eq
  simp [tokens, ForHeader.tokens, Parts.body, header.keyword.property]

theorem declare_complete (decl : VarDecl) : (Passage.declare decl).Complete := by
  intro eof budget counter rest _ _
  exact .accept_bind (meets_declaration eof budget counter rest decl) decl.keyword.property

theorem nextKind_ne_else (others : Passage .sequence) (rest : List Token)
    (hrest : nextKind rest = none ∨ nextKind rest = some .rightBrace) :
    nextKind (others.tokens ++ rest) ≠ some .kwElse := by
  cases others with
  | empty => rcases hrest with h | h <;> simp [tokens, h]
  | more decl others =>
    obtain ⟨token, more, htokens, -, helse, -⟩ := decl.exists_start (by decide)
    simpa [tokens, htokens] using helse

theorem statement_complete {stmt : Passage .statement} (h : stmt.Complete) :
    (Passage.statement stmt).Complete := by
  intro eof budget counter rest hnearest hclosed
  obtain ⟨token, more, htokens, -, -, hvar⟩ := stmt.exists_start (by decide)
  apply Rule.Meets.accept_none_bind (h eof budget counter rest hnearest hclosed)
  simpa [tokens, htokens] using hvar rfl

theorem empty_complete : Passage.empty.Complete := by
  intro eof budget counter bound rest _ hrest _
  have hitems : ((parts .script eof budget).items bound).Accepts rest [] rest := by
    cases bound with
    | zero => rfl
    | succ bound =>
      refine Rule.accepts_bind.mpr ⟨_, _, Rule.accepts_peek.mpr ⟨rfl, rfl⟩, ?_⟩
      rcases hrest with hrest | hrest <;> rw [hrest] <;> exact Rule.accepts_pure.mpr ⟨rfl, rfl⟩
  exact hitems.meets.congr (by simp [peak])

theorem Complete.meets_item {decl : Passage .declaration} (h : decl.Complete) (eof : Span)
    (budget counter : Nat) {rest : List Token} (hnearest : decl.Nearest)
    (hrest : nextKind rest ≠ some .kwElse) :
    (parts .script eof budget).item.Meets (decl.peak counter ≤ counter + budget)
      (decl.tokens ++ rest) (some decl.tree) rest := by
  rw [Parts.item, parts_eof]
  exact meets_recovering eof (h eof budget counter rest hnearest fun _ ↦ hrest)

theorem more_complete {decl : Passage .declaration} {others : Passage .sequence}
    (hdecl : decl.Complete) (hothers : others.Complete) : (decl.more others).Complete := by
  intro eof budget counter bound rest ⟨hfirst, hsecond⟩ hrest hbound
  obtain ⟨token, more, htokens, hbrace, -, -⟩ := decl.exists_start (by decide)
  cases bound with
  | zero => simp [tokens, htokens] at hbound
  | succ bound =>
    have hitem := hdecl.meets_item eof budget counter hfirst (others.nextKind_ne_else rest hrest)
    have hlength : others.tokens.length ≤ bound := by
      simp only [tokens, htokens, List.length_append, List.length_cons] at hbound
      omega
    have hitems := hothers eof budget counter bound rest hsecond hrest hlength
    have hnext : nextKind ((decl.more others).tokens ++ rest) = some token.kind := by
      simp [tokens, htokens]
    refine (Rule.accepts_peek.mpr ⟨hnext, rfl⟩).meets_bind ?_
    split
    · next heq => cases heq
    · next heq => exact absurd (Option.some.inj heq) hbrace
    · rw [tokens, List.append_assoc]
      refine Rule.Meets.congr (hitem.bind (hitems.bind_accepts ?_)) Nat.max_le.symm
      exact Rule.accepts_pure.mpr ⟨rfl, rfl⟩

theorem complete {category : Category} (passage : Passage category) : passage.Complete := by
  induction passage with
  | expression stmt => exact expression_complete stmt
  | print keyword expr closing => exact print_complete keyword expr closing
  | block _ _ _ ih => exact block_complete ih
  | ifThen _ _ ih => exact ifThen_complete ih
  | ifElse _ _ _ _ hthen helse => exact ifElse_complete hthen helse
  | whileLoop _ _ ih => exact whileLoop_complete ih
  | forLoop _ _ ih => exact forLoop_complete ih
  | declare decl => exact declare_complete decl
  | statement _ ih => exact statement_complete ih
  | empty => exact empty_complete
  | more _ _ hdecl hothers => exact more_complete hdecl hothers

end Passage

/-! ## Programs -/

/-- The counter of a sequence decides between its tree and a single fault. -/
theorem collect_complete (eof : Span) (budget counter : Nat) (passage : Passage .sequence)
    (hnearest : passage.Nearest) {bound : Nat} (hbound : passage.tokens.length ≤ bound) :
    (passage.peak counter ≤ counter + budget →
      Program.collect eof (parts .script eof budget).item bound passage.tokens =
        ⟨passage.tree, []⟩) ∧
    (¬passage.peak counter ≤ counter + budget →
      ∃ fault, (Program.collect eof (parts .script eof budget).item bound passage.tokens).faults =
        [fault] ∧ fault.issue = .nestingTooDeep) := by
  induction bound generalizing passage with
  | zero =>
    cases passage with
    | empty => exact ⟨fun _ ↦ rfl, fun h ↦ absurd (Nat.le_add_right _ _) h⟩
    | more decl others =>
      obtain ⟨token, more, htokens, -⟩ := decl.exists_start (by decide)
      simp [Passage.tokens, htokens] at hbound
  | succ bound ih =>
    cases passage with
    | empty => exact ⟨fun _ ↦ rfl, fun h ↦ absurd (Nat.le_add_right _ _) h⟩
    | more decl others =>
      obtain ⟨token, more, htokens, -⟩ := decl.exists_start (by decide)
      have hfollow : nextKind others.tokens ≠ some .kwElse := by
        simpa using others.nextKind_ne_else [] (.inl rfl)
      have hitem := decl.complete.meets_item eof budget counter hnearest.1 hfollow
      have hlength : others.tokens.length ≤ bound := by
        simp only [Passage.tokens, htokens, List.length_append, List.length_cons] at hbound
        omega
      obtain ⟨hreads, hexceeds⟩ := ih others hnearest.2 hlength
      rw [htokens, List.cons_append] at hitem
      simp only [Passage.peak, Nat.max_le, Passage.tokens, htokens, List.cons_append,
        Program.collect]
      constructor
      · rintro ⟨hfirst, hsecond⟩
        rw [show _ = _ from hitem.accepts hfirst]
        simp only [hreads hsecond]
        rfl
      · intro hnot
        by_cases hfirst : decl.peak counter ≤ counter + budget
        · rw [show _ = _ from hitem.accepts hfirst]
          exact hexceeds fun hsecond ↦ hnot ⟨hfirst, hsecond⟩
        · obtain ⟨left, hleft⟩ := hitem.exceeds hfirst
          rw [hleft]
          exact ⟨.atNext eof .nestingTooDeep left, rfl, by cases left <;> rfl⟩

/-! ## The nearest `if` -/

namespace Passage

/-- An `else` behind a dangling passage can be given to the last `if` in it. -/
theorem exists_attach {category : Category} (passage : Passage category) (hnearest : passage.Nearest)
    (hdangling : passage.dangling = true) (separator : Word .kwElse)
    (elseBranch : Passage .statement) (helse : elseBranch.Nearest) :
    ∃ other : Passage category, other.Nearest ∧
      other.tokens = passage.tokens ++ separator.val :: elseBranch.tokens := by
  induction passage with
  | ifThen guard thenBranch ih =>
    by_cases hthen : thenBranch.dangling = true
    · obtain ⟨other, hother, htokens⟩ := ih hnearest hthen
      exact ⟨.ifThen guard other, hother, by simp [tokens, htokens]⟩
    · exact ⟨.ifElse guard thenBranch separator elseBranch,
        ⟨by simpa using hthen, hnearest, helse⟩, by simp [tokens]⟩
  | ifElse guard thenBranch middle last _ ih =>
    obtain ⟨hcomplete, hthen, hlast⟩ := hnearest
    obtain ⟨other, hother, htokens⟩ := ih hlast hdangling
    exact ⟨.ifElse guard thenBranch middle other, ⟨hcomplete, hthen, hother⟩,
      by simp [tokens, htokens]⟩
  | whileLoop guard body ih =>
    obtain ⟨other, hother, htokens⟩ := ih hnearest hdangling
    exact ⟨.whileLoop guard other, hother, by simp [tokens, htokens]⟩
  | forLoop header body ih =>
    obtain ⟨other, hother, htokens⟩ := ih hnearest hdangling
    exact ⟨.forLoop header other, hother, by simp [tokens, htokens]⟩
  | statement stmt ih =>
    obtain ⟨other, hother, htokens⟩ := ih hnearest hdangling
    exact ⟨.statement other, hother, by simp [tokens, htokens]⟩
  | expression => cases hdangling
  | print => cases hdangling
  | block => cases hdangling
  | declare => cases hdangling
  | empty => cases hdangling
  | more => cases hdangling

/-- Every derivable text has a derivation with each `else` at the nearest `if`. -/
theorem exists_nearest {category : Category} (passage : Passage category) :
    ∃ other : Passage category, other.Nearest ∧ other.tokens = passage.tokens := by
  induction passage with
  | expression stmt => exact ⟨.expression stmt, trivial, rfl⟩
  | print keyword expr closing => exact ⟨.print keyword expr closing, trivial, rfl⟩
  | block opening body closing ih =>
    obtain ⟨other, hother, htokens⟩ := ih
    exact ⟨.block opening other closing, hother, by simp [tokens, htokens]⟩
  | ifThen guard thenBranch ih =>
    obtain ⟨other, hother, htokens⟩ := ih
    exact ⟨.ifThen guard other, hother, by simp [tokens, htokens]⟩
  | ifElse guard thenBranch separator elseBranch hthen helse =>
    obtain ⟨first, hfirst, hfirstTokens⟩ := hthen
    obtain ⟨second, hsecond, hsecondTokens⟩ := helse
    obtain ⟨other, hother, htokens⟩ :=
      (Passage.ifThen guard first).exists_attach hfirst rfl separator second hsecond
    exact ⟨other, hother, by simp [htokens, tokens, hfirstTokens, hsecondTokens]⟩
  | whileLoop guard body ih =>
    obtain ⟨other, hother, htokens⟩ := ih
    exact ⟨.whileLoop guard other, hother, by simp [tokens, htokens]⟩
  | forLoop header body ih =>
    obtain ⟨other, hother, htokens⟩ := ih
    exact ⟨.forLoop header other, hother, by simp [tokens, htokens]⟩
  | declare decl => exact ⟨.declare decl, trivial, rfl⟩
  | statement stmt ih =>
    obtain ⟨other, hother, htokens⟩ := ih
    exact ⟨.statement other, hother, by simp [tokens, htokens]⟩
  | empty => exact ⟨.empty, trivial, rfl⟩
  | more decl others hdecl hothers =>
    obtain ⟨first, hfirst, hfirstTokens⟩ := hdecl
    obtain ⟨second, hsecond, hsecondTokens⟩ := hothers
    exact ⟨.more first second, ⟨hfirst, hsecond⟩, by simp [tokens, hfirstTokens, hsecondTokens]⟩

end Passage

end Grammar

/-- Within the limit the tree of the derivation is read. -/
theorem Program.parse_eq_tree {derivation : Grammar.Passage .sequence} {mark : Token}
    (hnearest : derivation.Nearest) (htokens : ∀ token ∈ derivation.tokens, token.kind ≠ .eof)
    (hmark : mark.kind = .eof) (hpeak : derivation.peak 0 ≤ nestingLimit) :
    Program.parse .script (derivation.tokens ++ [mark]) = ⟨derivation.tree, []⟩ := by
  obtain ⟨hreads, -⟩ :=
    Grammar.collect_complete mark.span nestingLimit 0 derivation hnearest (Nat.le_refl _)
  rw [Nat.zero_add] at hreads
  simp only [Program.parse, TokenInput.ofList_append_endMark htokens hmark]
  exact hreads hpeak

/-- Past the limit there is one fault. -/
theorem Program.parse_exceeds {derivation : Grammar.Passage .sequence} {mark : Token}
    (hnearest : derivation.Nearest) (htokens : ∀ token ∈ derivation.tokens, token.kind ≠ .eof)
    (hmark : mark.kind = .eof) (hpeak : nestingLimit < derivation.peak 0) :
    ∃ fault, (Program.parse .script (derivation.tokens ++ [mark])).faults = [fault] ∧
      fault.issue = .nestingTooDeep := by
  obtain ⟨-, hexceeds⟩ :=
    Grammar.collect_complete mark.span nestingLimit 0 derivation hnearest (Nat.le_refl _)
  rw [Nat.zero_add] at hexceeds
  simp only [Program.parse, TokenInput.ofList_append_endMark htokens hmark]
  exact hexceeds (Nat.not_le.mpr hpeak)

/-- Every derivable text has a derivation with each `else` at the nearest `if`, and the
nesting charge of that derivation decides what the text is read as: its tree within the
limit, a single fault past it. -/
theorem Program.parse_complete {tokens : List Token} {mark : Token}
    (htokens : ∀ token ∈ tokens, token.kind ≠ .eof) (hmark : mark.kind = .eof)
    (hderivable : ∃ derivation : Grammar.Passage .sequence, derivation.tokens = tokens) :
    (∃ derivation : Grammar.Passage .sequence, derivation.Nearest ∧ derivation.tokens = tokens) ∧
      ∀ derivation : Grammar.Passage .sequence, derivation.Nearest → derivation.tokens = tokens →
        (derivation.peak 0 ≤ nestingLimit →
          Program.parse .script (tokens ++ [mark]) = ⟨derivation.tree, []⟩) ∧
        (nestingLimit < derivation.peak 0 →
          ∃ fault, (Program.parse .script (tokens ++ [mark])).faults = [fault] ∧
            fault.message = "Nesting is too deep") := by
  obtain ⟨known, hknown⟩ := hderivable
  refine ⟨hknown ▸ known.exists_nearest, fun derivation hnearest hfrontier ↦ ?_⟩
  subst hfrontier
  refine ⟨Program.parse_eq_tree hnearest htokens hmark, fun hpeak ↦ ?_⟩
  obtain ⟨fault, hfaults, hissue⟩ := Program.parse_exceeds hnearest htokens hmark hpeak
  refine ⟨fault, hfaults, ?_⟩
  rw [Fault.message, hissue]
  rfl

namespace Grammar

/-- A chain of the tier `term` as an operand of `and`. -/
def Phrase.ofTerm (term : Phrase (.tier .term)) : Phrase (.tier .conjunction) :=
  .first (.first (.first term))

/-- The derivation of `if (a) if (b) c; else d = e - f - g or h;` with the `else` at the nearest
`if`. -/
def Passage.danglingElse : Passage .sequence :=
  let name (lexeme : String) (start : Nat) : Word .identifier :=
    ⟨⟨.identifier, lexeme, none, .single start 1⟩, rfl⟩
  let factor (lexeme : String) (start : Nat) : Phrase (.tier .factor) :=
    .first (.primary (.reference (name lexeme start)))
  let value (lexeme : String) (start : Nat) : Phrase .expression :=
    .expression (.simple (.first (.ofTerm (.first (factor lexeme start)))))
  let minus (start : Nat) : ChainOperator .term :=
    ⟨⟨.minus, "-", none, .single start 1⟩, .binary .subtract, List.mem_cons_self⟩
  let either : ChainOperator .disjunction :=
    ⟨⟨.kwOr, "or", none, ⟨36, 38, 1⟩⟩, .logical .or, List.mem_cons_self⟩
  let guard (lexeme : String) (start : Nat) : Guard .kwIf :=
    ⟨⟨⟨.kwIf, "if", none, ⟨start, start + 2, 1⟩⟩, rfl⟩,
      ⟨⟨.leftParen, "(", none, .single (start + 3) 1⟩, rfl⟩, value lexeme (start + 4),
      ⟨⟨.rightParen, ")", none, .single (start + 5) 1⟩, rfl⟩⟩
  let closing (start : Nat) : Word .semicolon := ⟨⟨.semicolon, ";", none, .single start 1⟩, rfl⟩
  let difference : Phrase (.tier .term) :=
    .link (.link (.first (factor "e" 26)) (minus 28) (factor "f" 30)) (minus 32) (factor "g" 34)
  let choice : Phrase (.tier .disjunction) :=
    .link (.first (.ofTerm difference)) either (.ofTerm (.first (factor "h" 39)))
  let assigned : Phrase .assignment :=
    .assign (name "d" 22) ⟨⟨.equal, "=", none, .single 24 1⟩, rfl⟩ (.simple choice)
  .more (.statement (.ifThen (guard "a" 0) (.ifElse (guard "b" 7)
    (.expression ⟨value "c" 14, closing 15⟩) ⟨⟨.kwElse, "else", none, ⟨17, 21, 1⟩⟩, rfl⟩
    (.expression ⟨.expression assigned, closing 40⟩)))) .empty

end Grammar

theorem Program.parse_complete_danglingElse :
    Grammar.Passage.danglingElse.tokens = Token.danglingElse ∧
      Grammar.Passage.danglingElse.tree = [Stmt.danglingElse] ∧
      Program.parse .script (Token.danglingElse ++ [.endMark ⟨41, 41, 1⟩]) =
        ⟨[Stmt.danglingElse], []⟩ := by
  have hnearest : Grammar.Passage.danglingElse.Nearest := ⟨⟨rfl, trivial, trivial⟩, trivial⟩
  have htokens : ∀ token ∈ Token.danglingElse, token.kind ≠ .eof := by decide
  have hmark : (Token.endMark ⟨41, 41, 1⟩).kind = .eof := rfl
  have hcomplete := Program.parse_complete htokens hmark ⟨Grammar.Passage.danglingElse, rfl⟩
  exact ⟨rfl, rfl, (hcomplete.2 Grammar.Passage.danglingElse hnearest rfl).1 (by decide)⟩

end LoxLang
