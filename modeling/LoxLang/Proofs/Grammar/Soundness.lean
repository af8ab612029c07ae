import LoxLang.Program
import LoxLang.Proofs.Grammar.Derivation
import LoxLang.Proofs.Grammar.Reading

/-!
# What is accepted is derivable

Whatever a rule reads without a fault has a derivation: the tokens it took are the frontier
and the value it gave is the tree. The nesting counter of the derivation stays within the
levels that the rule had left, so the rules for expressions are treated by induction on
these levels, each rule under the assumption that the level below is sound. Statements
follow in the same way, and a program is a run of declarations that uses up the input.
-/

namespace LoxLang

theorem Tier.connective?_eq_some_iff {tier : Tier} {kind : Token.Kind} {connective : Connective} :
    tier.connective? kind = some connective ↔ (kind, connective) ∈ tier.operators := by
  cases tier <;> cases kind <;> simp [Tier.connective?, Tier.operators, eq_comm]

namespace Grammar

theorem ofKind?_eq_some_iff {kind : Token.Kind} {op : UnaryOp} :
    UnaryOp.ofKind? kind = some op ↔ (kind, op) ∈ prefixOperators := by
  cases kind <;> simp [UnaryOp.ofKind?, prefixOperators, eq_comm]

/-- What is read with chains of the given tiers. -/
def symbolOf : List Tier → Symbol
  | [] => .unary
  | tier :: _ => .tier tier

theorem symbolOf_tighter {tier : Tier} {tighter : List Tier} (h : tier :: tighter <:+ Tier.all) :
    symbolOf tighter = operandOf tier := by
  simp only [Tier.all, List.suffix_cons_iff, List.cons.injEq, List.suffix_nil, reduceCtorEq,
    or_false] at h
  rcases h with ⟨rfl, rfl⟩ | ⟨rfl, rfl⟩ | ⟨rfl, rfl⟩ | ⟨rfl, rfl⟩ | ⟨rfl, rfl⟩ | ⟨rfl, rfl⟩ <;> rfl

/-- An operator is read as the node that the derivation names for it. -/
theorem Phrase.tree_link {tier : Tier} (left : Phrase (.tier tier)) (operator : ChainOperator tier)
    (right : Phrase (operandOf tier)) :
    (left.link operator right).tree = operator.connective.join left.tree right.tree := by
  obtain ⟨token, connective, listed⟩ := operator
  cases connective with
  | binary op => rfl
  | logical op => rfl

/-! ## Expressions -/

/-- The derivation accounts for what was read from the input with the given levels left. -/
structure Phrase.Explains {symbol : Symbol} (phrase : Phrase symbol) (budget : Nat)
    (input : List Token) (expr : Expr) (rest : List Token) : Prop where
  frontier : input = phrase.tokens ++ rest
  tree : phrase.tree = expr
  within : ∀ counter, phrase.peak counter ≤ counter + budget

structure Level.Sound (level : Level) (budget : Nat) : Prop where
  assignment {input rest : List Token} {expr : Expr} :
    level.assignment.Accepts input expr rest →
      ∃ phrase : Phrase .assignment, phrase.Explains budget input expr rest
  unary {input rest : List Token} {expr : Expr} :
    level.unary.Accepts input expr rest →
      ∃ phrase : Phrase .unary, phrase.Explains budget input expr rest
  operand {tiers : List Tier} {input rest : List Token} {expr : Expr} :
    tiers <:+ Tier.all → (level.operand tiers).Accepts input expr rest →
      ∃ phrase : Phrase (symbolOf tiers), phrase.Explains budget input expr rest
  chain {tier : Tier} {tighter : List Tier} {input rest before : List Token} {left expr : Expr}
    {start : Phrase (.tier tier)} :
    tier :: tighter <:+ Tier.all → start.Explains (budget + start.links) before left input →
      (level.chain tier tighter left).Accepts input expr rest →
        ∃ phrase : Phrase (.tier tier), phrase.Explains (budget + start.links) before expr rest

/-- The level below, if there is one, is sound with one level less. -/
def SoundBelow (below : Option Level) (budget : Nat) : Prop :=
  ∀ level, below = some level → ∃ less, budget = less + 1 ∧ level.Sound less

variable {below : Option Level} {budget : Nat} {input rest : List Token} {expr : Expr}

theorem group_sound (hbelow : SoundBelow below budget) {opening : Token}
    (hopening : opening.kind = .leftParen)
    (h : (group below opening.span).Accepts input expr rest) :
    ∃ phrase : Phrase .primary, phrase.Explains budget (opening :: input) expr rest := by
  simp only [group, Rule.accepts_bind, Rule.accepts_peek] at h
  obtain ⟨_, _, ⟨rfl, rfl⟩, h⟩ := h
  split at h
  · simp at h
  · simp only [Rule.accepts_bind, accepts_deeper, Rule.accepts_expect, Rule.accepts_pure] at h
    obtain ⟨inner, middle, ⟨level, hlevel, hinner⟩, closing, _, ⟨hclosing, rfl⟩, rfl, rfl⟩ := h
    obtain ⟨less, rfl, hsound⟩ := hbelow level hlevel
    obtain ⟨phrase, rfl, rfl, hwithin⟩ := hsound.assignment hinner
    refine ⟨.group ⟨opening, hopening⟩ (.expression phrase) ⟨closing, hclosing⟩, ?_, rfl, ?_⟩
    · simp [Phrase.tokens]
    · intro counter
      have := hwithin (counter + 1)
      simp only [Phrase.peak]
      omega

theorem accepts_primary_cons {token : Token} :
    (primary below).Accepts (token :: input) expr rest ↔
      (∃ value, token.value? = some value ∧ .literal value token.span = expr ∧ input = rest) ∨
      (token.kind = .identifier ∧ .reference token.lexeme token.span = expr ∧ input = rest) ∨
      (token.kind = .leftParen ∧ (group below token.span).Accepts input expr rest) := by
  obtain ⟨kind, lexeme, literal, span⟩ := token
  rcases literal with - | x | s <;> cases kind <;>
    simp [Rule.Accepts, primary, Token.value?, Rule.done, Rule.fail]

theorem primary_sound (hbelow : SoundBelow below budget)
    (h : (primary below).Accepts input expr rest) :
    ∃ phrase : Phrase .primary, phrase.Explains budget input expr rest := by
  cases input with
  | nil => exact absurd h Rule.accepts_fail
  | cons token input =>
    obtain ⟨value, hvalue, rfl, rfl⟩ | ⟨hkind, rfl, rfl⟩ | ⟨hkind, h⟩ := accepts_primary_cons.mp h
    · exact ⟨.literal token value hvalue, rfl, rfl, fun _ ↦ Nat.le_add_right _ _⟩
    · exact ⟨.reference ⟨token, hkind⟩, rfl, rfl, fun _ ↦ Nat.le_add_right _ _⟩
    · exact group_sound hbelow hkind h

theorem unary_sound (hbelow : SoundBelow below budget)
    (h : (unary below).Accepts input expr rest) :
    ∃ phrase : Phrase .unary, phrase.Explains budget input expr rest := by
  have hprimary (h : (primary below).Accepts input expr rest) :
      ∃ phrase : Phrase .unary, phrase.Explains budget input expr rest := by
    obtain ⟨phrase, hfrontier, htree, hwithin⟩ := primary_sound hbelow h
    exact ⟨.primary phrase, hfrontier, htree, hwithin⟩
  cases input with
  | nil => exact hprimary h
  | cons token input =>
    simp only [Rule.Accepts, unary] at h
    split at h
    · exact hprimary h
    · next op hop =>
      change (deeper below Level.unary >>= _).Accepts input expr rest at h
      simp only [Rule.accepts_bind, accepts_deeper, Rule.accepts_pure] at h
      obtain ⟨operand, middle, ⟨level, hlevel, hoperand⟩, rfl, rfl⟩ := h
      obtain ⟨less, rfl, hsound⟩ := hbelow level hlevel
      obtain ⟨phrase, rfl, rfl, hwithin⟩ := hsound.unary hoperand
      refine ⟨.signed ⟨token, op, ofKind?_eq_some_iff.mp hop⟩ phrase, rfl, rfl, fun counter ↦ ?_⟩
      have := hwithin (counter + 1)
      simp only [Phrase.peak]
      omega

/-- One more operator extends the chain read so far. -/
theorem chain_sound (hbelow : SoundBelow below budget) {tier : Tier} {tighter : List Tier}
    {before : List Token} {left : Expr} {start : Phrase (.tier tier)}
    (htiers : tier :: tighter <:+ Tier.all)
    (hstart : start.Explains (budget + start.links) before left input)
    (h : (chain below tier tighter left).Accepts input expr rest) :
    ∃ phrase : Phrase (.tier tier), phrase.Explains (budget + start.links) before expr rest := by
  have hstop (h : (Rule.done left).Accepts input expr rest) :
      ∃ phrase : Phrase (.tier tier), phrase.Explains (budget + start.links) before expr rest := by
    obtain ⟨rfl, rfl⟩ := Rule.accepts_done.mp h
    exact ⟨start, hstart⟩
  cases input with
  | nil => exact hstop h
  | cons token input =>
    simp only [Rule.Accepts, chain] at h
    split at h
    · exact hstop h
    · next connective hconnective =>
      change (deeper below _).Accepts input expr rest at h
      simp only [accepts_deeper, Rule.accepts_bind] at h
      obtain ⟨level, hlevel, right, middle, hright, hrest⟩ := h
      obtain ⟨less, rfl, hsound⟩ := hbelow level hlevel
      have hoperand := hsound.operand ((List.suffix_cons tier tighter).trans htiers) hright
      rw [symbolOf_tighter htiers] at hoperand
      obtain ⟨operand, rfl, rfl, hwithin⟩ := hoperand
      obtain ⟨rfl, rfl, hleft⟩ := hstart
      have hlonger : (start.link ⟨token, connective, Tier.connective?_eq_some_iff.mp hconnective⟩
          operand).Explains (less + (start.links + 1))
          (start.tokens ++ token :: (operand.tokens ++ middle))
          (connective.join start.tree operand.tree) middle := by
        refine ⟨by simp [Phrase.tokens], start.tree_link _ operand, fun counter ↦ ?_⟩
        have hfirst := hleft counter
        have hsecond := hwithin (counter + (start.links + 1))
        simp only [Phrase.peak]
        omega
      have hbudget : less + 1 + start.links = less + (start.links + 1) := by omega
      rw [hbudget]
      exact hsound.chain htiers hlonger hrest

theorem operand_sound (hbelow : SoundBelow below budget) {tiers : List Tier}
    (htiers : tiers <:+ Tier.all) (h : (operand below tiers).Accepts input expr rest) :
    ∃ phrase : Phrase (symbolOf tiers), phrase.Explains budget input expr rest := by
  induction tiers generalizing expr rest with
  | nil => exact unary_sound hbelow h
  | cons tier tighter ih =>
    simp only [operand, Rule.accepts_bind] at h
    obtain ⟨left, middle, hleft, hchain⟩ := h
    have hfirst := ih ((List.suffix_cons tier tighter).trans htiers) hleft
    rw [symbolOf_tighter htiers] at hfirst
    obtain ⟨phrase, hfrontier, htree, hwithin⟩ := hfirst
    have hstart : (Phrase.first phrase).Explains budget input left middle :=
      ⟨hfrontier, htree, hwithin⟩
    exact chain_sound hbelow htiers hstart hchain

/-- A phrase with the tree of a bare name is that name. -/
theorem Phrase.tokens_of_tree_eq_reference {symbol : Symbol} {name : String} {span : Span}
    {phrase : Phrase symbol} (h : phrase.tree = .reference name span) :
    ∃ word : Word .identifier, phrase.tokens = [word.val] ∧ word.val.lexeme = name ∧
      word.val.span = span := by
  induction phrase with
  | expression inner ih => exact ih h
  | simple operand ih => exact ih h
  | first operand ih => exact ih h
  | primary inner ih => exact ih h
  | reference word =>
    simp only [tree, Expr.reference.injEq] at h
    exact ⟨word, rfl, h⟩
  | link left operator right =>
    simp only [tree] at h
    split at h <;> cases h
  | assign => cases h
  | signed => cases h
  | literal => cases h
  | group => cases h

theorem assignment_sound (hbelow : SoundBelow below budget)
    (h : (assignment below).Accepts input expr rest) :
    ∃ phrase : Phrase .assignment, phrase.Explains budget input expr rest := by
  simp only [assignment, Rule.accepts_bind] at h
  obtain ⟨target, middle, htarget, found, after, hfound, h⟩ := h
  obtain ⟨phrase, rfl, rfl, hwithin⟩ := operand_sound hbelow (List.suffix_refl _) htarget
  cases found with
  | none =>
    obtain ⟨-, rfl⟩ := Rule.accepts_accept_none.mp hfound
    obtain ⟨rfl, rfl⟩ := Rule.accepts_pure.mp h
    exact ⟨.simple phrase, rfl, rfl, hwithin⟩
  | some equals =>
    obtain ⟨hequals, rfl⟩ := Rule.accepts_accept_some.mp hfound
    simp only [Rule.accepts_bind, accepts_deeper] at h
    obtain ⟨value, last, ⟨level, hlevel, hvalue⟩, h⟩ := h
    obtain ⟨less, rfl, hsound⟩ := hbelow level hlevel
    obtain ⟨assigned, rfl, rfl, hassigned⟩ := hsound.assignment hvalue
    split at h
    · next name span hreference =>
      obtain ⟨word, htokens, rfl, rfl⟩ := Phrase.tokens_of_tree_eq_reference hreference
      obtain ⟨rfl, rfl⟩ := Rule.accepts_pure.mp h
      refine ⟨.assign word ⟨equals, hequals⟩ assigned, ?_, rfl, fun counter ↦ ?_⟩
      · simp [Phrase.tokens, htokens]
      · have := hassigned (counter + 1)
        simp only [Phrase.peak]
        omega
    · simp at h

theorem Level.sound_above (hbelow : SoundBelow below budget) : (Level.above below).Sound budget where
  assignment := assignment_sound hbelow
  unary := unary_sound hbelow
  operand := operand_sound hbelow
  chain := chain_sound hbelow

theorem level_sound (budget : Nat) : (level budget).Sound budget := by
  induction budget with
  | zero => exact Level.sound_above (by simp [SoundBelow])
  | succ budget ih =>
    apply Level.sound_above
    rintro _ ⟨⟩
    exact ⟨budget, rfl, ih⟩

theorem expression_sound (h : (Grammar.expression budget).Accepts input expr rest) :
    ∃ phrase : Phrase .expression, phrase.Explains budget input expr rest := by
  cases budget with
  | zero => exact absurd h Rule.accepts_tooDeep
  | succ budget =>
    obtain ⟨phrase, hfrontier, htree, hwithin⟩ := (level_sound budget).assignment h
    refine ⟨.expression phrase, hfrontier, htree, fun counter ↦ ?_⟩
    have := hwithin (counter + 1)
    simp only [Phrase.peak]
    omega

/-! ## Statements -/

theorem accepts_recovering {α : Type} {eof : Span} {rule : Rule α} {found : Option α} :
    (recovering eof rule).Accepts input found rest ↔
      ∃ value, found = some value ∧ rule.Accepts input value rest := by
  simp only [Rule.Accepts, recovering]
  constructor
  · intro h
    split at h
    · next faults value left hreading =>
      simp only [Reading.mk.injEq, Outcome.done.injEq] at h
      obtain ⟨rfl, rfl, rfl⟩ := h
      exact ⟨value, rfl, hreading⟩
    · simp at h
    · simp at h
  · rintro ⟨value, rfl, hreading⟩
    rw [hreading]

/-- The derivation accounts for what was read from the input with the given levels left, and
an `else` behind it would have been read with it. -/
structure Passage.Explains {category : Category} (passage : Passage category) (budget : Nat)
    (input : List Token) (tree : category.Tree) (rest : List Token) : Prop where
  frontier : input = passage.tokens ++ rest
  tree : passage.tree = tree
  nearest : passage.Nearest
  closed : passage.dangling = true → nextKind rest ≠ some .kwElse
  within : ∀ counter, passage.peak counter ≤ counter + budget

/-- The clauses of a header, as they are read, give its loop. -/
theorem ForHeader.toLoop_eq_tree (header : ForHeader) (body : Stmt) :
    ForClauses.toLoop ⟨header.initial.tree?, header.condition.map Phrase.tree,
      header.separator.val.span, header.increment.map Phrase.tree⟩ body
      (header.keyword.val.span.cover body.span) = header.tree body := by
  obtain ⟨keyword, opening, initial, condition, separator, increment, closing⟩ := header
  cases condition <;> cases increment <;> rfl

structure Parts.Sound (parts : Parts) (budget : Nat) : Prop where
  script : parts.mode = .script
  expression {input rest : List Token} {expr : Expr} :
    parts.expression.Accepts input expr rest →
      ∃ phrase : Phrase .expression, phrase.Explains budget input expr rest
  statement {input rest : List Token} {stmt : Stmt} :
    parts.statement.Accepts input stmt rest →
      ∃ passage : Passage .statement, passage.Explains budget input stmt rest

namespace Parts

variable {parts : Parts} {stmt : Stmt}

theorem declaration_sound (hparts : parts.Sound budget) {keyword : Token}
    (hkeyword : keyword.kind = .kwVar)
    (h : (parts.declaration keyword.span).Accepts input stmt rest) :
    ∃ decl : VarDecl, keyword :: input = decl.tokens ++ rest ∧ decl.tree = stmt ∧
      ∀ counter, decl.peak counter ≤ counter + budget := by
  simp only [declaration, Rule.accepts_bind, Rule.accepts_expect] at h
  obtain ⟨name, _, ⟨hname, rfl⟩, found, middle, hfound, h⟩ := h
  cases found with
  | none =>
    obtain ⟨-, rfl⟩ := Rule.accepts_accept_none.mp hfound
    simp only [Rule.accepts_bind, Rule.accepts_pure, Rule.accepts_expect] at h
    obtain ⟨_, _, ⟨rfl, rfl⟩, closing, _, ⟨hclosing, rfl⟩, rfl, rfl⟩ := h
    exact ⟨⟨⟨keyword, hkeyword⟩, ⟨name, hname⟩, none, ⟨closing, hclosing⟩⟩, rfl, rfl,
      fun _ ↦ Nat.le_add_right _ _⟩
  | some equals =>
    obtain ⟨hequals, rfl⟩ := Rule.accepts_accept_some.mp hfound
    simp only [Rule.accepts_bind, Rule.accepts_map, Rule.accepts_pure, Rule.accepts_expect] at h
    obtain ⟨_, after, ⟨expr, hexpr, rfl⟩, closing, _, ⟨hclosing, rfl⟩, rfl, rfl⟩ := h
    obtain ⟨phrase, rfl, rfl, hwithin⟩ := hparts.expression hexpr
    refine ⟨⟨⟨keyword, hkeyword⟩, ⟨name, hname⟩, some (⟨equals, hequals⟩, phrase),
      ⟨closing, hclosing⟩⟩, ?_, rfl, hwithin⟩
    simp [VarDecl.tokens]

theorem expressionStatement_sound (hparts : parts.Sound budget)
    (h : parts.expressionStatement.Accepts input stmt rest) :
    ∃ passage : ExprStmt, input = passage.tokens ++ rest ∧ passage.tree = stmt ∧
      ∀ counter, passage.expr.peak counter ≤ counter + budget := by
  simp only [expressionStatement, Rule.accepts_bind, Rule.accepts_remaining, Rule.accepts_peek,
    hparts.script, reduceCtorEq, false_and, ↓reduceIte, Rule.accepts_expect,
    Rule.accepts_pure] at h
  obtain ⟨_, _, ⟨rfl, rfl⟩, expr, middle, hexpr, _, _, ⟨-, rfl⟩, closing, _, ⟨hclosing, rfl⟩, rfl,
    rfl⟩ := h
  obtain ⟨phrase, rfl, rfl, hwithin⟩ := hparts.expression hexpr
  refine ⟨⟨phrase, ⟨closing, hclosing⟩⟩, by simp [ExprStmt.tokens], ?_, hwithin⟩
  obtain ⟨more, hmore⟩ := phrase.tokens_eq_cons
  simp [ExprStmt.tree, firstSpan, hmore]

theorem print_sound (hparts : parts.Sound budget) {keyword : Token}
    (hkeyword : keyword.kind = .kwPrint)
    (h : (parts.print keyword.span).Accepts input stmt rest) :
    ∃ passage : Passage .statement, passage.Explains (budget + 1) (keyword :: input) stmt rest := by
  simp only [print, Rule.accepts_bind, Rule.accepts_expect, Rule.accepts_pure] at h
  obtain ⟨expr, middle, hexpr, closing, _, ⟨hclosing, rfl⟩, rfl, rfl⟩ := h
  obtain ⟨phrase, rfl, rfl, hwithin⟩ := hparts.expression hexpr
  refine ⟨.print ⟨keyword, hkeyword⟩ phrase ⟨closing, hclosing⟩, ?_, rfl, trivial, ?_, ?_⟩
  · simp [Passage.tokens]
  · simp [Passage.dangling]
  · intro counter
    have := hwithin (counter + 1)
    simp only [Passage.peak]
    omega

theorem branch_sound (hparts : parts.Sound budget) {keyword : Token}
    (hkeyword : keyword.kind = .kwIf)
    (h : (parts.branch keyword.span).Accepts input stmt rest) :
    ∃ passage : Passage .statement, passage.Explains (budget + 1) (keyword :: input) stmt rest := by
  simp only [branch, Rule.accepts_bind, Rule.accepts_expect] at h
  obtain ⟨opening, _, ⟨hopening, rfl⟩, condition, _, hcondition, closing, _, ⟨hclosing, rfl⟩,
    thenBranch, middle, hthen, found, after, hfound, h⟩ := h
  obtain ⟨phrase, rfl, rfl, hphrase⟩ := hparts.expression hcondition
  obtain ⟨first, rfl, rfl, hnearest, hclosed, hfirst⟩ := hparts.statement hthen
  let guard : Guard .kwIf := ⟨⟨keyword, hkeyword⟩, ⟨opening, hopening⟩, phrase, ⟨closing, hclosing⟩⟩
  cases found with
  | none =>
    obtain ⟨hnext, rfl⟩ := Rule.accepts_accept_none.mp hfound
    obtain ⟨rfl, rfl⟩ := Rule.accepts_pure.mp h
    refine ⟨.ifThen guard first, ?_, rfl, hnearest, fun _ ↦ hnext, fun counter ↦ ?_⟩
    · simp [Passage.tokens, Guard.tokens, guard]
    · have hguard := hphrase (counter + 1)
      have hbranch := hfirst (counter + 1)
      simp only [Passage.peak, guard]
      omega
  | some separator =>
    obtain ⟨hseparator, rfl⟩ := Rule.accepts_accept_some.mp hfound
    simp only [Rule.accepts_bind, Rule.accepts_pure] at h
    obtain ⟨elseBranch, _, helse, rfl, rfl⟩ := h
    obtain ⟨second, rfl, rfl, hsecondNearest, hsecondClosed, hsecond⟩ := hparts.statement helse
    have hcomplete : first.dangling = false := by
      rw [Bool.eq_false_iff]
      intro hdangling
      exact hclosed hdangling (by simp [hseparator])
    refine ⟨.ifElse guard first ⟨separator, hseparator⟩ second, ?_, rfl,
      ⟨hcomplete, hnearest, hsecondNearest⟩, hsecondClosed, fun counter ↦ ?_⟩
    · simp [Passage.tokens, Guard.tokens, guard]
    · have hguard := hphrase (counter + 1)
      have hthenBranch := hfirst (counter + 1)
      have helseBranch := hsecond (counter + 1)
      simp only [Passage.peak, guard]
      omega

theorem loop_sound (hparts : parts.Sound budget) {keyword : Token}
    (hkeyword : keyword.kind = .kwWhile)
    (h : (parts.loop keyword.span).Accepts input stmt rest) :
    ∃ passage : Passage .statement, passage.Explains (budget + 1) (keyword :: input) stmt rest := by
  simp only [loop, Rule.accepts_bind, Rule.accepts_expect, Rule.accepts_pure] at h
  obtain ⟨opening, _, ⟨hopening, rfl⟩, condition, _, hcondition, closing, _, ⟨hclosing, rfl⟩,
    body, _, hbody, rfl, rfl⟩ := h
  obtain ⟨phrase, rfl, rfl, hphrase⟩ := hparts.expression hcondition
  obtain ⟨passage, rfl, rfl, hnearest, hclosed, hpassage⟩ := hparts.statement hbody
  refine ⟨.whileLoop ⟨⟨keyword, hkeyword⟩, ⟨opening, hopening⟩, phrase, ⟨closing, hclosing⟩⟩ passage,
    ?_, rfl, hnearest, hclosed, fun counter ↦ ?_⟩
  · simp [Passage.tokens, Guard.tokens]
  · have hguard := hphrase (counter + 1)
    have hrepeated := hpassage (counter + 1)
    simp only [Passage.peak]
    omega

theorem forInitial_sound (hparts : parts.Sound budget) {initial : Option Stmt}
    (h : parts.forInitial.Accepts input initial rest) :
    ∃ clause : ForInitial, input = clause.tokens ++ rest ∧ clause.tree? = initial ∧
      ∀ counter, clause.peak counter ≤ counter + budget := by
  simp only [forInitial, Rule.accepts_bind] at h
  obtain ⟨found, middle, hfound, h⟩ := h
  cases found with
  | some closing =>
    obtain ⟨hclosing, rfl⟩ := Rule.accepts_accept_some.mp hfound
    obtain ⟨rfl, rfl⟩ := Rule.accepts_pure.mp h
    exact ⟨.absent ⟨closing, hclosing⟩, rfl, rfl, fun _ ↦ Nat.le_add_right _ _⟩
  | none =>
    obtain ⟨-, rfl⟩ := Rule.accepts_accept_none.mp hfound
    simp only [Rule.accepts_bind] at h
    obtain ⟨found, middle, hfound, h⟩ := h
    cases found with
    | some keyword =>
      obtain ⟨hkeyword, rfl⟩ := Rule.accepts_accept_some.mp hfound
      obtain ⟨stmt, hstmt, rfl⟩ := Rule.accepts_map.mp h
      obtain ⟨decl, hfrontier, rfl, hwithin⟩ := declaration_sound hparts hkeyword hstmt
      exact ⟨.declare decl, hfrontier, rfl, hwithin⟩
    | none =>
      obtain ⟨-, rfl⟩ := Rule.accepts_accept_none.mp hfound
      obtain ⟨stmt, hstmt, rfl⟩ := Rule.accepts_map.mp h
      obtain ⟨passage, hfrontier, rfl, hwithin⟩ := expressionStatement_sound hparts hstmt
      exact ⟨.expression passage, hfrontier, rfl, hwithin⟩

theorem expressionUnless_sound (hparts : parts.Sound budget) {stop : Token.Kind}
    {clause : Option Expr} (h : (parts.expressionUnless stop).Accepts input clause rest) :
    ∃ phrase : Option (Phrase .expression), input = (phrase.map Phrase.tokens).getD [] ++ rest ∧
      phrase.map Phrase.tree = clause ∧
      ∀ counter, (phrase.map fun phrase ↦ phrase.peak counter).getD counter ≤ counter + budget := by
  simp only [expressionUnless, Rule.accepts_bind, Rule.accepts_peek] at h
  obtain ⟨_, _, ⟨rfl, rfl⟩, h⟩ := h
  split at h
  · obtain ⟨rfl, rfl⟩ := Rule.accepts_pure.mp h
    exact ⟨none, rfl, rfl, fun _ ↦ Nat.le_add_right _ _⟩
  · obtain ⟨expr, hexpr, rfl⟩ := Rule.accepts_map.mp h
    obtain ⟨phrase, rfl, rfl, hwithin⟩ := hparts.expression hexpr
    exact ⟨some phrase, rfl, rfl, hwithin⟩

theorem forClauses_sound (hparts : parts.Sound budget) {clauses : ForClauses} {keyword : Token}
    (hkeyword : keyword.kind = .kwFor) (h : parts.forClauses.Accepts input clauses rest) :
    ∃ header : ForHeader, keyword :: input = header.tokens ++ rest ∧
      header.keyword.val = keyword ∧ clauses = ⟨header.initial.tree?,
        header.condition.map Phrase.tree, header.separator.val.span,
        header.increment.map Phrase.tree⟩ ∧
      ∀ counter, header.peak counter ≤ counter + budget := by
  simp only [forClauses, Rule.accepts_bind, Rule.accepts_expect, Rule.accepts_pure] at h
  obtain ⟨opening, _, ⟨hopening, rfl⟩, initial, _, hinitial, condition, _, hcondition, separator, _,
    ⟨hseparator, rfl⟩, increment, _, hincrement, closing, _, ⟨hclosing, rfl⟩, rfl, rfl⟩ := h
  obtain ⟨first, rfl, rfl, hfirst⟩ := forInitial_sound hparts hinitial
  obtain ⟨second, rfl, rfl, hsecond⟩ := expressionUnless_sound hparts hcondition
  obtain ⟨third, rfl, rfl, hthird⟩ := expressionUnless_sound hparts hincrement
  refine ⟨⟨⟨keyword, hkeyword⟩, ⟨opening, hopening⟩, first, second, ⟨separator, hseparator⟩, third,
    ⟨closing, hclosing⟩⟩, ?_, rfl, rfl, fun counter ↦ ?_⟩
  · simp [ForHeader.tokens]
  · have hinitialPeak := hfirst counter
    have hconditionPeak := hsecond counter
    have hincrementPeak := hthird counter
    simp only [ForHeader.peak]
    omega

theorem forLoop_sound (hparts : parts.Sound budget) {keyword : Token}
    (hkeyword : keyword.kind = .kwFor)
    (h : (parts.forLoop keyword.span).Accepts input stmt rest) :
    ∃ passage : Passage .statement, passage.Explains (budget + 1) (keyword :: input) stmt rest := by
  simp only [forLoop, Rule.accepts_bind, Rule.accepts_pure] at h
  obtain ⟨clauses, middle, hclauses, body, _, hbody, rfl, rfl⟩ := h
  obtain ⟨header, hfrontier, rfl, rfl, hheader⟩ := forClauses_sound hparts hkeyword hclauses
  obtain ⟨passage, rfl, rfl, hnearest, hclosed, hpassage⟩ := hparts.statement hbody
  refine ⟨.forLoop header passage, ?_, ?_, hnearest, hclosed, fun counter ↦ ?_⟩
  · rw [hfrontier, Passage.tokens, List.append_assoc]
  · exact (header.toLoop_eq_tree passage.tree).symm
  · have hheaderPeak := hheader (counter + 1)
    have hbodyPeak := hpassage (counter + 1)
    simp only [Passage.peak]
    omega

theorem declarationOrStatement_sound (hparts : parts.Sound budget)
    (h : parts.declarationOrStatement.Accepts input stmt rest) :
    ∃ passage : Passage .declaration, passage.Explains budget input stmt rest := by
  simp only [declarationOrStatement, Rule.accepts_bind] at h
  obtain ⟨found, middle, hfound, h⟩ := h
  cases found with
  | some keyword =>
    obtain ⟨hkeyword, rfl⟩ := Rule.accepts_accept_some.mp hfound
    obtain ⟨decl, hfrontier, htree, hwithin⟩ := declaration_sound hparts hkeyword h
    exact ⟨.declare decl, hfrontier, htree, trivial, by simp [Passage.dangling], hwithin⟩
  | none =>
    obtain ⟨-, rfl⟩ := Rule.accepts_accept_none.mp hfound
    obtain ⟨passage, hfrontier, htree, hnearest, hclosed, hwithin⟩ := hparts.statement h
    exact ⟨.statement passage, hfrontier, htree, hnearest, hclosed, hwithin⟩

/-- An item that is given up leaves a fault, so an accepted one has a value. -/
theorem item_sound (hparts : parts.Sound budget) {item : Option Stmt}
    (h : parts.item.Accepts input item rest) :
    ∃ stmt, item = some stmt ∧
      ∃ passage : Passage .declaration, passage.Explains budget input stmt rest := by
  obtain ⟨stmt, hitem, hstmt⟩ := accepts_recovering.mp h
  exact ⟨stmt, hitem, declarationOrStatement_sound hparts hstmt⟩

/-- Items end before a closing brace or at the end of the input, and nowhere else. -/
theorem accepts_items_succ {bound : Nat} {stmts : List Stmt} :
    (parts.items (bound + 1)).Accepts input stmts rest ↔
      ((nextKind input = none ∨ nextKind input = some .rightBrace) ∧ stmts = [] ∧ input = rest) ∨
      ∃ kind, nextKind input = some kind ∧ kind ≠ .rightBrace ∧ ∃ first middle others,
        parts.item.Accepts input first middle ∧ (parts.items bound).Accepts middle others rest ∧
          stmts = first.toList ++ others := by
  simp only [items, Rule.accepts_bind, Rule.accepts_peek]
  constructor
  · rintro ⟨_, _, ⟨rfl, rfl⟩, h⟩
    split at h
    · next hnext =>
      obtain ⟨rfl, rfl⟩ := Rule.accepts_pure.mp h
      exact .inl ⟨.inl hnext, rfl, rfl⟩
    · next hnext =>
      obtain ⟨rfl, rfl⟩ := Rule.accepts_pure.mp h
      exact .inl ⟨.inr hnext, rfl, rfl⟩
    · next kind hbrace hnext =>
      simp only [Rule.accepts_bind, Rule.accepts_pure] at h
      obtain ⟨first, middle, hfirst, others, _, hothers, rfl, rfl⟩ := h
      exact .inr ⟨kind, hnext, hbrace, first, middle, others, hfirst, hothers, rfl⟩
  · rintro (⟨hnext, rfl, rfl⟩ | ⟨kind, hnext, hbrace, first, middle, others, hfirst, hothers, rfl⟩)
    · refine ⟨_, _, ⟨rfl, rfl⟩, ?_⟩
      rcases hnext with hnext | hnext <;> rw [hnext] <;> exact Rule.accepts_pure.mpr ⟨rfl, rfl⟩
    · refine ⟨_, _, ⟨hnext, rfl⟩, ?_⟩
      split
      · next heq => cases heq
      · next heq => exact absurd (Option.some.inj heq) hbrace
      · simp only [Rule.accepts_bind, Rule.accepts_pure]
        exact ⟨first, middle, hfirst, others, rest, hothers, rfl, rfl⟩

theorem items_sound (hparts : parts.Sound budget) (bound : Nat) {stmts : List Stmt}
    (h : (parts.items bound).Accepts input stmts rest) :
    ∃ passage : Passage .sequence, passage.Explains budget input stmts rest := by
  have hempty {rest : List Token} : (Passage.empty).Explains budget rest [] rest :=
    ⟨rfl, rfl, trivial, by simp [Passage.dangling], fun _ ↦ Nat.le_add_right _ _⟩
  induction bound generalizing input stmts with
  | zero =>
    obtain ⟨rfl, rfl⟩ := Rule.accepts_done.mp h
    exact ⟨.empty, hempty⟩
  | succ bound ih =>
    obtain ⟨-, rfl, rfl⟩ | ⟨kind, -, -, item, middle, others, hitem, hothers, rfl⟩ :=
      accepts_items_succ.mp h
    · exact ⟨.empty, hempty⟩
    · obtain ⟨stmt, rfl, decl, rfl, rfl, hdecl, -, hfirst⟩ := item_sound hparts hitem
      obtain ⟨passage, rfl, rfl, hpassage, -, hsecond⟩ := ih hothers
      refine ⟨.more decl passage, ?_, rfl, ⟨hdecl, hpassage⟩, by simp [Passage.dangling],
        fun counter ↦ ?_⟩
      · simp [Passage.tokens]
      · have hdeclPeak := hfirst counter
        have hrestPeak := hsecond counter
        simp only [Passage.peak]
        omega

theorem block_sound (hparts : parts.Sound budget) {opening : Token}
    (hopening : opening.kind = .leftBrace)
    (h : (parts.block opening.span).Accepts input stmt rest) :
    ∃ passage : Passage .statement, passage.Explains (budget + 1) (opening :: input) stmt rest := by
  simp only [block, Rule.accepts_bind, Rule.accepts_remaining, Rule.accepts_expect,
    Rule.accepts_pure] at h
  obtain ⟨_, _, ⟨rfl, rfl⟩, body, _, hbody, closing, _, ⟨hclosing, rfl⟩, rfl, rfl⟩ := h
  obtain ⟨passage, hfrontier, rfl, hnearest, -, hwithin⟩ := items_sound hparts _ hbody
  refine ⟨.block ⟨opening, hopening⟩ passage ⟨closing, hclosing⟩, ?_, rfl, hnearest,
    by simp [Passage.dangling], fun counter ↦ ?_⟩
  · simp [Passage.tokens, hfrontier]
  · have := hwithin (counter + 1)
    simp only [Passage.peak]
    omega

theorem body_sound (hparts : parts.Sound budget) (h : parts.body.Accepts input stmt rest) :
    ∃ passage : Passage .statement, passage.Explains (budget + 1) input stmt rest := by
  have hexpression (h : parts.expressionStatement.Accepts input stmt rest) :
      ∃ passage : Passage .statement, passage.Explains (budget + 1) input stmt rest := by
    obtain ⟨passage, hfrontier, htree, hwithin⟩ := expressionStatement_sound hparts h
    refine ⟨.expression passage, hfrontier, htree, trivial, by simp [Passage.dangling],
      fun counter ↦ ?_⟩
    have := hwithin (counter + 1)
    simp only [Passage.peak]
    omega
  cases input with
  | nil => exact hexpression h
  | cons token input =>
    simp only [Rule.Accepts, body] at h
    split at h
    · next hkind => exact print_sound hparts hkind h
    · next hkind => exact block_sound hparts hkind h
    · next hkind => exact branch_sound hparts hkind h
    · next hkind => exact loop_sound hparts hkind h
    · next hkind => exact forLoop_sound hparts hkind h
    · exact hexpression h

end Parts

@[simp]
theorem parts_mode (mode : Mode) (eof : Span) (budget : Nat) :
    (parts mode eof budget).mode = mode := by
  cases budget <;> rfl

@[simp]
theorem parts_eof (mode : Mode) (eof : Span) (budget : Nat) :
    (parts mode eof budget).eof = eof := by
  cases budget <;> rfl

@[simp]
theorem parts_expression (mode : Mode) (eof : Span) (budget : Nat) :
    (parts mode eof budget).expression = expression budget := by
  cases budget <;> rfl

theorem parts_sound (eof : Span) (budget : Nat) : (parts .script eof budget).Sound budget := by
  have hexpression {budget : Nat} {input rest : List Token} {expr : Expr}
      (h : (parts .script eof budget).expression.Accepts input expr rest) :
      ∃ phrase : Phrase .expression, phrase.Explains budget input expr rest := by
    rw [parts_expression] at h
    exact expression_sound h
  induction budget with
  | zero => exact ⟨rfl, hexpression, fun h ↦ absurd h Rule.accepts_tooDeep⟩
  | succ budget ih => exact ⟨rfl, hexpression, Parts.body_sound ih⟩

/-! ## Programs -/

/-- Items are read until no token is left, so the declarations use up the input. -/
theorem collect_sound {eof : Span} {parts : Parts} {budget bound : Nat} {tokens : List Token}
    (hparts : parts.Sound budget) (hbound : tokens.length ≤ bound)
    (h : (Program.collect eof parts.item bound tokens).faults = []) :
    ∃ passage : Passage .sequence, passage.tokens = tokens ∧ passage.Nearest ∧
      passage.tree = (Program.collect eof parts.item bound tokens).statements ∧
      ∀ counter, passage.peak counter ≤ counter + budget := by
  induction bound generalizing tokens with
  | zero =>
    obtain rfl : tokens = [] := by simpa using hbound
    exact ⟨.empty, rfl, trivial, rfl, fun _ ↦ Nat.le_add_right _ _⟩
  | succ bound ih =>
    cases tokens with
    | nil => exact ⟨.empty, rfl, trivial, rfl, fun _ ↦ Nat.le_add_right _ _⟩
    | cons token rest =>
      simp only [Program.collect] at h ⊢
      split at h
      · next faults item left hreading =>
        simp only [List.append_eq_nil_iff] at h
        obtain ⟨rfl, hothers⟩ := h
        obtain ⟨stmt, rfl, decl, hfrontier, rfl, hdecl, -, hdeclPeak⟩ :=
          Parts.item_sound hparts hreading
        have hshorter : left.length ≤ bound := by
          obtain ⟨start, more, htokens, -⟩ := decl.exists_start (by decide)
          have hlength := congrArg List.length hfrontier
          simp only [htokens, List.length_cons, List.length_append] at hlength hbound
          omega
        obtain ⟨passage, htokens, hpassage, htree, hpeak⟩ := ih hshorter hothers
        refine ⟨.more decl passage, ?_, ⟨hdecl, hpassage⟩, ?_, fun counter ↦ ?_⟩
        · simp [Passage.tokens, htokens, hfrontier]
        · simp [Passage.tree, htree]
        · have hfirst := hdeclPeak counter
          have hsecond := hpeak counter
          simp only [Passage.peak]
          omega
      · simp at h
      · simp at h

end Grammar

theorem TokenInput.ofList_append_endMark {tokens tail : List Token} {mark : Token}
    (htokens : ∀ token ∈ tokens, token.kind ≠ .eof) (hmark : mark.kind = .eof) :
    TokenInput.ofList (tokens ++ mark :: tail) = ⟨tokens, mark.span⟩ := by
  have htake : (tokens ++ mark :: tail).takeWhile (·.kind ≠ .eof) = tokens := by
    rw [List.takeWhile_append_of_pos (by simpa using htokens)]
    simp [hmark]
  have hdrop : (tokens ++ mark :: tail).dropWhile (·.kind ≠ .eof) = mark :: tail := by
    rw [List.dropWhile_append_of_pos (by simpa using htokens)]
    simp [hmark]
  simp only [TokenInput.ofList, htake, hdrop]

/-- What is read without a fault has a derivation whose counter stays within the limit. -/
theorem Program.exists_derivation {tokens : List Token} {mark : Token}
    (htokens : ∀ token ∈ tokens, token.kind ≠ .eof) (hmark : mark.kind = .eof)
    (h : (Program.parse .script (tokens ++ [mark])).faults = []) :
    ∃ derivation : Grammar.Passage .sequence, derivation.tokens = tokens ∧ derivation.Nearest ∧
      derivation.tree = (Program.parse .script (tokens ++ [mark])).statements ∧
      derivation.peak 0 ≤ nestingLimit := by
  simp only [Program.parse, TokenInput.ofList_append_endMark htokens hmark] at h ⊢
  obtain ⟨passage, hfrontier, hnearest, htree, hpeak⟩ :=
    Grammar.collect_sound (Grammar.parts_sound _ _) (Nat.le_refl _) h
  have hlimit := hpeak 0
  rw [Nat.zero_add] at hlimit
  exact ⟨passage, hfrontier, hnearest, htree, hlimit⟩

/-- A program that is read without a fault is derivable from the grammar, with every `else`
at the nearest `if`, and the statements are the tree of the derivation. -/
theorem Program.parse_sound {tokens : List Token} {mark : Token}
    (htokens : ∀ token ∈ tokens, token.kind ≠ .eof) (hmark : mark.kind = .eof)
    (h : (Program.parse .script (tokens ++ [mark])).faults = []) :
    ∃ derivation : Grammar.Passage .sequence, derivation.tokens = tokens ∧ derivation.Nearest ∧
      derivation.tree = (Program.parse .script (tokens ++ [mark])).statements := by
  obtain ⟨derivation, hfrontier, hnearest, htree, -⟩ := exists_derivation htokens hmark h
  exact ⟨derivation, hfrontier, hnearest, htree⟩

/-- The tokens of `if (a) if (b) c; else d = e - f - g or h;`. -/
def Token.danglingElse : List Token :=
  [⟨.kwIf, "if", none, ⟨0, 2, 1⟩⟩, ⟨.leftParen, "(", none, ⟨3, 4, 1⟩⟩,
    ⟨.identifier, "a", none, ⟨4, 5, 1⟩⟩, ⟨.rightParen, ")", none, ⟨5, 6, 1⟩⟩,
    ⟨.kwIf, "if", none, ⟨7, 9, 1⟩⟩, ⟨.leftParen, "(", none, ⟨10, 11, 1⟩⟩,
    ⟨.identifier, "b", none, ⟨11, 12, 1⟩⟩, ⟨.rightParen, ")", none, ⟨12, 13, 1⟩⟩,
    ⟨.identifier, "c", none, ⟨14, 15, 1⟩⟩, ⟨.semicolon, ";", none, ⟨15, 16, 1⟩⟩,
    ⟨.kwElse, "else", none, ⟨17, 21, 1⟩⟩, ⟨.identifier, "d", none, ⟨22, 23, 1⟩⟩,
    ⟨.equal, "=", none, ⟨24, 25, 1⟩⟩, ⟨.identifier, "e", none, ⟨26, 27, 1⟩⟩,
    ⟨.minus, "-", none, ⟨28, 29, 1⟩⟩, ⟨.identifier, "f", none, ⟨30, 31, 1⟩⟩,
    ⟨.minus, "-", none, ⟨32, 33, 1⟩⟩, ⟨.identifier, "g", none, ⟨34, 35, 1⟩⟩,
    ⟨.kwOr, "or", none, ⟨36, 38, 1⟩⟩, ⟨.identifier, "h", none, ⟨39, 40, 1⟩⟩,
    ⟨.semicolon, ";", none, ⟨40, 41, 1⟩⟩]

/-- The statement that these tokens are: the `else` is that of the second `if`, the first minus is
applied first, and the `or` last. -/
def Stmt.danglingElse : Stmt :=
  let name (lexeme : String) (start : Nat) : Expr := .reference lexeme ⟨start, start + 1, 1⟩
  let first : Expr := .binary .subtract (name "e" 26) (name "f" 30) ⟨26, 31, 1⟩
  let second : Expr := .binary .subtract first (name "g" 34) ⟨26, 35, 1⟩
  let choice : Expr := .logical .or second (name "h" 39) ⟨26, 40, 1⟩
  .branch (name "a" 4)
    (.branch (name "b" 11) (.expression (name "c" 14) ⟨14, 16, 1⟩)
      (some (.expression (.assign "d" choice ⟨22, 40, 1⟩) ⟨22, 41, 1⟩)) ⟨7, 41, 1⟩)
    none ⟨0, 41, 1⟩

theorem Program.parse_sound_danglingElse :
    Program.parse .script (Token.danglingElse ++ [.endMark ⟨41, 41, 1⟩]) =
        ⟨[Stmt.danglingElse], []⟩ ∧
      ∃ derivation : Grammar.Passage .sequence, derivation.tokens = Token.danglingElse ∧
        derivation.Nearest ∧ derivation.tree = [Stmt.danglingElse] := by
  have hparse : Program.parse .script (Token.danglingElse ++ [.endMark ⟨41, 41, 1⟩]) =
      ⟨[Stmt.danglingElse], []⟩ := rfl
  have hclean := congrArg Program.faults hparse
  obtain ⟨derivation, hfrontier, hnearest, htree⟩ := Program.parse_sound (by decide) rfl hclean
  rw [hparse] at htree
  exact ⟨hparse, derivation, hfrontier, hnearest, htree⟩

end LoxLang
