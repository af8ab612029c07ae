import LoxLang.Proofs.Grammar.Isolation
import LoxLang.Proofs.Grammar.Passing
import Mathlib.Logic.Relation

/-!
# The way down to the nesting limit

While a construct is read, others are begun within it, some of them with the nesting counter one
higher. The moments of a descent are the constructs that have been begun and not ended, each with
the counter and the input at which it was begun. A rule goes past the nesting limit if and only if
some descent raises the counter above it, and it does so at the token where that happens.

So a program whose reading is given up has the fault for it once, as its last fault, with the
statements of the items before the one in which the counter passed the limit, and no other.
-/

namespace LoxLang

namespace Grammar

/-! ## Descents -/

/-- What can have been begun and not ended. A body is a statement behind the point at which its
level has been counted. -/
inductive Construct where
  | item
  | statement
  | body
  | expression
  | assignment
  | operand (tiers : List Tier)
  | chain (tier : Tier) (tighter : List Tier) (left : Expr)
  | unary

/-- A construct that has been begun, with the nesting counter and the input there. -/
structure Moment where
  construct : Construct
  counter : Nat
  input : List Token

/-- The rules for the parts of a statement where the counter has the given value. -/
abbrev partsAt (mode : Mode) (eof : Span) (counter : Nat) : Parts :=
  parts mode eof (nestingLimit - counter)

/-- The rule for operands where the counter has the given value. -/
abbrev operandAt (counter : Nat) (tiers : List Tier) : Rule Expr :=
  operand (below (nestingLimit - counter)) tiers

/-- While the first construct is read the second is begun, behind the parts of the first that are
complete by then. The counter is raised by one for a statement, an expression, the value of an
assignment, the operand of a sign, and each operator of a chain for the rest of the chain. -/
inductive Leads (mode : Mode) (eof : Span) : Moment → Moment → Prop where
  -- Declarations, and statements with their levels.
  | initial {counter : Nat} {keyword name equals : Token} {input : List Token}
    (isVar : keyword.kind = .kwVar) (isName : name.kind = .identifier)
    (isEquals : equals.kind = .equal) :
    Leads mode eof ⟨.item, counter, keyword :: name :: equals :: input⟩
      ⟨.expression, counter, input⟩
  | statement {counter : Nat} {input : List Token} (noVar : nextKind input ≠ some .kwVar) :
    Leads mode eof ⟨.item, counter, input⟩ ⟨.statement, counter, input⟩
  | body {counter : Nat} {input : List Token} :
    Leads mode eof ⟨.statement, counter, input⟩ ⟨.body, counter + 1, input⟩
  | printed {counter : Nat} {keyword : Token} {input : List Token}
    (isPrint : keyword.kind = .kwPrint) :
    Leads mode eof ⟨.body, counter, keyword :: input⟩ ⟨.expression, counter, input⟩
  | evaluated {counter : Nat} {input : List Token}
    (plain : ∀ kind ∈ statementStarts, nextKind input ≠ some kind) :
    Leads mode eof ⟨.body, counter, input⟩ ⟨.expression, counter, input⟩
  | inBlock {counter : Nat} {opening token : Token} {input left : List Token} {stmts : List Stmt}
    {faults : List Fault} (isBrace : opening.kind = .leftBrace)
    (before : (partsAt mode eof counter).item.Repeats (·.kind ≠ .rightBrace) input stmts faults
      (token :: left)) (isDue : token.kind ≠ .rightBrace) :
    Leads mode eof ⟨.body, counter, opening :: input⟩ ⟨.item, counter, token :: left⟩
  -- The condition of an `if` or a `while`, and the statements behind it.
  | condition {counter : Nat} {keyword paren : Token} {input : List Token}
    (isGuarded : keyword.kind = .kwIf ∨ keyword.kind = .kwWhile)
    (isParen : paren.kind = .leftParen) :
    Leads mode eof ⟨.body, counter, keyword :: paren :: input⟩ ⟨.expression, counter, input⟩
  | guarded {counter : Nat} {keyword paren closing : Token} {input left : List Token} {expr : Expr}
    (isGuarded : keyword.kind = .kwIf ∨ keyword.kind = .kwWhile) (isParen : paren.kind = .leftParen)
    (first : (partsAt mode eof counter).expression.Reads input expr (closing :: left))
    (isClosing : closing.kind = .rightParen) :
    Leads mode eof ⟨.body, counter, keyword :: paren :: input⟩ ⟨.statement, counter, left⟩
  | otherwise {counter : Nat} {keyword paren closing separator : Token}
    {input left last : List Token} {expr : Expr} {stmt : Stmt} (isIf : keyword.kind = .kwIf)
    (isParen : paren.kind = .leftParen)
    (first : (partsAt mode eof counter).expression.Reads input expr (closing :: left))
    (isClosing : closing.kind = .rightParen)
    (second : (partsAt mode eof counter).statement.Reads left stmt (separator :: last))
    (isElse : separator.kind = .kwElse) :
    Leads mode eof ⟨.body, counter, keyword :: paren :: input⟩ ⟨.statement, counter, last⟩
  -- The clauses of a `for`, and the statement behind them.
  | forInitial {counter : Nat} {keyword paren var name equals : Token} {input : List Token}
    (isFor : keyword.kind = .kwFor) (isParen : paren.kind = .leftParen) (isVar : var.kind = .kwVar)
    (isName : name.kind = .identifier) (isEquals : equals.kind = .equal) :
    Leads mode eof ⟨.body, counter, keyword :: paren :: var :: name :: equals :: input⟩
      ⟨.expression, counter, input⟩
  | forEvaluated {counter : Nat} {keyword paren : Token} {input : List Token}
    (isFor : keyword.kind = .kwFor) (isParen : paren.kind = .leftParen)
    (present : nextKind input ≠ some .semicolon) (noVar : nextKind input ≠ some .kwVar) :
    Leads mode eof ⟨.body, counter, keyword :: paren :: input⟩ ⟨.expression, counter, input⟩
  | forCondition {counter : Nat} {keyword paren : Token} {input left : List Token}
    {initial : Option Stmt} (isFor : keyword.kind = .kwFor) (isParen : paren.kind = .leftParen)
    (first : (partsAt mode eof counter).forInitial.Reads input initial left)
    (present : nextKind left ≠ some .semicolon) :
    Leads mode eof ⟨.body, counter, keyword :: paren :: input⟩ ⟨.expression, counter, left⟩
  | forIncrement {counter : Nat} {keyword paren separator : Token} {input left last : List Token}
    {initial : Option Stmt} {expr : Option Expr} (isFor : keyword.kind = .kwFor)
    (isParen : paren.kind = .leftParen)
    (first : (partsAt mode eof counter).forInitial.Reads input initial left)
    (second : ((partsAt mode eof counter).expressionUnless .semicolon).Reads left expr
      (separator :: last)) (isSeparator : separator.kind = .semicolon)
    (present : nextKind last ≠ some .rightParen) :
    Leads mode eof ⟨.body, counter, keyword :: paren :: input⟩ ⟨.expression, counter, last⟩
  | forBody {counter : Nat} {keyword : Token} {input left : List Token} {clauses : ForClauses}
    (isFor : keyword.kind = .kwFor)
    (first : (partsAt mode eof counter).forClauses.Reads input clauses left) :
    Leads mode eof ⟨.body, counter, keyword :: input⟩ ⟨.statement, counter, left⟩
  -- Expressions, from the loosest to the tightest.
  | assignment {counter : Nat} {input : List Token} :
    Leads mode eof ⟨.expression, counter, input⟩ ⟨.assignment, counter + 1, input⟩
  | target {counter : Nat} {input : List Token} :
    Leads mode eof ⟨.assignment, counter, input⟩ ⟨.operand Tier.all, counter, input⟩
  | value {counter : Nat} {equals : Token} {input left : List Token} {expr : Expr}
    (first : (operandAt counter Tier.all).Reads input expr (equals :: left))
    (isEquals : equals.kind = .equal) :
    Leads mode eof ⟨.assignment, counter, input⟩ ⟨.assignment, counter + 1, left⟩
  | first {counter : Nat} {tier : Tier} {tighter : List Tier} {input : List Token} :
    Leads mode eof ⟨.operand (tier :: tighter), counter, input⟩ ⟨.operand tighter, counter, input⟩
  | chain {counter : Nat} {tier : Tier} {tighter : List Tier} {input left : List Token}
    {expr : Expr} (first : (operandAt counter tighter).Reads input expr left) :
    Leads mode eof ⟨.operand (tier :: tighter), counter, input⟩
      ⟨.chain tier tighter expr, counter, left⟩
  | right {counter : Nat} {tier : Tier} {tighter : List Tier} {expr : Expr} {operator : Token}
    {connective : Connective} {input : List Token}
    (isOperator : tier.connective? operator.kind = some connective) :
    Leads mode eof ⟨.chain tier tighter expr, counter, operator :: input⟩
      ⟨.operand tighter, counter + 1, input⟩
  | longer {counter : Nat} {tier : Tier} {tighter : List Tier} {expr other : Expr}
    {operator : Token} {connective : Connective} {input left : List Token}
    (within : counter < nestingLimit)
    (isOperator : tier.connective? operator.kind = some connective)
    (first : (operandAt (counter + 1) tighter).Reads input other left) :
    Leads mode eof ⟨.chain tier tighter expr, counter, operator :: input⟩
      ⟨.chain tier tighter (connective.join expr other), counter + 1, left⟩
  | unary {counter : Nat} {input : List Token} :
    Leads mode eof ⟨.operand [], counter, input⟩ ⟨.unary, counter, input⟩
  | signed {counter : Nat} {sign : Token} {op : UnaryOp} {input : List Token}
    (isSign : UnaryOp.ofKind? sign.kind = some op) :
    Leads mode eof ⟨.unary, counter, sign :: input⟩ ⟨.unary, counter + 1, input⟩
  | grouped {counter : Nat} {paren : Token} {input : List Token} (isParen : paren.kind = .leftParen)
    (present : nextKind input ≠ some .rightParen) :
    Leads mode eof ⟨.unary, counter, paren :: input⟩ ⟨.expression, counter, input⟩

/-- Reading the construct with the given number of levels left goes past the limit. -/
def Construct.Passes (mode : Mode) (eof : Span) (budget : Nat) :
    Construct → List Token → List Token → Prop
  | item => (parts mode eof budget).item.Passes
  | statement => (parts mode eof budget).statement.Passes
  | body => (parts mode eof budget).body.Passes
  | expression => (parts mode eof budget).expression.Passes
  | assignment => (Grammar.assignment (below budget)).Passes
  | operand tiers => (Grammar.operand (below budget) tiers).Passes
  | chain tier tighter left => (Grammar.chain (below budget) tier tighter left).Passes
  | unary => (Grammar.unary (below budget)).Passes

/-- From the moment on reading goes past the limit where the rest is left, if it has not done so
already. -/
def Moment.Passes (mode : Mode) (eof : Span) (moment : Moment) (rest : List Token) : Prop :=
  if moment.counter ≤ nestingLimit then
    moment.construct.Passes mode eof (nestingLimit - moment.counter) moment.input rest
  else moment.input = rest

section

variable {mode : Mode} {eof : Span} {counter : Nat} {input rest : List Token}

theorem Moment.passes_of_le {construct : Construct} (h : counter ≤ nestingLimit) :
    Moment.Passes mode eof ⟨construct, counter, input⟩ rest ↔
      construct.Passes mode eof (nestingLimit - counter) input rest := by
  simp only [Moment.Passes, if_pos h]

theorem Moment.passes_of_lt {construct : Construct} (h : nestingLimit < counter) :
    Moment.Passes mode eof ⟨construct, counter, input⟩ rest ↔ input = rest := by
  simp only [Moment.Passes, if_neg (Nat.not_le.mpr h)]

/-- A rule that reads the construct one level deeper goes past the limit at once if no level is
left. -/
theorem Moment.passes_succ {α : Type} {construct : Construct} (rule : Nat → Rule α)
    (hnone : rule 0 = .tooDeep)
    (hsome : ∀ less, (rule (less + 1)).Passes = construct.Passes mode eof less)
    (h : counter ≤ nestingLimit) :
    Moment.Passes mode eof ⟨construct, counter + 1, input⟩ rest ↔
      (rule (nestingLimit - counter)).Passes input rest := by
  by_cases hless : counter < nestingLimit
  · have hbudget : nestingLimit - counter = nestingLimit - (counter + 1) + 1 := by omega
    rw [Moment.passes_of_le hless, hbudget, hsome]
  · have hbudget : nestingLimit - counter = 0 := by omega
    rw [Moment.passes_of_lt (by omega), hbudget, hnone, Rule.passes_tooDeep]

theorem passes_body_succ (h : counter ≤ nestingLimit) :
    Moment.Passes mode eof ⟨.body, counter + 1, input⟩ rest ↔
      (partsAt mode eof counter).statement.Passes input rest :=
  Moment.passes_succ (fun budget ↦ (parts mode eof budget).statement) rfl (fun _ ↦ rfl) h

theorem passes_assignment_succ (h : counter ≤ nestingLimit) :
    Moment.Passes mode eof ⟨.assignment, counter + 1, input⟩ rest ↔
      (deeper (below (nestingLimit - counter)) Level.assignment).Passes input rest :=
  Moment.passes_succ (fun budget ↦ deeper (below budget) Level.assignment) rfl
    (fun less ↦ congrArg (fun level : Level ↦ level.assignment.Passes) (level_eq_above less)) h

theorem passes_expression (h : counter ≤ nestingLimit) :
    Moment.Passes mode eof ⟨.expression, counter, input⟩ rest ↔
      (deeper (below (nestingLimit - counter)) Level.assignment).Passes input rest := by
  rw [Moment.passes_of_le h, ← expression_eq_deeper, ← parts_expression mode eof]
  rfl

theorem passes_unary_succ (h : counter ≤ nestingLimit) :
    Moment.Passes mode eof ⟨.unary, counter + 1, input⟩ rest ↔
      (deeper (below (nestingLimit - counter)) Level.unary).Passes input rest :=
  Moment.passes_succ (fun budget ↦ deeper (below budget) Level.unary) rfl
    (fun less ↦ congrArg (fun level : Level ↦ level.unary.Passes) (level_eq_above less)) h

/-- The right operand of an operator and the rest of the chain are read one level deeper. -/
theorem passes_link {tier : Tier} {tighter : List Tier} {left : Expr} {connective : Connective}
    (h : counter ≤ nestingLimit) :
    (deeper (below (nestingLimit - counter)) fun level ↦ do
      let right ← level.operand tighter
      level.chain tier tighter (connective.join left right)).Passes input rest ↔
      Moment.Passes mode eof ⟨.operand tighter, counter + 1, input⟩ rest ∨
        counter < nestingLimit ∧ ∃ right middle,
          (operandAt (counter + 1) tighter).Reads input right middle ∧
          Moment.Passes mode eof
            ⟨.chain tier tighter (connective.join left right), counter + 1, middle⟩ rest := by
  by_cases hless : counter < nestingLimit
  · have hbudget : nestingLimit - counter = nestingLimit - (counter + 1) + 1 := by omega
    rw [hbudget, below, deeper, level_eq_above, Rule.passes_bind]
    simp only [Moment.passes_of_le hless, hless, true_and]
    rfl
  · have hbudget : nestingLimit - counter = 0 := by omega
    have hmore : nestingLimit < counter + 1 := by omega
    simp only [hbudget, below, deeper, Rule.passes_tooDeep, Moment.passes_of_lt hmore, hless,
      false_and, or_false]

/-! ### One step -/

variable (mode eof) in
/-- Another construct is begun, and from there on reading goes past the limit. -/
def Moment.Continues (moment : Moment) (rest : List Token) : Prop :=
  ∃ next, Leads mode eof moment next ∧ next.Passes mode eof rest

section

variable (h : counter ≤ nestingLimit)

include h

theorem item_passes_iff :
    Moment.Passes mode eof ⟨.item, counter, input⟩ rest ↔
      Moment.Continues mode eof ⟨.item, counter, input⟩ rest := by
  refine (Moment.passes_of_le h).trans (Parts.passes_item.trans
    (Parts.passes_declarationOrStatement.trans ⟨?_, ?_⟩))
  · rintro (⟨keyword, left, hvar, rfl, hdecl⟩ | ⟨hvar, hstmt⟩)
    · obtain ⟨name, _, hname, rfl, equals, _, hequals, rfl, hexpr⟩ :=
        Parts.passes_declaration.mp hdecl
      exact ⟨_, .initial hvar hname hequals, (Moment.passes_of_le h).mpr hexpr⟩
    · exact ⟨_, .statement hvar, (Moment.passes_of_le h).mpr hstmt⟩
  · rintro ⟨next, hleads, hnext⟩
    cases hleads with
    | initial hvar hname hequals =>
      have hexpr := (Moment.passes_of_le h).mp hnext
      exact .inl ⟨_, _, hvar, rfl,
        Parts.passes_declaration.mpr ⟨_, _, hname, rfl, _, _, hequals, rfl, hexpr⟩⟩
    | statement hvar => exact .inr ⟨hvar, (Moment.passes_of_le h).mp hnext⟩

theorem statement_passes_iff :
    Moment.Passes mode eof ⟨.statement, counter, input⟩ rest ↔
      Moment.Continues mode eof ⟨.statement, counter, input⟩ rest := by
  refine (Moment.passes_of_le h).trans ((passes_body_succ h).symm.trans ⟨?_, ?_⟩)
  · intro hbody
    exact ⟨_, .body, hbody⟩
  · rintro ⟨next, ⟨⟩, hnext⟩
    exact hnext

/-- The header of a `for` loop goes past the limit in one of its clauses. -/
theorem continues_forClauses {keyword : Token} (hkind : keyword.kind = .kwFor)
    (hpasses : (partsAt mode eof counter).forClauses.Passes input rest) :
    Moment.Continues mode eof ⟨.body, counter, keyword :: input⟩ rest := by
  have hexpression {left : List Token}
      (hleads : Leads mode eof ⟨.body, counter, keyword :: input⟩ ⟨.expression, counter, left⟩)
      (hexpr : (partsAt mode eof counter).expression.Passes left rest) :
      Moment.Continues mode eof ⟨.body, counter, keyword :: input⟩ rest :=
    ⟨_, hleads, (Moment.passes_of_le h).mpr hexpr⟩
  obtain ⟨paren, left, hparen, rfl, hinitial | ⟨initial, middle, hinitial, hcondition |
    ⟨condition, _, hcondition, separator, last, hseparator, rfl, hincrement⟩⟩⟩ :=
    Parts.passes_forClauses.mp hpasses
  · obtain ⟨hpresent, ⟨var, _, hvar, rfl, hdecl⟩ | ⟨hvar, hexpr⟩⟩ :=
      Parts.passes_forInitial.mp hinitial
    · obtain ⟨name, _, hname, rfl, equals, _, hequals, rfl, hexpr⟩ :=
        Parts.passes_declaration.mp hdecl
      exact hexpression (.forInitial hkind hparen hvar hname hequals) hexpr
    · exact hexpression (.forEvaluated hkind hparen hpresent hvar) hexpr
  · obtain ⟨hpresent, hexpr⟩ := Parts.passes_expressionUnless.mp hcondition
    exact hexpression (.forCondition hkind hparen hinitial hpresent) hexpr
  · obtain ⟨hpresent, hexpr⟩ := Parts.passes_expressionUnless.mp hincrement
    exact hexpression (.forIncrement hkind hparen hinitial hcondition hseparator hpresent) hexpr

theorem continues_body (hpasses : (partsAt mode eof counter).body.Passes input rest) :
    Moment.Continues mode eof ⟨.body, counter, input⟩ rest := by
  have hexpression {left : List Token}
      (hleads : Leads mode eof ⟨.body, counter, input⟩ ⟨.expression, counter, left⟩)
      (hexpr : (partsAt mode eof counter).expression.Passes left rest) :
      Moment.Continues mode eof ⟨.body, counter, input⟩ rest :=
    ⟨_, hleads, (Moment.passes_of_le h).mpr hexpr⟩
  have hstatement {left : List Token}
      (hleads : Leads mode eof ⟨.body, counter, input⟩ ⟨.statement, counter, left⟩)
      (hstmt : (partsAt mode eof counter).statement.Passes left rest) :
      Moment.Continues mode eof ⟨.body, counter, input⟩ rest :=
    ⟨_, hleads, (Moment.passes_of_le h).mpr hstmt⟩
  cases input with
  | nil => exact hexpression (.evaluated nofun) (Parts.passes_expressionStatement.mp hpasses)
  | cons token more =>
    simp only [Rule.Passes, Parts.body] at hpasses
    split at hpasses
    · next hkind => exact hexpression (.printed hkind) (Parts.passes_print.mp hpasses)
    · next hkind =>
      obtain ⟨stmts, faults, next, left, hdue, hbefore, hitem⟩ := passes_block.mp hpasses
      exact ⟨_, .inBlock hkind hbefore hdue, (Moment.passes_of_le h).mpr hitem⟩
    · next hkind =>
      obtain ⟨paren, left, hparen, rfl, hexpr | ⟨expr, _, hexpr, closing, last, hclosing, rfl,
        hstmt | ⟨stmt, _, hthen, separator, final, helse, rfl, hstmt⟩⟩⟩ :=
        Parts.passes_branch.mp hpasses
      · exact hexpression (.condition (.inl hkind) hparen) hexpr
      · exact hstatement (.guarded (.inl hkind) hparen hexpr hclosing) hstmt
      · exact hstatement (.otherwise hkind hparen hexpr hclosing hthen helse) hstmt
    · next hkind =>
      obtain ⟨paren, left, hparen, rfl, hexpr | ⟨expr, _, hexpr, closing, last, hclosing, rfl,
        hstmt⟩⟩ := Parts.passes_loop.mp hpasses
      · exact hexpression (.condition (.inr hkind) hparen) hexpr
      · exact hstatement (.guarded (.inr hkind) hparen hexpr hclosing) hstmt
    · next hkind =>
      obtain hclauses | ⟨clauses, left, hclauses, hstmt⟩ := Parts.passes_forLoop.mp hpasses
      · exact continues_forClauses h hkind hclauses
      · exact hstatement (.forBody hkind hclauses) hstmt
    · refine hexpression (.evaluated ?_) (Parts.passes_expressionStatement.mp hpasses)
      intro kind hstart hkind
      simp_all [statementStarts]

omit h in
/-- A body is read by the rule that its first token selects. -/
theorem passes_body_cons {token : Token} {more : List Token} {rule : Rule Stmt}
    (heq : (partsAt mode eof counter).body (token :: more) = rule more)
    (hrule : rule.Passes more rest) : (partsAt mode eof counter).body.Passes (token :: more) rest :=
  (congrArg Reading.outcome heq).trans hrule

theorem passes_of_continues_body
    (hcontinues : Moment.Continues mode eof ⟨.body, counter, input⟩ rest) :
    (partsAt mode eof counter).body.Passes input rest := by
  have hheader {keyword : Token} {more : List Token} (hfor : keyword.kind = .kwFor)
      (hclauses : (partsAt mode eof counter).forClauses.Passes more rest) :
      (partsAt mode eof counter).body.Passes (keyword :: more) rest :=
    passes_body_cons (by rw [Parts.body, hfor]) (Parts.passes_forLoop.mpr (.inl hclauses))
  obtain ⟨next, hleads, hnext⟩ := hcontinues
  cases hleads with
  | printed hprint =>
    have hexpr := (Moment.passes_of_le h).mp hnext
    exact passes_body_cons (by rw [Parts.body, hprint]) (Parts.passes_print.mpr hexpr)
  | evaluated hplain =>
    have hexpr := Parts.passes_expressionStatement.mpr ((Moment.passes_of_le h).mp hnext)
    cases input with
    | nil => exact hexpr
    | cons token more =>
      have hstart : token.kind ∉ statementStarts := fun hmem ↦ hplain _ hmem rfl
      exact (congrArg Reading.outcome (body_of_not_mem _ more hstart)).trans hexpr
  | inBlock hbrace hbefore hdue =>
    have hitem := (Moment.passes_of_le h).mp hnext
    refine passes_body_cons (by rw [Parts.body, hbrace]) (passes_block.mpr ?_)
    exact ⟨_, _, _, _, hdue, hbefore, hitem⟩
  | condition hguarded hparen =>
    have hexpr := (Moment.passes_of_le h).mp hnext
    obtain hif | hwhile := hguarded
    · refine passes_body_cons (by rw [Parts.body, hif]) (Parts.passes_branch.mpr ?_)
      exact ⟨_, _, hparen, rfl, .inl hexpr⟩
    · refine passes_body_cons (by rw [Parts.body, hwhile]) (Parts.passes_loop.mpr ?_)
      exact ⟨_, _, hparen, rfl, .inl hexpr⟩
  | guarded hguarded hparen hfirst hclosing =>
    have hstmt := (Moment.passes_of_le h).mp hnext
    obtain hif | hwhile := hguarded
    · refine passes_body_cons (by rw [Parts.body, hif]) (Parts.passes_branch.mpr ?_)
      exact ⟨_, _, hparen, rfl, .inr ⟨_, _, hfirst, _, _, hclosing, rfl, .inl hstmt⟩⟩
    · refine passes_body_cons (by rw [Parts.body, hwhile]) (Parts.passes_loop.mpr ?_)
      exact ⟨_, _, hparen, rfl, .inr ⟨_, _, hfirst, _, _, hclosing, rfl, hstmt⟩⟩
  | otherwise hif hparen hfirst hclosing hsecond helse =>
    have hstmt := (Moment.passes_of_le h).mp hnext
    refine passes_body_cons (by rw [Parts.body, hif]) (Parts.passes_branch.mpr ?_)
    exact ⟨_, _, hparen, rfl, .inr ⟨_, _, hfirst, _, _, hclosing, rfl,
      .inr ⟨_, _, hsecond, _, _, helse, rfl, hstmt⟩⟩⟩
  | forInitial hfor hparen hvar hname hequals =>
    have hexpr := (Moment.passes_of_le h).mp hnext
    refine hheader hfor (Parts.passes_forClauses.mpr ⟨_, _, hparen, rfl, .inl ?_⟩)
    refine Parts.passes_forInitial.mpr ⟨by simp [hvar], .inl ⟨_, _, hvar, rfl, ?_⟩⟩
    exact Parts.passes_declaration.mpr ⟨_, _, hname, rfl, _, _, hequals, rfl, hexpr⟩
  | forEvaluated hfor hparen hpresent hvar =>
    have hexpr := (Moment.passes_of_le h).mp hnext
    refine hheader hfor (Parts.passes_forClauses.mpr ⟨_, _, hparen, rfl, .inl ?_⟩)
    exact Parts.passes_forInitial.mpr ⟨hpresent, .inr ⟨hvar, hexpr⟩⟩
  | forCondition hfor hparen hfirst hpresent =>
    have hexpr := (Moment.passes_of_le h).mp hnext
    have hcondition := Parts.passes_expressionUnless.mpr ⟨hpresent, hexpr⟩
    refine hheader hfor (Parts.passes_forClauses.mpr ?_)
    exact ⟨_, _, hparen, rfl, .inr ⟨_, _, hfirst, .inl hcondition⟩⟩
  | forIncrement hfor hparen hfirst hsecond hseparator hpresent =>
    have hexpr := (Moment.passes_of_le h).mp hnext
    have hincrement := Parts.passes_expressionUnless.mpr ⟨hpresent, hexpr⟩
    refine hheader hfor (Parts.passes_forClauses.mpr ?_)
    exact ⟨_, _, hparen, rfl,
      .inr ⟨_, _, hfirst, .inr ⟨_, _, hsecond, _, _, hseparator, rfl, hincrement⟩⟩⟩
  | forBody hfor hfirst =>
    have hstmt := (Moment.passes_of_le h).mp hnext
    refine passes_body_cons (by rw [Parts.body, hfor]) (Parts.passes_forLoop.mpr ?_)
    exact .inr ⟨_, _, hfirst, hstmt⟩

theorem expression_passes_iff :
    Moment.Passes mode eof ⟨.expression, counter, input⟩ rest ↔
      Moment.Continues mode eof ⟨.expression, counter, input⟩ rest := by
  constructor
  · intro hpasses
    exact ⟨_, .assignment, (passes_assignment_succ h).mpr ((passes_expression h).mp hpasses)⟩
  · rintro ⟨next, ⟨⟩, hnext⟩
    exact (passes_expression h).mpr ((passes_assignment_succ h).mp hnext)

theorem assignment_passes_iff :
    Moment.Passes mode eof ⟨.assignment, counter, input⟩ rest ↔
      Moment.Continues mode eof ⟨.assignment, counter, input⟩ rest := by
  refine (Moment.passes_of_le h).trans (passes_assignment.trans ⟨?_, ?_⟩)
  · rintro (htarget | ⟨target, _, htarget, equals, left, hequals, rfl, hvalue⟩)
    · exact ⟨_, .target, (Moment.passes_of_le h).mpr htarget⟩
    · exact ⟨_, .value htarget hequals, (passes_assignment_succ h).mpr hvalue⟩
  · rintro ⟨next, hleads, hnext⟩
    cases hleads with
    | target => exact .inl ((Moment.passes_of_le h).mp hnext)
    | value hfirst hequals =>
      exact .inr ⟨_, _, hfirst, _, _, hequals, rfl, (passes_assignment_succ h).mp hnext⟩

theorem operand_passes_iff {tiers : List Tier} :
    Moment.Passes mode eof ⟨.operand tiers, counter, input⟩ rest ↔
      Moment.Continues mode eof ⟨.operand tiers, counter, input⟩ rest := by
  cases tiers with
  | nil =>
    refine ⟨fun hunary ↦ ⟨⟨.unary, counter, input⟩, .unary, hunary⟩, ?_⟩
    rintro ⟨next, ⟨⟩, hnext⟩
    exact hnext
  | cons tier tighter =>
    refine (Moment.passes_of_le h).trans (passes_operand_cons.trans ⟨?_, ?_⟩)
    · rintro (hfirst | ⟨left, middle, hfirst, hchain⟩)
      · exact ⟨_, .first, (Moment.passes_of_le h).mpr hfirst⟩
      · exact ⟨_, .chain hfirst, (Moment.passes_of_le h).mpr hchain⟩
    · rintro ⟨next, hleads, hnext⟩
      cases hleads with
      | first => exact .inl ((Moment.passes_of_le h).mp hnext)
      | chain hfirst => exact .inr ⟨_, _, hfirst, (Moment.passes_of_le h).mp hnext⟩

theorem chain_passes_iff {tier : Tier} {tighter : List Tier} {left : Expr} :
    Moment.Passes mode eof ⟨.chain tier tighter left, counter, input⟩ rest ↔
      Moment.Continues mode eof ⟨.chain tier tighter left, counter, input⟩ rest := by
  refine (Moment.passes_of_le h).trans (passes_chain.trans ⟨?_, ?_⟩)
  · rintro ⟨operator, more, connective, hoperator, rfl, hlink⟩
    obtain hright | ⟨hless, right, middle, hright, hchain⟩ := (passes_link h).mp hlink
    · exact ⟨_, .right hoperator, hright⟩
    · exact ⟨_, .longer hless hoperator hright, hchain⟩
  · rintro ⟨next, hleads, hnext⟩
    cases hleads with
    | right hoperator => exact ⟨_, _, _, hoperator, rfl, (passes_link h).mpr (.inl hnext)⟩
    | longer hless hoperator hright =>
      exact ⟨_, _, _, hoperator, rfl, (passes_link h).mpr (.inr ⟨hless, _, _, hright, hnext⟩)⟩

theorem unary_passes_iff :
    Moment.Passes mode eof ⟨.unary, counter, input⟩ rest ↔
      Moment.Continues mode eof ⟨.unary, counter, input⟩ rest := by
  refine (Moment.passes_of_le h).trans (passes_unary.trans ⟨?_, ?_⟩)
  · rintro (⟨sign, op, left, hsign, rfl, hoperand⟩ | ⟨paren, left, hparen, rfl, hgroup⟩)
    · exact ⟨_, .signed hsign, (passes_unary_succ h).mpr hoperand⟩
    · obtain ⟨hpresent, hinner⟩ := passes_group.mp hgroup
      exact ⟨_, .grouped hparen hpresent, (passes_expression h).mpr hinner⟩
  · rintro ⟨next, hleads, hnext⟩
    cases hleads with
    | signed hsign => exact .inl ⟨_, _, _, hsign, rfl, (passes_unary_succ h).mp hnext⟩
    | grouped hparen hpresent =>
      have hinner := (passes_expression h).mp hnext
      exact .inr ⟨_, _, hparen, rfl, passes_group.mpr ⟨hpresent, hinner⟩⟩

end

/-- Within the limit, reading goes past it from a moment on if it does so in a construct that is
begun there. -/
theorem Moment.passes_iff_continues {moment : Moment} (h : moment.counter ≤ nestingLimit) :
    moment.Passes mode eof rest ↔ moment.Continues mode eof rest := by
  obtain ⟨construct, counter, input⟩ := moment
  cases construct with
  | item => exact item_passes_iff h
  | statement => exact statement_passes_iff h
  | body =>
    exact (Moment.passes_of_le h).trans ⟨continues_body h, passes_of_continues_body h⟩
  | expression => exact expression_passes_iff h
  | assignment => exact assignment_passes_iff h
  | operand tiers => exact operand_passes_iff h
  | chain tier tighter left => exact chain_passes_iff h
  | unary => exact unary_passes_iff h

/-! ### All steps -/

/-- Where the counter is not raised, what is begun ranks below what it is begun in. -/
def Construct.rank : Construct → Nat
  | statement | expression | chain .. => 0
  | item | unary => 1
  | body => 2
  | operand tiers => tiers.length + 2
  | assignment => 9

theorem Leads.counter_or_rank {moment next : Moment} (hleads : Leads mode eof moment next) :
    next.counter = moment.counter + 1 ∨
      next.counter = moment.counter ∧ next.construct.rank < moment.construct.rank := by
  cases hleads <;> simp [Construct.rank, Tier.all]

variable (mode eof) in
/-- One construct is begun in another, as long as the counter is within the limit. -/
def Descends (moment next : Moment) : Prop :=
  moment.counter ≤ nestingLimit ∧ Leads mode eof moment next

theorem Moment.Passes.exists_descent {moment : Moment} (hpasses : moment.Passes mode eof rest)
    (h : moment.counter ≤ nestingLimit + 1) :
    ∃ construct, Relation.ReflTransGen (Descends mode eof) moment
      ⟨construct, nestingLimit + 1, rest⟩ := by
  by_cases hle : moment.counter ≤ nestingLimit
  · obtain ⟨next, hleads, hnext⟩ := (Moment.passes_iff_continues hle).mp hpasses
    have hcounter := hleads.counter_or_rank
    obtain ⟨construct, hpath⟩ := hnext.exists_descent (by omega)
    exact ⟨construct, .head ⟨hle, hleads⟩ hpath⟩
  · obtain ⟨construct, counter, input⟩ := moment
    obtain rfl : counter = nestingLimit + 1 := Nat.le_antisymm h (Nat.lt_of_not_le hle)
    obtain rfl := (Moment.passes_of_lt (Nat.lt_of_not_le hle)).mp hpasses
    exact ⟨construct, .refl⟩
termination_by (nestingLimit + 1 - moment.counter, moment.construct.rank)
decreasing_by
  obtain hraised | ⟨hsame, hrank⟩ := hcounter
  · exact Prod.Lex.left _ _ (by omega)
  · rw [hsame]
    exact Prod.Lex.right _ hrank

/-- Reading goes past the limit from a moment on if and only if a descent does, and at the token
where the counter is raised above the limit. -/
theorem Moment.passes_iff_exists_descent {moment : Moment}
    (h : moment.counter ≤ nestingLimit + 1) :
    moment.Passes mode eof rest ↔
      ∃ construct, Relation.ReflTransGen (Descends mode eof) moment
        ⟨construct, nestingLimit + 1, rest⟩ := by
  refine ⟨fun hpasses ↦ hpasses.exists_descent h, ?_⟩
  rintro ⟨construct, hpath⟩
  induction hpath using Relation.ReflTransGen.head_induction_on with
  | refl => exact (Moment.passes_of_lt (Nat.lt_succ_self nestingLimit)).mpr rfl
  | head hdescends _ ih =>
    obtain ⟨hle, hleads⟩ := hdescends
    have hcounter := hleads.counter_or_rank
    exact (Moment.passes_iff_continues hle).mpr ⟨_, hleads, ih (by omega)⟩

end

end Grammar

/-! ## Programs -/

/-- What a rule raises is not worded like going past the limit. -/
theorem Issue.Raised.message_ne {tokens : List Token} {issue : Issue} (h : issue.Raised tokens) :
    issue.message ≠ "Nesting is too deep" := by
  have hexpected : emptyParens.message ≠ "Nesting is too deep" := by decide
  have hgrammatical := h.grammatical
  cases issue with
  | nestingTooDeep => exact absurd rfl h.shallow
  | noExpression found => exact hexpected
  | unexpectedCharacter | unterminatedString | undefinedVariable | undefinedTarget | badNegation
  | badAddition | badOperands | outputFailed | other => cases hgrammatical
  | _ => decide

section

variable {mode : Grammar.Mode} {eof : Span} {budget : Nat}

namespace Grammar

theorem message_of_item {input : List Token} {reading : Reading (Option Stmt)}
    (h : (parts mode eof budget).item input = reading) :
    ∀ fault ∈ reading.faults, fault.message ≠ "Nesting is too deep" := by
  intro fault hfault
  have hconsumes := Parts.consumes_item (consumes_parts mode eof budget) input
  exact (hconsumes.faults fault (h ▸ hfault)).message_ne

theorem message_of_repeats {due : Token → Prop} {input rest : List Token} {stmts : List Stmt}
    {faults : List Fault} (h : (parts mode eof budget).item.Repeats due input stmts faults rest) :
    ∀ fault ∈ faults, fault.message ≠ "Nesting is too deep" := by
  induction h with
  | none => exact List.forall_mem_nil _
  | more _ first _ ih => exact List.forall_mem_append.mpr ⟨message_of_item first, ih⟩

/-- An item in which the grammar is violated is given up, but reading goes on. -/
theorem item_ne_failed {input rest : List Token} {faults : List Fault} {issue : Issue} :
    (parts mode eof budget).item input ≠ ⟨faults, .failed issue rest⟩ := by
  unfold Parts.item recovering
  split <;> nofun

/-- Items are read up to the end of the input, or up to one that goes past the limit. -/
theorem exists_repeats (input : List Token) :
    ∃ stmts faults rest,
      (parts mode eof budget).item.Repeats (fun _ ↦ True) input stmts faults rest ∧
      (rest = [] ∨ ∃ token more left, rest = token :: more ∧
        (parts mode eof budget).item.Passes rest left) := by
  match input with
  | [] => exact ⟨[], [], [], .none [], .inl rfl⟩
  | token :: more =>
    match hitem : (parts mode eof budget).item (token :: more) with
    | ⟨faults, .done stmt left⟩ =>
      have hleft : left.length < (token :: more).length :=
        Nat.lt_succ_of_le (item_suffix hitem).length_le
      obtain ⟨stmts, others, rest, hlater, hrest⟩ := exists_repeats left
      exact ⟨_, _, rest, .more trivial hitem hlater, hrest⟩
    | ⟨faults, .failed issue left⟩ => exact absurd hitem item_ne_failed
    | ⟨faults, .tooDeep left⟩ =>
      exact ⟨[], [], _, .none _, .inr ⟨token, more, left, rfl, congrArg Reading.outcome hitem⟩⟩
termination_by input.length
decreasing_by exact hleft

end Grammar

end

namespace Program

variable {mode : Grammar.Mode} {tokens rest : List Token} {stmts : List Stmt}

/-- The items in front are complete and give the statements. In the one behind them, which is begun
with the counter at zero, a descent raises the counter above the limit where the rest is left. -/
def Aborts (mode : Grammar.Mode) (input : TokenInput) (stmts : List Stmt) (rest : List Token) :
    Prop :=
  ∃ faults token more construct,
    (Grammar.parts mode input.eof nestingLimit).item.Repeats (fun _ ↦ True) input.tokens stmts
      faults (token :: more) ∧
    Relation.ReflTransGen (Grammar.Descends mode input.eof) ⟨.item, 0, token :: more⟩
      ⟨construct, nestingLimit + 1, rest⟩

theorem aborts_iff {input : TokenInput} :
    Aborts mode input stmts rest ↔
      ∃ faults token more,
        (Grammar.parts mode input.eof nestingLimit).item.Repeats (fun _ ↦ True) input.tokens stmts
          faults (token :: more) ∧
        (Grammar.parts mode input.eof nestingLimit).item.Passes (token :: more) rest := by
  have hdescent (token : Token) (more : List Token) :
      (Grammar.parts mode input.eof nestingLimit).item.Passes (token :: more) rest ↔
        ∃ construct, Relation.ReflTransGen (Grammar.Descends mode input.eof)
          ⟨.item, 0, token :: more⟩ ⟨construct, nestingLimit + 1, rest⟩ := by
    rw [← Grammar.Moment.passes_iff_exists_descent (Nat.zero_le _),
      Grammar.Moment.passes_of_le (Nat.zero_le _)]
    rfl
  simp only [Aborts, hdescent, exists_and_left]

/-- Where the limit is passed, the statements before are kept and the fault for it is the last. -/
theorem parse_of_aborts (h : Aborts mode (TokenInput.ofList tokens) stmts rest) :
    ∃ before, (∀ fault ∈ before, fault.message ≠ "Nesting is too deep") ∧
      parse mode tokens =
        ⟨stmts, before ++ [.atNext (TokenInput.ofList tokens).eof .nestingTooDeep rest]⟩ := by
  obtain ⟨faults, token, more, hrepeats, hpasses⟩ := aborts_iff.mp h
  obtain ⟨others, hitem⟩ := hpasses.exists_faults
  refine ⟨faults ++ others, List.forall_mem_append.mpr
    ⟨Grammar.message_of_repeats hrepeats, Grammar.message_of_item hitem⟩, ?_⟩
  rw [parse, collect_of_repeats hrepeats (Nat.le_refl _) (Nat.le_of_eq List.length_cons),
    collect_of_tooDeep hitem (Nat.lt_add_one more.length), List.append_nil, List.append_assoc]

/-- Where it is not passed, no fault is worded so. -/
theorem exists_aborts_or_message_ne (mode : Grammar.Mode) (tokens : List Token) :
    (∃ stmts rest, Aborts mode (TokenInput.ofList tokens) stmts rest) ∨
      ∀ fault ∈ (parse mode tokens).faults, fault.message ≠ "Nesting is too deep" := by
  obtain ⟨stmts, faults, rest, hrepeats, rfl | ⟨token, more, left, rfl, hpasses⟩⟩ :=
    Grammar.exists_repeats (TokenInput.ofList tokens).tokens
  · right
    rw [parse, collect_of_repeats hrepeats (Nat.le_refl _) (Nat.le_refl _)]
    exact List.forall_mem_append.mpr ⟨Grammar.message_of_repeats hrepeats, List.forall_mem_nil _⟩
  · exact .inl ⟨stmts, left, aborts_iff.mpr ⟨faults, token, more, hrepeats, hpasses⟩⟩

/-- Going past the nesting limit is reported once and ends the reading, whatever the tokens are. The
fault for it is the last, at the token where a descent raises the counter above the limit, and the
statements are those of the items that were complete before. A reader by index, which is left by
every enclosing construct in turn, gives the same program. -/
theorem limit_reported_once (mode : Grammar.Mode) (tokens : List Token) :
    let input := TokenInput.ofList tokens
    let program := parse mode tokens
    Indexed.parse mode (tokens.length + 1) tokens = .ok program ∧
      program.faults.countP (·.message = "Nesting is too deep") ≤ 1 ∧
      (∀ fault ∈ program.faults, fault.message = "Nesting is too deep" →
        program.faults.getLast? = some fault ∧
          ∃ rest, Aborts mode input program.statements rest ∧
            fault = .atNext input.eof .nestingTooDeep rest) ∧
      ∀ stmts rest, Aborts mode input stmts rest →
        program.statements = stmts ∧ .atNext input.eof .nestingTooDeep rest ∈ program.faults := by
  intro input program
  have hreported {stmts : List Stmt} {rest : List Token} (h : Aborts mode input stmts rest) :
      program.statements = stmts ∧ .atNext input.eof .nestingTooDeep rest ∈ program.faults := by
    obtain ⟨before, -, hparse⟩ := parse_of_aborts h
    exact ⟨congrArg statements hparse, by simp [program, hparse, input]⟩
  have hcount {faults : List Fault} (h : ∀ fault ∈ faults, fault.message ≠ "Nesting is too deep") :
      faults.countP (·.message = "Nesting is too deep") = 0 :=
    List.countP_eq_zero.mpr fun fault hfault ↦ by simpa using h fault hfault
  obtain ⟨stmts, rest, haborts⟩ | hnone := exists_aborts_or_message_ne mode tokens
  · obtain ⟨before, hbefore, hparse⟩ := parse_of_aborts haborts
    have hfaults : program.faults = before ++ [.atNext input.eof .nestingTooDeep rest] :=
      congrArg faults hparse
    obtain ⟨rfl, -⟩ := hreported haborts
    refine ⟨Indexed.parse_eq mode (Nat.lt_succ_self _), ?_, ?_, fun _ _ ↦ hreported⟩
    · rw [hfaults, List.countP_append, hcount hbefore, Nat.zero_add]
      exact List.countP_le_length
    · intro fault hfault hmessage
      rw [hfaults, List.mem_append, List.mem_singleton] at hfault
      obtain hfault | rfl := hfault
      · exact absurd hmessage (hbefore fault hfault)
      · exact ⟨by rw [hfaults, List.getLast?_concat], rest, haborts, rfl⟩
  · refine ⟨Indexed.parse_eq mode (Nat.lt_succ_self _), ?_, ?_, fun _ _ ↦ hreported⟩
    · exact Nat.le_trans (Nat.le_of_eq (hcount hnone)) (Nat.zero_le 1)
    · intro fault hfault hmessage
      exact absurd hmessage (hnone fault hfault)

/-- In `nil; --- ...` with 128 signs the limit is passed at the last of them. -/
theorem limit_reported_once_signs :
    let tokens := Token.row 0 ((.kwNil, "nil") :: (.semicolon, ";") ::
      List.replicate 128 (.minus, "-"))
    let program := parse .script tokens
    program.statements.map Stmt.span = [⟨0, 2, 1⟩] ∧
      program.faults = [⟨.single 129 1, .atLexeme "-", .nestingTooDeep⟩] ∧
      ∃ rest, Aborts .script (TokenInput.ofList tokens) program.statements rest := by
  intro tokens program
  have hfaults : program.faults = [⟨.single 129 1, .atLexeme "-", .nestingTooDeep⟩] := by
    decide +kernel
  obtain ⟨-, -, hlast, -⟩ := limit_reported_once .script tokens
  obtain ⟨-, rest, haborts, -⟩ := hlast ⟨.single 129 1, .atLexeme "-", .nestingTooDeep⟩
    (by rw [hfaults]; exact List.mem_singleton_self _) rfl
  exact ⟨by decide +kernel, hfaults, rest, haborts⟩

end Program

end LoxLang
