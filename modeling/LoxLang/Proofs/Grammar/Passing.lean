import LoxLang.Proofs.Grammar.Prefix
import LoxLang.Proofs.Grammar.Robustness
import Mathlib.Tactic.Common

/-!
# Where rules go past the nesting limit

A rule can read a value or go past the nesting limit whether it finds faults on the way or not. A
composite rule goes past the limit in one of its parts, behind those that were read before. Here it
is said for each rule of the grammar which parts these can be.
-/

namespace LoxLang

namespace Rule

variable {α β : Type}

/-- The rule reads a value and leaves the rest, whatever faults it finds. -/
def Reads (rule : Rule α) (input : List Token) (value : α) (rest : List Token) : Prop :=
  (rule input).outcome = .done value rest

/-- The rule goes past the nesting limit where the rest is left, whatever faults it finds. -/
def Passes (rule : Rule α) (input rest : List Token) : Prop :=
  (rule input).outcome = .tooDeep rest

theorem Reads.exists_faults {rule : Rule α} {input rest : List Token} {value : α}
    (h : rule.Reads input value rest) : ∃ faults, rule input = ⟨faults, .done value rest⟩ :=
  ⟨(rule input).faults, by rw [← h]⟩

theorem Passes.exists_faults {rule : Rule α} {input rest : List Token}
    (h : rule.Passes input rest) : ∃ faults, rule input = ⟨faults, .tooDeep rest⟩ :=
  ⟨(rule input).faults, by rw [← h]⟩

@[simp]
theorem passes_bind {first : Rule α} {second : α → Rule β} {input rest : List Token} :
    (first >>= second).Passes input rest ↔
      first.Passes input rest ∨
        ∃ part middle, first.Reads input part middle ∧ (second part).Passes middle rest := by
  change (andThen first second input).outcome = _ ↔ (first input).outcome = _ ∨
    ∃ part middle, (first input).outcome = _ ∧ (second part middle).outcome = _
  unfold andThen
  rcases first input with ⟨faults, ⟨part, middle⟩ | issue | left⟩ <;> simp

@[simp]
theorem passes_pure {result : α} {input rest : List Token} :
    ¬(pure result : Rule α).Passes input rest :=
  nofun

@[simp]
theorem passes_fail {issue : Issue} {input rest : List Token} :
    ¬(fail issue : Rule α).Passes input rest :=
  nofun

@[simp]
theorem passes_tooDeep {input rest : List Token} :
    (tooDeep : Rule α).Passes input rest ↔ input = rest := by
  simp [Passes, tooDeep]

@[simp]
theorem passes_note {fault : Fault} {input rest : List Token} : ¬(note fault).Passes input rest :=
  nofun

@[simp]
theorem passes_map {f : α → β} {rule : Rule α} {input rest : List Token} :
    (f <$> rule).Passes input rest ↔ rule.Passes input rest := by
  change (rule >>= fun part ↦ pure (f part)).Passes input rest ↔ _
  simp

@[simp]
theorem passes_remaining {input rest : List Token} : ¬remaining.Passes input rest := nofun

@[simp]
theorem passes_peek {input rest : List Token} : ¬peek.Passes input rest := nofun

@[simp]
theorem passes_accept {wanted : Token.Kind} {input rest : List Token} :
    ¬(accept wanted).Passes input rest := by
  unfold Passes accept
  split
  · nofun
  · split <;> nofun

@[simp]
theorem passes_expect {wanted : Token.Kind} {issue : Issue} {input rest : List Token} :
    ¬(expect wanted issue).Passes input rest := by
  unfold Passes expect
  split
  · nofun
  · split <;> nofun

/-! A rule that finds no fault reads what it accepts. -/

theorem Accepts.reads {rule : Rule α} {input rest : List Token} {value : α}
    (h : rule.Accepts input value rest) : rule.Reads input value rest :=
  congrArg Reading.outcome h

theorem reads_iff_accepts {rule : Rule α} {input rest : List Token} {value : α}
    (h : (rule input).faults = []) :
    rule.Reads input value rest ↔ rule.Accepts input value rest := by
  refine ⟨fun hreads ↦ ?_, Accepts.reads⟩
  rw [Accepts, ← h, ← hreads]

@[simp]
theorem reads_remaining {input rest value : List Token} :
    remaining.Reads input value rest ↔ input = value ∧ input = rest :=
  (reads_iff_accepts rfl).trans accepts_remaining

@[simp]
theorem reads_peek {input rest : List Token} {value : Option Token.Kind} :
    peek.Reads input value rest ↔ nextKind input = value ∧ input = rest :=
  (reads_iff_accepts rfl).trans accepts_peek

theorem faults_accept (wanted : Token.Kind) (input : List Token) :
    (accept wanted input).faults = [] := by
  unfold accept
  split
  · rfl
  · split <;> rfl

theorem faults_expect (wanted : Token.Kind) (issue : Issue) (input : List Token) :
    (expect wanted issue input).faults = [] := by
  unfold expect
  split
  · rfl
  · split <;> rfl

@[simp]
theorem reads_accept_some {wanted : Token.Kind} {input rest : List Token} {token : Token} :
    (accept wanted).Reads input (some token) rest ↔ token.kind = wanted ∧ input = token :: rest :=
  (reads_iff_accepts (faults_accept wanted input)).trans accepts_accept_some

@[simp]
theorem reads_accept_none {wanted : Token.Kind} {input rest : List Token} :
    (accept wanted).Reads input none rest ↔ nextKind input ≠ some wanted ∧ input = rest :=
  (reads_iff_accepts (faults_accept wanted input)).trans accepts_accept_none

@[simp]
theorem reads_expect {wanted : Token.Kind} {issue : Issue} {input rest : List Token}
    {token : Token} :
    (expect wanted issue).Reads input token rest ↔ token.kind = wanted ∧ input = token :: rest :=
  (reads_iff_accepts (faults_expect wanted issue input)).trans accepts_expect

theorem passes_accept_bind {wanted : Token.Kind} {next : Option Token → Rule α}
    {input rest : List Token} :
    (accept wanted >>= next).Passes input rest ↔
      (∃ token left, token.kind = wanted ∧ input = token :: left ∧
        (next (some token)).Passes left rest) ∨
      nextKind input ≠ some wanted ∧ (next none).Passes input rest := by
  simp only [passes_bind, passes_accept, false_or, Option.exists, reads_accept_none,
    reads_accept_some, and_assoc, exists_and_left, exists_eq_left', or_comm]

end Rule

namespace Grammar

/-! ## Expressions -/

section

variable {below : Option Level} {input rest : List Token}

theorem passes_group {opening : Span} :
    (group below opening).Passes input rest ↔
      nextKind input ≠ some .rightParen ∧ (deeper below Level.assignment).Passes input rest := by
  by_cases hnext : nextKind input = some .rightParen <;> simp [group, hnext]

theorem passes_primary :
    (primary below).Passes input rest ↔
      ∃ token left, token.kind = .leftParen ∧ input = token :: left ∧
        (group below token.span).Passes left rest := by
  cases input with
  | nil => simp [Rule.Passes, primary, Rule.fail]
  | cons token more =>
    simp only [Rule.Passes, primary]
    split <;> simp_all [Rule.done, Rule.fail]

theorem passes_unary :
    (unary below).Passes input rest ↔
      (∃ token op left, UnaryOp.ofKind? token.kind = some op ∧ input = token :: left ∧
        (deeper below Level.unary).Passes left rest) ∨
      (∃ token left, token.kind = .leftParen ∧ input = token :: left ∧
        (group below token.span).Passes left rest) := by
  cases input with
  | nil => simp [Rule.Passes, unary, primary, Rule.fail]
  | cons token more =>
    cases hop : UnaryOp.ofKind? token.kind with
    | none =>
      have hunary : unary below (token :: more) = primary below (token :: more) := by
        simp only [unary, hop]
      rw [Rule.Passes, hunary]
      refine Iff.trans passes_primary ⟨.inr, ?_⟩
      rintro (⟨other, op, left, hother, heq, -⟩ | hgroup)
      · obtain ⟨rfl, rfl⟩ := List.cons.inj heq
        rw [hop] at hother
        cases hother
      · exact hgroup
    | some op =>
      have hunary : unary below (token :: more) = (do
          let operand ← deeper below Level.unary
          return Expr.unary op operand (token.span.cover operand.span) : Rule Expr) more := by
        simp only [unary, hop]
      rw [Rule.Passes, hunary]
      refine Iff.trans Rule.passes_map ⟨fun h ↦ .inl ⟨token, op, more, hop, rfl, h⟩, ?_⟩
      rintro (⟨other, _, left, -, heq, h⟩ | ⟨other, left, hparen, heq, -⟩)
      · obtain ⟨rfl, rfl⟩ := List.cons.inj heq
        exact h
      · obtain ⟨rfl, rfl⟩ := List.cons.inj heq
        rw [hparen] at hop
        cases hop

theorem passes_chain {tier : Tier} {tighter : List Tier} {left : Expr} :
    (chain below tier tighter left).Passes input rest ↔
      ∃ token more connective, tier.connective? token.kind = some connective ∧
        input = token :: more ∧
        (deeper below fun level ↦ do
          let right ← level.operand tighter
          level.chain tier tighter (connective.join left right)).Passes more rest := by
  cases input with
  | nil => simp [Rule.Passes, chain, Rule.done]
  | cons token more =>
    simp only [Rule.Passes, chain]
    split <;> simp_all [Rule.done]

theorem passes_operand_cons {tier : Tier} {tighter : List Tier} :
    (operand below (tier :: tighter)).Passes input rest ↔
      (operand below tighter).Passes input rest ∨
        ∃ left middle, (operand below tighter).Reads input left middle ∧
          (chain below tier tighter left).Passes middle rest :=
  Rule.passes_bind

theorem passes_assignment :
    (assignment below).Passes input rest ↔
      (operand below Tier.all).Passes input rest ∨
        ∃ target middle, (operand below Tier.all).Reads input target middle ∧
          ∃ equals left, equals.kind = .equal ∧ middle = equals :: left ∧
            (deeper below Level.assignment).Passes left rest := by
  rw [assignment, Rule.passes_bind]
  refine or_congr Iff.rfl (exists_congr fun target ↦ exists_congr fun middle ↦
    and_congr_right fun _ ↦ ?_)
  -- What is done with the value depends on the target, but takes no token.
  cases target <;>
    simp only [Rule.passes_bind, Rule.passes_accept, false_or, Option.exists,
      Rule.reads_accept_some, and_assoc, Rule.passes_note, Rule.passes_pure, and_false,
      exists_false, or_false]

end

/-! ## Statements -/

namespace Parts

variable {parts : Parts} {opening : Span} {input rest : List Token}

theorem passes_declaration :
    (parts.declaration opening).Passes input rest ↔
      ∃ name left, name.kind = .identifier ∧ input = name :: left ∧
        ∃ equals middle, equals.kind = .equal ∧ left = equals :: middle ∧
          parts.expression.Passes middle rest := by
  simp only [declaration, Rule.passes_bind, Rule.passes_expect, Rule.reads_expect, false_or,
    and_assoc, Rule.passes_accept, Option.exists, Rule.reads_accept_some, Rule.passes_map,
    Rule.passes_pure, and_false, exists_false, or_false]

theorem passes_expressionStatement :
    parts.expressionStatement.Passes input rest ↔ parts.expression.Passes input rest := by
  have hclosing (condition : Prop) [Decidable condition] (first : Stmt) (second : Token → Stmt)
      (input : List Token) :
      ¬(if condition then pure first else do
        let closing ← Rule.expect .semicolon .noSemicolonAfterExpression
        return second closing : Rule Stmt).Passes input rest := by
    split <;> simp
  simp [expressionStatement, hclosing]

theorem passes_print :
    (parts.print opening).Passes input rest ↔ parts.expression.Passes input rest := by
  simp [print]

theorem passes_branch :
    (parts.branch opening).Passes input rest ↔
      ∃ paren left, paren.kind = .leftParen ∧ input = paren :: left ∧
        (parts.expression.Passes left rest ∨
          ∃ condition middle, parts.expression.Reads left condition middle ∧
            ∃ closing more, closing.kind = .rightParen ∧ middle = closing :: more ∧
              (parts.statement.Passes more rest ∨
                ∃ thenBranch after, parts.statement.Reads more thenBranch after ∧
                  ∃ separator last, separator.kind = .kwElse ∧ after = separator :: last ∧
                    parts.statement.Passes last rest)) := by
  simp only [branch, Rule.passes_bind, Rule.passes_expect, Rule.reads_expect, false_or, and_assoc,
    Rule.passes_accept, Option.exists, Rule.reads_accept_some, Rule.passes_pure, and_false,
    exists_false, or_false]

theorem passes_loop :
    (parts.loop opening).Passes input rest ↔
      ∃ paren left, paren.kind = .leftParen ∧ input = paren :: left ∧
        (parts.expression.Passes left rest ∨
          ∃ condition middle, parts.expression.Reads left condition middle ∧
            ∃ closing more, closing.kind = .rightParen ∧ middle = closing :: more ∧
              parts.statement.Passes more rest) := by
  simp only [loop, Rule.passes_bind, Rule.passes_expect, Rule.reads_expect, false_or, and_assoc,
    Rule.passes_pure, and_false, exists_false, or_false]

theorem passes_forInitial :
    parts.forInitial.Passes input rest ↔
      nextKind input ≠ some .semicolon ∧
        ((∃ keyword left, keyword.kind = .kwVar ∧ input = keyword :: left ∧
          (parts.declaration keyword.span).Passes left rest) ∨
        nextKind input ≠ some .kwVar ∧ parts.expression.Passes input rest) := by
  simp only [forInitial, Rule.passes_accept_bind, Rule.passes_pure, and_false, exists_false,
    false_or, Rule.passes_map, passes_expressionStatement]

theorem passes_expressionUnless {stop : Token.Kind} :
    (parts.expressionUnless stop).Passes input rest ↔
      nextKind input ≠ some stop ∧ parts.expression.Passes input rest := by
  by_cases hnext : nextKind input = some stop <;> simp [expressionUnless, hnext]

theorem passes_forClauses :
    parts.forClauses.Passes input rest ↔
      ∃ paren left, paren.kind = .leftParen ∧ input = paren :: left ∧
        (parts.forInitial.Passes left rest ∨
          ∃ initial middle, parts.forInitial.Reads left initial middle ∧
            ((parts.expressionUnless .semicolon).Passes middle rest ∨
              ∃ condition more, (parts.expressionUnless .semicolon).Reads middle condition more ∧
                ∃ separator last, separator.kind = .semicolon ∧ more = separator :: last ∧
                  (parts.expressionUnless .rightParen).Passes last rest)) := by
  simp only [forClauses, Rule.passes_bind, Rule.passes_expect, Rule.reads_expect, false_or,
    and_assoc, Rule.passes_pure, and_false, exists_false, or_false]

theorem passes_item :
    parts.item.Passes input rest ↔ parts.declarationOrStatement.Passes input rest := by
  simp only [Rule.Passes, item, recovering]
  split <;> simp_all

theorem passes_declarationOrStatement :
    parts.declarationOrStatement.Passes input rest ↔
      (∃ keyword left, keyword.kind = .kwVar ∧ input = keyword :: left ∧
        (parts.declaration keyword.span).Passes left rest) ∨
      nextKind input ≠ some .kwVar ∧ parts.statement.Passes input rest :=
  Rule.passes_accept_bind

theorem passes_forLoop :
    (parts.forLoop opening).Passes input rest ↔
      parts.forClauses.Passes input rest ∨
        ∃ clauses middle, parts.forClauses.Reads input clauses middle ∧
          parts.statement.Passes middle rest := by
  simp only [forLoop, Rule.passes_bind, Rule.passes_pure, and_false, exists_false, or_false]

theorem passes_items_cons {bound : Nat} {token : Token} {more : List Token}
    (h : token.kind ≠ .rightBrace) :
    (parts.items (bound + 1)).Passes (token :: more) rest ↔
      parts.item.Passes (token :: more) rest ∨
        ∃ first left, parts.item.Reads (token :: more) first left ∧
          (parts.items bound).Passes left rest := by
  rw [Rule.Passes, Indexed.Tape.items_cons _ h]
  refine Rule.passes_bind.trans ?_
  simp only [Rule.passes_bind, Rule.passes_pure, and_false, exists_false, or_false]

end Parts

/-- Reading items goes past the limit in one of them, behind those that were read before it. -/
theorem passes_items {mode : Mode} {eof : Span} {budget bound : Nat} {input rest : List Token}
    (hbound : input.length ≤ bound) :
    ((parts mode eof budget).items bound).Passes input rest ↔
      ∃ stmts faults token left, token.kind ≠ .rightBrace ∧
        (parts mode eof budget).item.Repeats (·.kind ≠ .rightBrace) input stmts faults
          (token :: left) ∧
        (parts mode eof budget).item.Passes (token :: left) rest := by
  induction bound generalizing input with
  | zero =>
    obtain rfl := List.length_eq_zero_iff.mp (Nat.le_zero.mp hbound)
    refine ⟨nofun, ?_⟩
    rintro ⟨stmts, faults, token, left, -, hrepeats, -⟩
    cases hrepeats
  | succ bound ih =>
    cases input with
    | nil =>
      refine ⟨nofun, ?_⟩
      rintro ⟨stmts, faults, token, left, -, hrepeats, -⟩
      cases hrepeats
    | cons token more =>
      by_cases hbrace : token.kind = .rightBrace
      · rw [Rule.Passes, Indexed.Tape.items_of_closing _ hbrace]
        refine ⟨nofun, ?_⟩
        rintro ⟨stmts, faults, other, left, hother, hrepeats, -⟩
        cases hrepeats with
        | none => exact absurd hbrace hother
        | more hdue => exact absurd hbrace hdue
      have hleft {faults : List Fault} {first : Option Stmt} {left : List Token}
          (hitem : (parts mode eof budget).item (token :: more) = ⟨faults, .done first left⟩) :
          left.length ≤ bound :=
        Nat.le_trans (item_suffix hitem).length_le (Nat.le_of_succ_le_succ hbound)
      rw [Parts.passes_items_cons hbrace]
      constructor
      · rintro (hitem | ⟨first, left, hitem, hlater⟩)
        · exact ⟨[], [], token, more, hbrace, .none _, hitem⟩
        · obtain ⟨found, hreading⟩ := hitem.exists_faults
          obtain ⟨stmts, faults, next, last, hnext, hrepeats, hpasses⟩ :=
            (ih (hleft hreading)).mp hlater
          exact ⟨_, _, next, last, hnext, .more hbrace hreading hrepeats, hpasses⟩
      · rintro ⟨stmts, faults, next, last, hnext, hrepeats, hpasses⟩
        cases hrepeats with
        | none => exact .inl hpasses
        | more _ hreading hlater =>
          refine .inr ⟨_, _, congrArg Reading.outcome hreading, ?_⟩
          exact (ih (hleft hreading)).mpr ⟨_, _, next, last, hnext, hlater, hpasses⟩

theorem passes_block {mode : Mode} {eof opening : Span} {budget : Nat} {input rest : List Token} :
    ((parts mode eof budget).block opening).Passes input rest ↔
      ∃ stmts faults token left, token.kind ≠ .rightBrace ∧
        (parts mode eof budget).item.Repeats (·.kind ≠ .rightBrace) input stmts faults
          (token :: left) ∧
        (parts mode eof budget).item.Passes (token :: left) rest := by
  rw [← passes_items (Nat.le_refl input.length)]
  simp [Parts.block]

end Grammar

end LoxLang
