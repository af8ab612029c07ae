import LoxLang.Proofs.Grammar.Alike
import LoxLang.Proofs.Grammar.Prefix

/-!
# Statements in isolation

Whether a simple statement is well formed or not, reading goes on behind its semicolon. No rule for
expressions takes a semicolon or looks behind one, so what such a rule makes of a text that ends
with its only semicolon is the same whatever follows, and the semicolon is left. A violation is
then raised at a token of the text, and recovering from it ends behind the semicolon, if no keyword
that starts a statement comes before.
-/

namespace LoxLang

/-- The last token is a semicolon, and there is no other. -/
inductive Closed : List Token → Prop where
  | last {closing : Token} (kind : closing.kind = .semicolon) : Closed [closing]
  | cons {token : Token} {rest : List Token} (kind : token.kind ≠ .semicolon)
    (closed : Closed rest) : Closed (token :: rest)

theorem closed_append {body : List Token} {closing : Token} (hclosing : closing.kind = .semicolon)
    (hbody : ∀ token ∈ body, token.kind ≠ .semicolon) : Closed (body ++ [closing]) := by
  induction body with
  | nil => exact .last hclosing
  | cons token body ih =>
    obtain ⟨htoken, hothers⟩ := List.forall_mem_cons.mp hbody
    exact .cons htoken (ih hothers)

/-- What comes next in a closed text does not depend on what is behind it. -/
theorem Closed.head?_append {tokens : List Token} (h : Closed tokens) (tail : List Token) :
    (tokens ++ tail).head? = tokens.head? := by
  cases h <;> rfl

/-! ## Rules that do not look behind a semicolon -/

/-- The outcome with more tokens behind those that are left. -/
def Outcome.extend {α : Type} (tail : List Token) : Outcome α → Outcome α
  | .done value rest => .done value (rest ++ tail)
  | .failed issue rest => .failed issue (rest ++ tail)
  | .tooDeep rest => .tooDeep (rest ++ tail)

def Reading.extend {α : Type} (tail : List Token) (reading : Reading α) : Reading α :=
  ⟨reading.faults, reading.outcome.extend tail⟩

/-- A part of the tokens is left: what the condition allows behind a value, and the semicolon at
least in all other cases. -/
def Outcome.Within {α : Type} (ends : List Token → Prop) (tokens : List Token) : Outcome α → Prop
  | .done _ rest => ends rest ∧ rest <:+ tokens
  | .failed _ rest => Closed rest ∧ rest <:+ tokens
  | .tooDeep rest => Closed rest ∧ rest <:+ tokens

theorem Outcome.Within.mono {α : Type} {ends : List Token → Prop} {rest tokens : List Token}
    {outcome : Outcome α} (h : outcome.Within ends rest) (hrest : rest <:+ tokens) :
    outcome.Within ends tokens := by
  cases outcome <;> exact ⟨h.1, h.2.trans hrest⟩

namespace Rule

variable {α β : Type} {ends : List Token → Prop}

/-- On the tokens the rule does the same whatever is behind them. -/
structure StaysOn (rule : Rule α) (ends : List Token → Prop) (tokens : List Token) : Prop where
  within : (rule tokens).outcome.Within ends tokens
  extend : ∀ tail, rule (tokens ++ tail) = (rule tokens).extend tail

/-- On a closed text the rule does the same whatever is behind the text. -/
def Stays (rule : Rule α) (ends : List Token → Prop) : Prop :=
  ∀ tokens, Closed tokens → rule.StaysOn ends tokens

namespace StaysOn

variable {rule other : Rule α} {tokens : List Token}

theorem of_eq (h : other.StaysOn ends tokens)
    (heq : ∀ tail, rule (tokens ++ tail) = other (tokens ++ tail)) : rule.StaysOn ends tokens := by
  have htokens : rule tokens = other tokens := by simpa using heq []
  constructor
  · rw [htokens]
    exact h.within
  · intro tail
    rw [htokens, heq, h.extend]

/-- A rule that goes on with another behind its first token. -/
theorem of_tail {token : Token} (h : other.StaysOn ends tokens)
    (heq : ∀ rest, rule (token :: rest) = other rest) : rule.StaysOn ends (token :: tokens) := by
  constructor
  · rw [heq]
    exact h.within.mono (List.suffix_cons token tokens)
  · intro tail
    rw [List.cons_append, heq, heq, h.extend]

theorem of_done {token : Token} {value : α} (hends : ends tokens)
    (heq : ∀ rest, rule (token :: rest) = ⟨[], .done value rest⟩) :
    rule.StaysOn ends (token :: tokens) := by
  constructor
  · rw [heq]
    exact ⟨hends, List.suffix_cons token tokens⟩
  · intro tail
    rw [List.cons_append, heq, heq]
    rfl

theorem of_fail {issue : Issue} (h : Closed tokens)
    (heq : ∀ tail, rule (tokens ++ tail) = ⟨[], .failed issue (tokens ++ tail)⟩) :
    rule.StaysOn ends tokens := by
  have htokens : rule tokens = ⟨[], .failed issue tokens⟩ := by simpa using heq []
  constructor
  · rw [htokens]
    exact ⟨h, List.suffix_refl tokens⟩
  · intro tail
    rw [htokens, heq]
    rfl

/-- One rule after another: the first leaves a closed text to the second. -/
theorem bind {first : Rule β} {second : β → Rule α} (h : first.StaysOn Closed tokens)
    (hsecond : ∀ value, (second value).Stays ends) : (first >>= second).StaysOn ends tokens := by
  have hbind (input : List Token) : (first >>= second) input = andThen first second input := rfl
  obtain ⟨hwithin, hextend⟩ := h
  cases hreading : first tokens with
  | mk faults outcome =>
    rw [hreading] at hwithin hextend
    cases outcome with
    | done value rest =>
      obtain ⟨hclosed, hrest⟩ := hwithin
      have hnext := hsecond value rest hclosed
      constructor
      · simp only [hbind, andThen, hreading]
        exact hnext.within.mono hrest
      · intro tail
        simp only [hbind, andThen, hreading, hextend, Reading.extend, Outcome.extend, hnext.extend]
    | failed issue rest =>
      constructor
      · simp only [hbind, andThen, hreading]
        exact hwithin
      · intro tail
        simp only [hbind, andThen, hreading, hextend, Reading.extend, Outcome.extend]
    | tooDeep rest =>
      constructor
      · simp only [hbind, andThen, hreading]
        exact hwithin
      · intro tail
        simp only [hbind, andThen, hreading, hextend, Reading.extend, Outcome.extend]

theorem map (h : rule.StaysOn ends tokens) (f : α → β) : (f <$> rule).StaysOn ends tokens := by
  have hmap (input : List Token) :
      (f <$> rule) input = andThen rule (fun value ↦ done (f value)) input := rfl
  obtain ⟨hwithin, hextend⟩ := h
  cases hreading : rule tokens with
  | mk faults outcome =>
    rw [hreading] at hwithin hextend
    constructor
    · cases outcome <;> simp only [hmap, andThen, hreading] <;> exact hwithin
    · intro tail
      cases outcome <;>
        simp only [hmap, andThen, hreading, hextend, Reading.extend, Outcome.extend, done]

end StaysOn

theorem Stays.bind {first : Rule β} {second : β → Rule α} (h : first.Stays Closed)
    (hsecond : ∀ value, (second value).Stays ends) : (first >>= second).Stays ends :=
  fun tokens hclosed ↦ (h tokens hclosed).bind hsecond

theorem Stays.map {rule : Rule α} (h : rule.Stays ends) (f : α → β) : (f <$> rule).Stays ends :=
  fun tokens hclosed ↦ (h tokens hclosed).map f

theorem stays_pure (value : α) : (pure value : Rule α).Stays Closed :=
  fun tokens hclosed ↦ ⟨⟨hclosed, List.suffix_refl tokens⟩, fun _ ↦ rfl⟩

theorem stays_note (fault : Fault) : (note fault).Stays Closed :=
  fun tokens hclosed ↦ ⟨⟨hclosed, List.suffix_refl tokens⟩, fun _ ↦ rfl⟩

theorem stays_fail (issue : Issue) : (fail issue : Rule α).Stays ends :=
  fun tokens hclosed ↦ ⟨⟨hclosed, List.suffix_refl tokens⟩, fun _ ↦ rfl⟩

theorem stays_tooDeep : (tooDeep : Rule α).Stays ends :=
  fun tokens hclosed ↦ ⟨⟨hclosed, List.suffix_refl tokens⟩, fun _ ↦ rfl⟩

theorem stays_peek : peek.Stays Closed := by
  intro tokens hclosed
  refine ⟨⟨hclosed, List.suffix_refl tokens⟩, fun tail ↦ ?_⟩
  simp only [peek, Reading.extend, Outcome.extend, hclosed.head?_append tail]

theorem stays_accept {wanted : Token.Kind} (h : wanted ≠ .semicolon) :
    (accept wanted).Stays Closed := by
  have hother {token : Token} {rest : List Token} (hkind : token.kind ≠ wanted)
      (hclosed : Closed (token :: rest)) : (accept wanted).StaysOn Closed (token :: rest) := by
    refine (stays_pure none _ hclosed).of_eq fun tail ↦ ?_
    rw [List.cons_append, accept, if_neg hkind]
    rfl
  intro tokens hclosed
  cases hclosed with
  | last hkind => exact hother (hkind ▸ h.symm) (.last hkind)
  | @cons token rest hkind hrest =>
    by_cases hwanted : token.kind = wanted
    · exact .of_done hrest fun _ ↦ if_pos hwanted
    · exact hother hwanted (.cons hkind hrest)

theorem stays_expect {wanted : Token.Kind} {issue : Issue} (h : wanted ≠ .semicolon) :
    (expect wanted issue).Stays Closed := by
  have hother {token : Token} {rest : List Token} (hkind : token.kind ≠ wanted)
      (hclosed : Closed (token :: rest)) : (expect wanted issue).StaysOn Closed (token :: rest) :=
    .of_fail hclosed fun _ ↦ if_neg hkind
  intro tokens hclosed
  cases hclosed with
  | last hkind => exact hother (hkind ▸ h.symm) (.last hkind)
  | @cons token rest hkind hrest =>
    by_cases hwanted : token.kind = wanted
    · exact .of_done hrest fun _ ↦ if_pos hwanted
    · exact hother hwanted (.cons hkind hrest)

/-- Only the semicolon itself is behind the text. -/
theorem stays_expect_semicolon (issue : Issue) : (expect .semicolon issue).Stays (· = []) := by
  intro tokens hclosed
  cases hclosed with
  | last hkind => exact .of_done rfl fun _ ↦ if_pos hkind
  | cons hkind hrest => exact .of_fail (.cons hkind hrest) fun _ ↦ if_neg hkind

end Rule

/-! ## Expressions -/

namespace Grammar

open Rule

structure Level.Stays (level : Level) : Prop where
  assignment : level.assignment.Stays Closed
  unary : level.unary.Stays Closed
  operand (tiers : List Tier) : (level.operand tiers).Stays Closed
  chain (tier : Tier) (tighter : List Tier) (left : Expr) :
    (level.chain tier tighter left).Stays Closed

/-- The level below, if there is one, does. -/
def StaysBelow (below : Option Level) : Prop := ∀ level, below = some level → level.Stays

section

variable {below : Option Level} (hbelow : StaysBelow below)

include hbelow

theorem stays_deeper {α : Type} {rule : Level → Rule α} {ends : List Token → Prop}
    (h : ∀ level : Level, level.Stays → (rule level).Stays ends) :
    (deeper below rule).Stays ends := by
  cases below with
  | none => exact stays_tooDeep
  | some level => exact h level (hbelow level rfl)

theorem stays_group (opening : Span) : (group below opening).Stays Closed := by
  apply stays_peek.bind
  intro next
  split
  · exact stays_fail .emptyParens
  · apply (stays_deeper hbelow fun level hlevel ↦ hlevel.assignment).bind
    intro inner
    exact (stays_expect (by decide)).bind fun closing ↦ stays_pure _

theorem stays_primary : (primary below).Stays Closed := by
  intro tokens hclosed
  cases hclosed with
  | @last closing hkind =>
    obtain ⟨kind, lexeme, literal, span⟩ := closing
    obtain rfl : kind = .semicolon := hkind
    exact (stays_fail (.noExpression .semicolon) _ (.last rfl)).of_eq fun tail ↦ rfl
  | @cons token rest hkind hrest =>
    obtain ⟨kind, lexeme, literal, span⟩ := token
    obtain ⟨value, heq⟩ | heq | ⟨issue, heq⟩ | heq := primary_shape below kind lexeme literal
    · exact .of_done hrest (heq span)
    · exact .of_done hrest (heq span)
    · exact .of_fail (.cons hkind hrest) fun tail ↦ heq span (rest ++ tail)
    · exact (stays_group hbelow span rest hrest).of_tail (heq span)

theorem stays_unary : (unary below).Stays Closed := by
  intro tokens hclosed
  have hprimary := stays_primary hbelow tokens hclosed
  cases hclosed with
  | @last closing hkind =>
    refine hprimary.of_eq fun tail ↦ ?_
    simp only [List.cons_append, unary, hkind, UnaryOp.ofKind?]
  | @cons token rest hkind hrest =>
    cases hop : UnaryOp.ofKind? token.kind with
    | none =>
      refine hprimary.of_eq fun tail ↦ ?_
      simp only [List.cons_append, unary, hop]
    | some op =>
      have hoperand := (stays_deeper hbelow fun level hlevel ↦ hlevel.unary).map fun operand ↦
        Expr.unary op operand (token.span.cover operand.span)
      refine (hoperand rest hrest).of_tail fun left ↦ ?_
      simp only [unary, hop]
      rfl

theorem stays_chain (tier : Tier) (tighter : List Tier) (left : Expr) :
    (chain below tier tighter left).Stays Closed := by
  have hdone {token : Token} {rest : List Token} (hkind : tier.connective? token.kind = none)
      (hclosed : Closed (token :: rest)) :
      (chain below tier tighter left).StaysOn Closed (token :: rest) := by
    refine (stays_pure left _ hclosed).of_eq fun tail ↦ ?_
    simp only [List.cons_append, chain, hkind]
    rfl
  intro tokens hclosed
  cases hclosed with
  | last hkind => exact hdone (by rw [hkind]; cases tier <;> rfl) (.last hkind)
  | @cons token rest hkind hrest =>
    cases hconnective : tier.connective? token.kind with
    | none => exact hdone hconnective (.cons hkind hrest)
    | some connective =>
      have hlink : (deeper below fun level ↦ do
          let right ← level.operand tighter
          level.chain tier tighter (connective.join left right)).Stays Closed := by
        apply stays_deeper hbelow
        intro level hlevel
        exact (hlevel.operand tighter).bind fun right ↦ hlevel.chain tier tighter _
      refine (hlink rest hrest).of_tail fun others ↦ ?_
      simp only [chain, hconnective]

theorem stays_operand (tiers : List Tier) : (operand below tiers).Stays Closed := by
  induction tiers with
  | nil => exact stays_unary hbelow
  | cons tier tighter ih => exact ih.bind fun left ↦ stays_chain hbelow tier tighter left

theorem stays_assignment : (assignment below).Stays Closed := by
  apply (stays_operand hbelow Tier.all).bind
  intro target
  apply (stays_accept (by decide)).bind
  intro equals
  cases equals with
  | none => exact stays_pure target
  | some equals =>
    apply (stays_deeper hbelow fun level hlevel ↦ hlevel.assignment).bind
    intro value
    cases target with
    | reference name span => exact stays_pure _
    | _ => exact (stays_note _).bind fun _ ↦ stays_pure _

theorem Level.stays_above : (Level.above below).Stays where
  assignment := stays_assignment hbelow
  unary := stays_unary hbelow
  operand := stays_operand hbelow
  chain := stays_chain hbelow

end

theorem stays_level (budget : Nat) : (level budget).Stays := by
  induction budget with
  | zero => exact Level.stays_above fun _ h ↦ nomatch h
  | succ budget ih =>
    apply Level.stays_above
    rintro _ ⟨⟩
    exact ih

theorem stays_expression (budget : Nat) : (expression budget).Stays Closed := by
  cases budget with
  | zero => exact stays_tooDeep
  | succ budget => exact (stays_level budget).assignment

/-! ## Statements that end at a semicolon -/

theorem stays_declaration (parts : Parts) (h : parts.expression.Stays Closed) (opening : Span) :
    (parts.declaration opening).Stays (· = []) := by
  have hclosing (name : Token) (initial : Option Expr) :
      (expect .semicolon .noSemicolonAfterDeclaration >>= fun closing ↦ pure (Stmt.declare
        name.lexeme initial (opening.cover closing.span)) : Rule Stmt).Stays (· = []) :=
    (stays_expect_semicolon .noSemicolonAfterDeclaration).map fun closing ↦
      Stmt.declare name.lexeme initial (opening.cover closing.span)
  apply (stays_expect (by decide)).bind
  intro name
  apply (stays_accept (by decide)).bind
  intro equals
  cases equals with
  | none => exact (stays_pure none).bind (hclosing name)
  | some equals => exact (h.map some).bind (hclosing name)

theorem stays_print (parts : Parts) (h : parts.expression.Stays Closed) (opening : Span) :
    (parts.print opening).Stays (· = []) := by
  apply h.bind
  intro expr
  exact (stays_expect_semicolon .noSemicolonAfterValue).map fun closing ↦
    Stmt.print expr (opening.cover closing.span)

/-- An expression statement of a script that starts at the given span. -/
def expressionFrom (budget : Nat) (opening : Span) : Rule Stmt := do
  let expr ← expression budget
  let closing ← Rule.expect .semicolon .noSemicolonAfterExpression
  return .expression expr (opening.cover closing.span)

theorem stays_expressionFrom (budget : Nat) (opening : Span) :
    (expressionFrom budget opening).Stays (· = []) := by
  apply (stays_expression budget).bind
  intro expr
  exact (stays_expect_semicolon .noSemicolonAfterExpression).map fun closing ↦
    Stmt.expression expr (opening.cover closing.span)

/-- In a script the end of the input plays no part. -/
theorem expressionStatement_cons (eof : Span) (budget : Nat) (token : Token) (rest : List Token) :
    (parts .script eof budget).expressionStatement (token :: rest) =
      expressionFrom budget token.span (token :: rest) := by
  rw [Parts.expressionStatement, (Rule.accepts_remaining.mpr ⟨rfl, rfl⟩).bind_eq, parts_expression,
    parts_mode, parts_eof, expressionFrom]
  refine congrFun (congrArg (expression budget >>= ·) ?_) (token :: rest)
  funext expr input
  rw [(Rule.accepts_peek.mpr ⟨rfl, rfl⟩).bind_eq, if_neg (by simp)]
  rfl

/-- The kinds of token that a statement other than an expression starts with. -/
def statementStarts : List Token.Kind := [.kwPrint, .leftBrace, .kwIf, .kwWhile, .kwFor]

theorem body_of_not_mem (parts : Parts) {token : Token} (rest : List Token)
    (h : token.kind ∉ statementStarts) :
    parts.body (token :: rest) = parts.expressionStatement (token :: rest) := by
  simp only [Parts.body]
  split <;> first | rfl | simp_all [statementStarts]

/-- The tokens of a statement without another in it, well formed or not: the last is the only
semicolon, there is no brace, and a keyword that starts a statement can only be the first. -/
structure Simple (tokens : List Token) : Prop where
  closed : ∃ body closing, tokens = body ++ [closing] ∧ closing.kind = .semicolon ∧
    ∀ token ∈ body, token.kind ≠ .semicolon
  plain : ∀ token ∈ tokens, token.kind ∉ [.leftBrace, .rightBrace, .eof]
  first : nextKind tokens ∉ [some .kwIf, some .kwWhile, some .kwFor]
  later : ∀ token ∈ tokens.tail, token.kind ∉
    [.kwClass, .kwFun, .kwVar, .kwFor, .kwIf, .kwWhile, .kwPrint, .kwReturn]

namespace Simple

variable {tokens : List Token} (h : Simple tokens)

include h

theorem isClosed : Closed tokens := by
  obtain ⟨body, closing, rfl, hclosing, hbody⟩ := h.closed
  exact closed_append hclosing hbody

/-- A simple statement is read by a rule that ends at the semicolon, whatever is behind it and
wherever the input ends. -/
theorem exists_rule (budget : Nat) :
    ∃ (rule : Rule Stmt) (left : List Token), rule.Stays (· = []) ∧ Closed left ∧ left <:+ tokens ∧
      ∀ eof tail, (parts .script eof (budget + 1)).declarationOrStatement (tokens ++ tail) =
        rule (left ++ tail) := by
  have hclosed := h.isClosed
  obtain ⟨token, rest, rfl⟩ : ∃ token rest, tokens = token :: rest := by
    cases hclosed <;> exact ⟨_, _, rfl⟩
  have hrest (hkind : token.kind ≠ .semicolon) : Closed rest := by
    cases hclosed with
    | last hlast => exact absurd hlast hkind
    | cons _ hrest => exact hrest
  have hstatement (hvar : token.kind ≠ .kwVar) (eof : Span) (tail : List Token) :
      (parts .script eof (budget + 1)).declarationOrStatement (token :: rest ++ tail) =
        (parts .script eof budget).body (token :: (rest ++ tail)) :=
    (Rule.accepts_accept_none.mpr ⟨by simpa using hvar, rfl⟩).bind_eq
  by_cases hvar : token.kind = .kwVar
  · refine ⟨(parts .script token.span (budget + 1)).declaration token.span, rest,
      stays_declaration _ (by rw [parts_expression]; exact stays_expression _) _,
      hrest (by rw [hvar]; decide), List.suffix_cons token rest, fun eof tail ↦ ?_⟩
    exact (Rule.accepts_accept_some.mpr ⟨hvar, rfl⟩).bind_eq
  by_cases hprint : token.kind = .kwPrint
  · refine ⟨(parts .script token.span budget).print token.span, rest,
      stays_print _ (by rw [parts_expression]; exact stays_expression _) _,
      hrest (by rw [hprint]; decide), List.suffix_cons token rest, fun eof tail ↦ ?_⟩
    rw [hstatement hvar, Parts.body, hprint, Parts.print, Parts.print, parts_expression,
      parts_expression]
  · have hstart : token.kind ∉ statementStarts := by
      have hplain := h.plain token List.mem_cons_self
      have hfirst := h.first
      simp_all [statementStarts]
    refine ⟨expressionFrom budget token.span, token :: rest, stays_expressionFrom _ _, hclosed,
      List.suffix_refl _, fun eof tail ↦ ?_⟩
    rw [hstatement hvar, body_of_not_mem _ _ hstart, expressionStatement_cons]
    rfl

end Simple

/-! ## Recovering behind a semicolon -/

/-- A closed text is passed over up to its end, if no keyword that starts a statement is in it
behind the first token. -/
theorem synchronize_closed {tokens : List Token} (h : Closed tokens)
    (hlater : ∀ token ∈ tokens.tail, startsStatement token.kind = false) (tail : List Token) :
    synchronize (tokens ++ tail) = tail := by
  induction h with
  | last hkind => exact if_pos (.inl hkind)
  | @cons token rest hkind hrest ih =>
    have hnext : ((rest ++ tail).head?.any fun next ↦ startsStatement next.kind) = false := by
      rw [hrest.head?_append, Option.any_eq_false]
      intro next hhead
      exact hlater next (List.mem_of_head? hhead)
    have hgoes : ¬(token.kind = .semicolon ∨
        ((rest ++ tail).head?.any fun next ↦ startsStatement next.kind) = true) := by
      rw [hnext]
      exact not_or.mpr ⟨hkind, Bool.false_ne_true⟩
    rw [List.cons_append, synchronize, if_neg hgoes]
    exact ih fun next hmem ↦ hlater next (List.mem_of_mem_tail hmem)

theorem tail_subset_of_suffix {rest tokens : List Token} (h : rest <:+ tokens) :
    rest.tail ⊆ tokens.tail := by
  cases rest with
  | nil => exact List.nil_subset _
  | cons next others =>
    cases tokens with
    | nil => cases List.eq_nil_of_suffix_nil h
    | cons token rest =>
      rcases List.suffix_cons_iff.mp h with heq | hrest
      · rw [heq]
        exact List.Subset.refl _
      · exact ((List.suffix_cons next others).trans hrest).subset

theorem atNext_closed {tokens : List Token} (h : Closed tokens) (eof other : Span) (issue : Issue)
    (tail : List Token) :
    Fault.atNext eof issue (tokens ++ tail) = Fault.atNext other issue tokens := by
  cases h <;> rfl

/-- A rule that ends at the semicolon reads a value, or gives it up, or is too deep. In none of the
cases does it matter what is behind the semicolon. -/
theorem isolated_recovering {rule : Rule Stmt} {tokens : List Token}
    (h : rule.StaysOn (· = []) tokens)
    (hlater : ∀ token ∈ tokens.tail, startsStatement token.kind = false) :
    (∃ faults stmt, ∀ eof tail,
      recovering eof rule (tokens ++ tail) = ⟨faults, .done stmt tail⟩) ∨
    ∃ faults left, ∀ eof tail,
      recovering eof rule (tokens ++ tail) = ⟨faults, .tooDeep (left ++ tail)⟩ := by
  obtain ⟨hwithin, hextend⟩ := h
  cases hreading : rule tokens with
  | mk faults outcome =>
    rw [hreading] at hwithin hextend
    cases outcome with
    | done stmt rest =>
      obtain ⟨rfl, -⟩ := hwithin
      refine .inl ⟨faults, some stmt, fun eof tail ↦ ?_⟩
      simp only [recovering, hextend, Reading.extend, Outcome.extend, List.nil_append]
    | failed issue rest =>
      obtain ⟨hclosed, hrest⟩ := hwithin
      refine .inl ⟨faults ++ [.atNext ⟨0, 0, 1⟩ issue rest], none, fun eof tail ↦ ?_⟩
      have hskip := synchronize_closed hclosed
        (fun token hmem ↦ hlater token (tail_subset_of_suffix hrest hmem)) tail
      simp only [recovering, hextend, Reading.extend, Outcome.extend, hskip,
        atNext_closed hclosed eof ⟨0, 0, 1⟩]
    | tooDeep rest =>
      refine .inr ⟨faults, rest, fun eof tail ↦ ?_⟩
      simp only [recovering, hextend, Reading.extend, Outcome.extend]

theorem Simple.isolated_item {tokens : List Token} (h : Simple tokens) {budget : Nat}
    (hbudget : budget ≠ 0) :
    (∃ faults stmt, ∀ eof tail,
      (parts .script eof budget).item (tokens ++ tail) = ⟨faults, .done stmt tail⟩) ∨
    ∃ faults left, ∀ eof tail,
      (parts .script eof budget).item (tokens ++ tail) = ⟨faults, .tooDeep (left ++ tail)⟩ := by
  have hlater : ∀ token ∈ tokens.tail, startsStatement token.kind = false := by
    intro token hmem
    have hkind := h.later token hmem
    generalize token.kind = kind at hkind
    revert hkind
    cases kind <;> decide
  obtain ⟨less, rfl⟩ := Nat.exists_eq_succ_of_ne_zero hbudget
  obtain ⟨rule, left, hstays, hclosed, hleft, hrule⟩ := h.exists_rule less
  have hitem (eof : Span) (tail : List Token) :
      (parts .script eof (less + 1)).item (tokens ++ tail) =
        recovering eof rule (left ++ tail) := by
    simp only [Parts.item, recovering, hrule]
    rfl
  simp only [Nat.succ_eq_add_one, hitem]
  exact isolated_recovering (hstays left hclosed) fun token hmem ↦
    hlater token (tail_subset_of_suffix hleft hmem)

end Grammar

namespace Program

/-- Behind a simple statement, well formed or not, everything is read as if it stood alone. -/
theorem parse_simple_append {front others : List Token} (hfront : Grammar.Simple front)
    (hdepth : ∀ fault ∈ (parse .script front).faults, fault.message ≠ "Nesting is too deep") :
    parse .script (front ++ others) =
      ⟨(parse .script front).statements ++ (parse .script others).statements,
        (parse .script front).faults ++ (parse .script others).faults⟩ := by
  have hmarks : ∀ token ∈ front, token.kind ≠ .eof := by
    intro token htoken heof
    exact hfront.plain token htoken (by simp [heof])
  obtain ⟨first, rest, rfl⟩ : ∃ first rest, front = first :: rest := by
    cases hfront.isClosed <;> exact ⟨_, _, rfl⟩
  have hlimit : nestingLimit ≠ 0 := by decide
  obtain ⟨faults, stmt, hitem⟩ | ⟨faults, left, hitem⟩ := hfront.isolated_item hlimit
  · have hparse (last : List Token) : parse .script (first :: rest ++ last) =
        ⟨stmt.toList ++ (parse .script last).statements,
          faults ++ (parse .script last).faults⟩ := by
      apply parse_append_of_repeats hmarks (fun eof ↦ .single trivial (hitem eof _))
      intro htokens
      refine ⟨?_, rfl⟩
      rintro rfl
      exact htokens rfl
    have hnone : parse .script [] = ⟨[], []⟩ := parse_of_no_tokens rfl
    have halone := hparse []
    rw [hnone, List.append_nil, List.append_nil, List.append_nil] at halone
    rw [hparse others, halone]
  · -- The fault of a statement that is too deep was excluded.
    have htooDeep := hitem (TokenInput.ofList (first :: rest)).eof []
    rw [List.append_nil, List.append_nil] at htooDeep
    have halone := collect_of_tooDeep htooDeep (Nat.lt_succ_self rest.length)
    simp only [parse, TokenInput.tokens_of_unmarked hmarks, List.length_cons, halone,
      List.mem_append, List.mem_singleton] at hdepth
    exact absurd (Fault.message_atNext _ _ left) (hdepth _ (.inr rfl))

/-- In `(a) = b c; print }; print nil;` each of the first two statements is broken. -/
theorem parse_simple_append_broken :
    let front := Token.row 0 [(.leftParen, "("), (.identifier, "a"), (.rightParen, ")"),
      (.equal, "="), (.identifier, "b"), (.identifier, "c"), (.semicolon, ";")]
    let others := Token.row 7 [(.kwPrint, "print"), (.rightBrace, "\x7d"), (.semicolon, ";"),
      (.kwPrint, "print"), (.kwNil, "nil"), (.semicolon, ";")]
    Grammar.Simple front ∧
      (∀ fault ∈ (parse .script front).faults, fault.message ≠ "Nesting is too deep") ∧
      parse .script (front ++ others) = ⟨[.print (.literal .nil (.single 11 1)) ⟨10, 13, 1⟩],
        [⟨.single 3 1, .atLexeme "=", .badAssignmentTarget⟩,
          ⟨.single 5 1, .atLexeme "c", .noSemicolonAfterExpression⟩,
          ⟨.single 8 1, .atLexeme "\x7d", .noExpression .rightBrace⟩]⟩ := by
  intro front others
  have hsimple : Grammar.Simple front :=
    ⟨⟨front.take 6, ⟨.semicolon, ";", none, .single 6 1⟩, rfl, rfl, by decide⟩, by decide,
      by decide, by decide⟩
  have hdepth : ∀ fault ∈ (parse .script front).faults, fault.message ≠ "Nesting is too deep" := by
    decide
  refine ⟨hsimple, hdepth, ?_⟩
  rw [parse_simple_append hsimple hdepth]
  rfl

end Program

end LoxLang
