import LoxLang.Proofs.Grammar.Soundness
import Mathlib.Data.List.Forall2

/-!
# Reading up to spans

Tokens are alike if they differ in their spans alone, and the spans are related in a given way.
The rules look at kinds, lexemes and literals only: from alike tokens they read alike trees,
record alike faults, and leave alike tokens. Spans of nodes are put together from spans of
tokens, so all that is asked of the relation is that it is kept when spans are put together.

Two relations matter. Under the one that holds of any two spans, alike texts are those that
differ in layout; under the one that shifts all spans by the same distance, they are the same
text at two places of a source.
-/

namespace LoxLang

/-- The relation is kept when spans are put together. -/
def Span.Compatible (related : Span → Span → Prop) : Prop :=
  ∀ ⦃first second other last⦄, related first other → related second last →
    related (first.cover second) (other.cover last)

variable {related : Span → Span → Prop}

structure Token.Alike (related : Span → Span → Prop) (token other : Token) : Prop where
  kind : token.kind = other.kind
  lexeme : token.lexeme = other.lexeme
  literal : token.literal = other.literal
  span : related token.span other.span

structure Fault.Alike (related : Span → Span → Prop) (fault other : Fault) : Prop where
  span : related fault.span other.span
  locus : fault.locus = other.locus
  issue : fault.issue = other.issue

inductive Expr.Alike (related : Span → Span → Prop) : Expr → Expr → Prop where
  | literal {span other : Span} (value : Value) (hspan : related span other) :
    Alike related (.literal value span) (.literal value other)
  | grouping {inner last : Expr} {span other : Span} (hinner : Alike related inner last)
    (hspan : related span other) : Alike related (.grouping inner span) (.grouping last other)
  | unary {operand last : Expr} {span other : Span} (op : UnaryOp)
    (hoperand : Alike related operand last) (hspan : related span other) :
    Alike related (.unary op operand span) (.unary op last other)
  | binary {left right first last : Expr} {span other : Span} (op : BinaryOp)
    (hleft : Alike related left first) (hright : Alike related right last)
    (hspan : related span other) :
    Alike related (.binary op left right span) (.binary op first last other)
  | logical {left right first last : Expr} {span other : Span} (op : LogicalOp)
    (hleft : Alike related left first) (hright : Alike related right last)
    (hspan : related span other) :
    Alike related (.logical op left right span) (.logical op first last other)
  | reference {span other : Span} (name : String) (hspan : related span other) :
    Alike related (.reference name span) (.reference name other)
  | assign {value last : Expr} {span other : Span} (name : String)
    (hvalue : Alike related value last) (hspan : related span other) :
    Alike related (.assign name value span) (.assign name last other)

mutual

inductive Stmt.Alike (related : Span → Span → Prop) : Stmt → Stmt → Prop where
  | expression {expr last : Expr} {span other : Span} (hexpr : expr.Alike related last)
    (hspan : related span other) : Alike related (.expression expr span) (.expression last other)
  | print {expr last : Expr} {span other : Span} (hexpr : expr.Alike related last)
    (hspan : related span other) : Alike related (.print expr span) (.print last other)
  | declare {initial last : Option Expr} {span other : Span} (name : String)
    (hinitial : Option.Rel (Expr.Alike related) initial last) (hspan : related span other) :
    Alike related (.declare name initial span) (.declare name last other)
  | block {body last : List Stmt} {span other : Span} (hbody : Stmt.AllAlike related body last)
    (hspan : related span other) : Alike related (.block body span) (.block last other)
  | ifThen {condition guard : Expr} {thenBranch last : Stmt} {span other : Span}
    (hcondition : condition.Alike related guard) (hthen : Alike related thenBranch last)
    (hspan : related span other) :
    Alike related (.branch condition thenBranch none span) (.branch guard last none other)
  | ifElse {condition guard : Expr} {thenBranch elseBranch first last : Stmt} {span other : Span}
    (hcondition : condition.Alike related guard) (hthen : Alike related thenBranch first)
    (helse : Alike related elseBranch last) (hspan : related span other) :
    Alike related (.branch condition thenBranch (some elseBranch) span)
      (.branch guard first (some last) other)
  | loop {condition guard : Expr} {body last : Stmt} {span other : Span}
    (hcondition : condition.Alike related guard) (hbody : Alike related body last)
    (hspan : related span other) :
    Alike related (.loop condition body span) (.loop guard last other)

inductive Stmt.AllAlike (related : Span → Span → Prop) : List Stmt → List Stmt → Prop where
  | nil : AllAlike related [] []
  | cons {stmt last : Stmt} {rest others : List Stmt} (hstmt : Stmt.Alike related stmt last)
    (hrest : AllAlike related rest others) : AllAlike related (stmt :: rest) (last :: others)

end

theorem Expr.alike_refl (hrefl : ∀ span, related span span) (expr : Expr) :
    expr.Alike related expr := by
  induction expr with
  | literal value span => exact .literal value (hrefl span)
  | grouping inner span ih => exact .grouping ih (hrefl span)
  | unary op operand span ih => exact .unary op ih (hrefl span)
  | binary op left right span hleft hright => exact .binary op hleft hright (hrefl span)
  | logical op left right span hleft hright => exact .logical op hleft hright (hrefl span)
  | reference name span => exact .reference name (hrefl span)
  | assign name value span ih => exact .assign name ih (hrefl span)

namespace Expr.Alike

theorem span {expr other : Expr} (h : expr.Alike related other) :
    related expr.span other.span := by
  cases h <;> assumption

theorem join {left right first last : Expr} (hcover : Span.Compatible related)
    (connective : Connective) (hleft : left.Alike related first)
    (hright : right.Alike related last) :
    (connective.join left right).Alike related (connective.join first last) := by
  have hspan := hcover hleft.span hright.span
  cases connective with
  | binary op => exact .binary op hleft hright hspan
  | logical op => exact .logical op hleft hright hspan

theorem isAssign {expr other : Expr} (h : expr.Alike related other) :
    expr.isAssign = other.isAssign := by
  cases h <;> rfl

end Expr.Alike

namespace Stmt

mutual

theorem alike_refl (hrefl : ∀ span, related span span) (stmt : Stmt) : stmt.Alike related stmt := by
  cases stmt with
  | expression expr span => exact .expression (expr.alike_refl hrefl) (hrefl span)
  | print expr span => exact .print (expr.alike_refl hrefl) (hrefl span)
  | declare name initial span =>
    cases initial with
    | none => exact .declare name .none (hrefl span)
    | some expr => exact .declare name (.some (expr.alike_refl hrefl)) (hrefl span)
  | block body span => exact .block (allAlike_refl hrefl body) (hrefl span)
  | branch condition thenBranch elseBranch span =>
    have hcondition := condition.alike_refl hrefl
    cases elseBranch with
    | none => exact .ifThen hcondition (alike_refl hrefl thenBranch) (hrefl span)
    | some elseBranch =>
      exact .ifElse hcondition (alike_refl hrefl thenBranch) (alike_refl hrefl elseBranch)
        (hrefl span)
  | loop condition body span =>
    exact .loop (condition.alike_refl hrefl) (alike_refl hrefl body) (hrefl span)

theorem allAlike_refl (hrefl : ∀ span, related span span) (stmts : List Stmt) :
    AllAlike related stmts stmts := by
  cases stmts with
  | nil => exact .nil
  | cons stmt rest => exact .cons (alike_refl hrefl stmt) (allAlike_refl hrefl rest)

end

theorem Alike.span {stmt other : Stmt} (h : stmt.Alike related other) :
    related stmt.span other.span := by
  cases h <;> assumption

theorem AllAlike.append {first second others last : List Stmt}
    (hfirst : AllAlike related first others) (hsecond : AllAlike related second last) :
    AllAlike related (first ++ second) (others ++ last) := by
  induction first generalizing others with
  | nil =>
    cases hfirst
    exact hsecond
  | cons stmt rest ih =>
    cases hfirst with
    | cons hstmt hrest => exact .cons hstmt (ih hrest)

theorem AllAlike.of_option {stmt other : Option Stmt} (h : Option.Rel (Alike related) stmt other) :
    AllAlike related stmt.toList other.toList := by
  cases h with
  | none => exact .nil
  | some hstmt => exact .cons hstmt .nil

end Stmt

/-! ## Rules -/

section

variable {α β : Type} {values : α → α → Prop} {results : β → β → Prop}

abbrev Token.AllAlike (related : Span → Span → Prop) : List Token → List Token → Prop :=
  List.Forall₂ (Token.Alike related)

theorem nextKind_eq {input other : List Token} (h : Token.AllAlike related input other) :
    nextKind input = nextKind other := by
  cases h with
  | nil => rfl
  | cons htoken _ => rw [nextKind_cons, nextKind_cons, htoken.kind]

inductive Outcome.Alike (related : Span → Span → Prop) (values : α → α → Prop) :
    Outcome α → Outcome α → Prop where
  | done {value last : α} {rest other : List Token} (hvalue : values value last)
    (hrest : Token.AllAlike related rest other) : Alike related values (.done value rest) (.done last other)
  | failed {rest other : List Token} (issue : Issue) (hrest : Token.AllAlike related rest other) :
    Alike related values (.failed issue rest) (.failed issue other)
  | tooDeep {rest other : List Token} (hrest : Token.AllAlike related rest other) :
    Alike related values (.tooDeep rest) (.tooDeep other)

structure Reading.Alike (related : Span → Span → Prop) (values : α → α → Prop)
    (reading other : Reading α) : Prop where
  faults : List.Forall₂ (Fault.Alike related) reading.faults other.faults
  outcome : reading.outcome.Alike related values other.outcome

/-- On alike tokens the rules end alike, with related values. -/
def Rule.Alike (related : Span → Span → Prop) (values : α → α → Prop) (rule other : Rule α) :
    Prop :=
  ∀ input last, Token.AllAlike related input last →
    (rule input).Alike related values (other last)

namespace Rule

theorem Alike.bind {rule other : Rule α} {next last : α → Rule β}
    (h : rule.Alike related values other)
    (hnext : ∀ value found, values value found → (next value).Alike related results (last found)) :
    (rule >>= next).Alike related results (other >>= last) := by
  intro input otherInput hinput
  change (andThen rule next input).Alike related results (andThen other last otherInput)
  unfold andThen
  obtain ⟨hfaults, houtcome⟩ := h input otherInput hinput
  generalize rule input = reading at *
  generalize other otherInput = otherReading at *
  obtain ⟨faults, outcome⟩ := reading
  obtain ⟨otherFaults, otherOutcome⟩ := otherReading
  cases houtcome with
  | done hvalue hrest =>
    obtain ⟨hmore, hend⟩ := hnext _ _ hvalue _ _ hrest
    exact ⟨List.rel_append hfaults hmore, hend⟩
  | failed issue hrest => exact ⟨hfaults, .failed issue hrest⟩
  | tooDeep hrest => exact ⟨hfaults, .tooDeep hrest⟩

theorem alike_pure {value other : α} (h : values value other) :
    (pure value : Rule α).Alike related values (pure other) :=
  fun _ _ hinput ↦ ⟨.nil, .done h hinput⟩

theorem Alike.map {f g : α → β} {rule other : Rule α} (h : rule.Alike related values other)
    (hmap : ∀ value found, values value found → results (f value) (g found)) :
    (f <$> rule).Alike related results (g <$> other) :=
  h.bind fun value found hvalue ↦ alike_pure (hmap value found hvalue)

theorem alike_fail (issue : Issue) : (fail issue : Rule α).Alike related values (fail issue) :=
  fun _ _ hinput ↦ ⟨.nil, .failed issue hinput⟩

theorem alike_tooDeep : (tooDeep : Rule α).Alike related values tooDeep :=
  fun _ _ hinput ↦ ⟨.nil, .tooDeep hinput⟩

theorem alike_note {fault other : Fault} (h : fault.Alike related other) :
    (note fault).Alike related (fun _ _ ↦ True) (note other) :=
  fun _ _ hinput ↦ ⟨.cons h .nil, .done trivial hinput⟩

theorem alike_remaining : remaining.Alike related (Token.AllAlike related) remaining :=
  fun _ _ hinput ↦ ⟨.nil, .done hinput hinput⟩

theorem alike_peek : peek.Alike related Eq peek :=
  fun _ _ hinput ↦ ⟨.nil, .done (nextKind_eq hinput) hinput⟩

theorem alike_accept (wanted : Token.Kind) :
    (accept wanted).Alike related (Option.Rel (Token.Alike related)) (accept wanted) := by
  intro input other hinput
  cases hinput with
  | nil => exact ⟨.nil, .done .none .nil⟩
  | cons htoken hrest =>
    simp only [accept, htoken.kind]
    split
    · exact ⟨.nil, .done (.some htoken) hrest⟩
    · exact ⟨.nil, .done .none (.cons htoken hrest)⟩

theorem alike_expect (wanted : Token.Kind) (issue : Issue) :
    (expect wanted issue).Alike related (Token.Alike related) (expect wanted issue) := by
  intro input other hinput
  cases hinput with
  | nil => exact ⟨.nil, .failed issue .nil⟩
  | cons htoken hrest =>
    simp only [expect, htoken.kind]
    split
    · exact ⟨.nil, .done htoken hrest⟩
    · exact ⟨.nil, .failed issue (.cons htoken hrest)⟩

end Rule

theorem Fault.alike_atToken {token other : Token} (issue : Issue)
    (h : token.Alike related other) :
    (Fault.atToken token issue).Alike related (Fault.atToken other issue) :=
  ⟨h.span, congrArg Locus.atLexeme h.lexeme, rfl⟩

theorem Fault.alike_atNext {eof other : Span} {rest last : List Token} (issue : Issue)
    (heof : related eof other) (hrest : Token.AllAlike related rest last) :
    (Fault.atNext eof issue rest).Alike related (Fault.atNext other issue last) := by
  cases hrest with
  | nil => exact ⟨heof, rfl, rfl⟩
  | cons htoken _ => exact Fault.alike_atToken issue htoken

end

/-! ## Expressions -/

namespace Grammar

/-- The rules of the level read alike expressions. -/
structure Level.Alike (related : Span → Span → Prop) (level : Level) : Prop where
  assignment : level.assignment.Alike related (Expr.Alike related) level.assignment
  unary : level.unary.Alike related (Expr.Alike related) level.unary
  operand (tiers : List Tier) :
    (level.operand tiers).Alike related (Expr.Alike related) (level.operand tiers)
  chain (tier : Tier) (tighter : List Tier) {left first : Expr} : left.Alike related first →
    (level.chain tier tighter left).Alike related (Expr.Alike related)
      (level.chain tier tighter first)

def AlikeBelow (related : Span → Span → Prop) (below : Option Level) : Prop :=
  ∀ level, below = some level → level.Alike related

theorem alike_deeper {α : Type} {values : α → α → Prop} {below : Option Level}
    {rule other : Level → Rule α} (hbelow : AlikeBelow related below)
    (h : ∀ level : Level, level.Alike related → (rule level).Alike related values (other level)) :
    (deeper below rule).Alike related values (deeper below other) := by
  cases below with
  | none => exact Rule.alike_tooDeep
  | some level => exact h level (hbelow level rfl)

/-- What a primary makes of a token does not depend on the span. -/
theorem primary_shape (below : Option Level) (kind : Token.Kind) (lexeme : String)
    (literal : Option Literal) :
    (∃ value, ∀ span rest, primary below (⟨kind, lexeme, literal, span⟩ :: rest) =
      Rule.done (.literal value span) rest) ∨
    (∀ span rest, primary below (⟨kind, lexeme, literal, span⟩ :: rest) =
      Rule.done (.reference lexeme span) rest) ∨
    (∃ issue, ∀ span rest, primary below (⟨kind, lexeme, literal, span⟩ :: rest) =
      Rule.fail issue (⟨kind, lexeme, literal, span⟩ :: rest)) ∨
    ∀ span rest, primary below (⟨kind, lexeme, literal, span⟩ :: rest) = group below span rest := by
  rcases literal with - | x | s <;> cases kind <;> first
    | exact .inl ⟨_, fun _ _ ↦ rfl⟩
    | exact .inr (.inl fun _ _ ↦ rfl)
    | exact .inr (.inr (.inl ⟨.noExpression _, fun _ _ ↦ rfl⟩))
    | exact .inr (.inr (.inl ⟨_, fun _ _ ↦ rfl⟩))
    | exact .inr (.inr (.inr fun _ _ ↦ rfl))

section

variable (hcover : Span.Compatible related) {below : Option Level}
  (hbelow : AlikeBelow related below)

include hcover hbelow

theorem alike_group {opening other : Span} (hopening : related opening other) :
    (group below opening).Alike related (Expr.Alike related) (group below other) := by
  refine Rule.alike_peek.bind ?_
  rintro next _ rfl
  split
  · exact Rule.alike_fail _
  · refine (alike_deeper hbelow fun _ hlevel ↦ hlevel.assignment).bind fun _ _ hinner ↦ ?_
    refine (Rule.alike_expect _ _).bind fun _ _ hclosing ↦ ?_
    exact Rule.alike_pure (.grouping hinner (hcover hopening hclosing.span))

theorem alike_primary : (primary below).Alike related (Expr.Alike related) (primary below) := by
  intro input other hinput
  cases hinput with
  | nil => exact Rule.alike_fail _ [] [] .nil
  | @cons token last rest others htoken hrest =>
    obtain ⟨kind, lexeme, literal, span⟩ := token
    obtain ⟨_, _, _, lastSpan⟩ := last
    obtain ⟨rfl, rfl, rfl, hspan⟩ := htoken
    obtain ⟨value, heq⟩ | heq | ⟨issue, heq⟩ | heq := primary_shape below kind lexeme literal <;>
      rw [heq, heq]
    · exact ⟨.nil, .done (.literal value hspan) hrest⟩
    · exact ⟨.nil, .done (.reference lexeme hspan) hrest⟩
    · exact Rule.alike_fail issue _ _ (.cons ⟨rfl, rfl, rfl, hspan⟩ hrest)
    · exact alike_group hcover hbelow hspan _ _ hrest

theorem alike_unary : (unary below).Alike related (Expr.Alike related) (unary below) := by
  intro input other hinput
  have hprimary := alike_primary hcover hbelow input other hinput
  cases hinput with
  | nil => exact hprimary
  | @cons token last rest others htoken hrest =>
    simp only [unary, htoken.kind]
    split
    · exact hprimary
    · next op _ =>
      have hoperand := alike_deeper hbelow fun _ hlevel ↦ hlevel.unary
      refine (hoperand.bind fun operand found hoperand ↦ Rule.alike_pure ?_) rest others hrest
      exact .unary op hoperand (hcover htoken.span hoperand.span)

theorem alike_chain (tier : Tier) (tighter : List Tier) {left first : Expr}
    (hleft : left.Alike related first) :
    (chain below tier tighter left).Alike related (Expr.Alike related)
      (chain below tier tighter first) := by
  intro input other hinput
  cases hinput with
  | nil => exact ⟨.nil, .done hleft .nil⟩
  | @cons token last rest others htoken hrest =>
    simp only [chain, htoken.kind]
    split
    · exact ⟨.nil, .done hleft (.cons htoken hrest)⟩
    · next connective _ =>
      refine alike_deeper hbelow (fun level hlevel ↦ ?_) rest others hrest
      refine (hlevel.operand tighter).bind fun right found hright ↦ ?_
      exact hlevel.chain tier tighter (hleft.join hcover connective hright)

theorem alike_operand (tiers : List Tier) :
    (operand below tiers).Alike related (Expr.Alike related) (operand below tiers) := by
  induction tiers with
  | nil => exact alike_unary hcover hbelow
  | cons tier tighter ih =>
    exact ih.bind fun left first hleft ↦ alike_chain hcover hbelow tier tighter hleft

theorem alike_assignment :
    (assignment below).Alike related (Expr.Alike related) (assignment below) := by
  refine (alike_operand hcover hbelow Tier.all).bind fun target found htarget ↦ ?_
  refine (Rule.alike_accept .equal).bind fun _ _ hequals ↦ ?_
  cases hequals with
  | none => exact Rule.alike_pure htarget
  | some hequals =>
    refine (alike_deeper hbelow fun _ hlevel ↦ hlevel.assignment).bind fun value last hvalue ↦ ?_
    have hnote := Rule.alike_note (Fault.alike_atToken .badAssignmentTarget hequals)
    cases htarget with
    | reference name hspan =>
      exact Rule.alike_pure (.assign name hvalue (hcover hspan hvalue.span))
    | literal value hspan => exact hnote.bind fun _ _ _ ↦ Rule.alike_pure (.literal value hspan)
    | grouping hinner hspan =>
      exact hnote.bind fun _ _ _ ↦ Rule.alike_pure (.grouping hinner hspan)
    | unary op hoperand hspan =>
      exact hnote.bind fun _ _ _ ↦ Rule.alike_pure (.unary op hoperand hspan)
    | binary op hleft hright hspan =>
      exact hnote.bind fun _ _ _ ↦ Rule.alike_pure (.binary op hleft hright hspan)
    | logical op hleft hright hspan =>
      exact hnote.bind fun _ _ _ ↦ Rule.alike_pure (.logical op hleft hright hspan)
    | assign name hassigned hspan =>
      exact hnote.bind fun _ _ _ ↦ Rule.alike_pure (.assign name hassigned hspan)

theorem Level.alike_above : (Level.above below).Alike related where
  assignment := alike_assignment hcover hbelow
  unary := alike_unary hcover hbelow
  operand := alike_operand hcover hbelow
  chain := alike_chain hcover hbelow

end

theorem alike_level (hcover : Span.Compatible related) (budget : Nat) :
    (level budget).Alike related := by
  induction budget with
  | zero => exact Level.alike_above hcover (by simp [AlikeBelow])
  | succ budget ih =>
    apply Level.alike_above hcover
    rintro _ ⟨⟩
    exact ih

theorem alike_expression (hcover : Span.Compatible related) (budget : Nat) :
    (expression budget).Alike related (Expr.Alike related) (expression budget) := by
  cases budget with
  | zero => exact Rule.alike_tooDeep
  | succ budget => exact (alike_level hcover budget).assignment

/-! ## Statements -/

/-- The rules for the parts of statements read alike trees, in one mode. -/
structure Parts.Alike (related : Span → Span → Prop) (parts other : Parts) : Prop where
  mode : parts.mode = other.mode
  eof : related parts.eof other.eof
  expression : parts.expression.Alike related (Expr.Alike related) other.expression
  statement : parts.statement.Alike related (Stmt.Alike related) other.statement

structure ForClauses.Alike (related : Span → Span → Prop) (clauses other : ForClauses) : Prop where
  initial : Option.Rel (Stmt.Alike related) clauses.initial other.initial
  condition : Option.Rel (Expr.Alike related) clauses.condition other.condition
  separator : related clauses.separator other.separator
  increment : Option.Rel (Expr.Alike related) clauses.increment other.increment

theorem ForClauses.Alike.toLoop {clauses other : ForClauses} {body last : Stmt}
    {span otherSpan : Span} (h : clauses.Alike related other) (hbody : body.Alike related last)
    (hspan : related span otherSpan) :
    (clauses.toLoop body span).Alike related (other.toLoop last otherSpan) := by
  obtain ⟨initial, condition, separator, increment⟩ := clauses
  obtain ⟨otherInitial, otherCondition, otherSeparator, otherIncrement⟩ := other
  obtain ⟨hinitial, hcondition, hseparator, hincrement⟩ := h
  have hguard : (condition.getD (.literal (.bool true) separator)).Alike related
      (otherCondition.getD (.literal (.bool true) otherSeparator)) := by
    cases hcondition with
    | none => exact .literal _ hseparator
    | some hcondition => exact hcondition
  cases hincrement with
  | none =>
    have hloop := Stmt.Alike.loop hguard hbody hspan
    cases hinitial with
    | none => exact hloop
    | some hinitial => exact .block (.cons hinitial (.cons hloop .nil)) hspan
  | some hincrement =>
    have hstep := Stmt.Alike.expression hincrement hincrement.span
    have hrepeated := Stmt.Alike.block (.cons hbody (.cons hstep .nil)) hspan
    have hloop := Stmt.Alike.loop hguard hrepeated hspan
    cases hinitial with
    | none => exact hloop
    | some hinitial => exact .block (.cons hinitial (.cons hloop .nil)) hspan

theorem firstSpan_related {eof other : Span} {tokens last : List Token} (heof : related eof other)
    (h : Token.AllAlike related tokens last) :
    related (firstSpan eof tokens) (firstSpan other last) := by
  cases h with
  | nil => exact heof
  | cons htoken _ => exact htoken.span

theorem lastSpan_related {eof other : Span} {tokens last : List Token} (heof : related eof other)
    (h : Token.AllAlike related tokens last) :
    related (lastSpan eof tokens) (lastSpan other last) := by
  have hreverse := firstSpan_related heof (List.forall₂_reverse_iff.mpr h)
  simpa [firstSpan, lastSpan] using hreverse

theorem synchronize_alike {tokens last : List Token} (h : Token.AllAlike related tokens last) :
    Token.AllAlike related (synchronize tokens) (synchronize last) := by
  induction h with
  | nil => exact .nil
  | @cons token other rest others htoken hrest ih =>
    have hnext : (rest.head?.any fun next ↦ startsStatement next.kind) =
        others.head?.any fun next ↦ startsStatement next.kind := by
      cases hrest with
      | nil => rfl
      | cons hnext _ => simp [hnext.kind]
    simp only [synchronize, htoken.kind, hnext]
    split
    · exact hrest
    · exact ih

theorem alike_recovering {α : Type} {values : α → α → Prop} {eof other : Span} {rule last : Rule α}
    (heof : related eof other) (h : rule.Alike related values last) :
    (recovering eof rule).Alike related (Option.Rel values) (recovering other last) := by
  intro input otherInput hinput
  unfold recovering
  obtain ⟨hfaults, houtcome⟩ := h input otherInput hinput
  generalize rule input = reading at *
  generalize last otherInput = otherReading at *
  obtain ⟨faults, outcome⟩ := reading
  obtain ⟨otherFaults, otherOutcome⟩ := otherReading
  cases houtcome with
  | done hvalue hrest => exact ⟨hfaults, .done (.some hvalue) hrest⟩
  | failed issue hrest =>
    have hfault := Fault.alike_atNext issue heof hrest
    exact ⟨List.rel_append hfaults (.cons hfault .nil), .done .none (synchronize_alike hrest)⟩
  | tooDeep hrest => exact ⟨hfaults, .tooDeep hrest⟩

namespace Parts

section

variable (hcover : Span.Compatible related) {parts last : Parts} (hparts : parts.Alike related last)
  {opening other : Span} (hopening : related opening other)

include hparts in
theorem alike_some_expression : (some <$> parts.expression).Alike related
    (Option.Rel (Expr.Alike related)) (some <$> last.expression) :=
  hparts.expression.map fun _ _ hexpr ↦ .some hexpr

include hcover hparts hopening

theorem alike_declaration : (parts.declaration opening).Alike related (Stmt.Alike related)
    (last.declaration other) := by
  refine (Rule.alike_expect _ _).bind fun name found hname ↦ ?_
  have hclosed {initial first : Option Expr}
      (hinitial : Option.Rel (Expr.Alike related) initial first) :
      (Rule.expect .semicolon .noSemicolonAfterDeclaration >>= fun closing ↦
        pure (Stmt.declare name.lexeme initial (opening.cover closing.span))).Alike related
        (Stmt.Alike related)
        (Rule.expect .semicolon .noSemicolonAfterDeclaration >>= fun closing ↦
          pure (Stmt.declare found.lexeme first (other.cover closing.span))) := by
    refine (Rule.alike_expect _ _).bind fun _ _ hclosing ↦ Rule.alike_pure ?_
    rw [hname.lexeme]
    exact .declare _ hinitial (hcover hopening hclosing.span)
  refine (Rule.alike_accept .equal).bind fun _ _ hequals ↦ ?_
  cases hequals with
  | none => exact hclosed .none
  | some _ => exact (alike_some_expression hparts).bind fun _ _ hinitial ↦ hclosed hinitial

theorem alike_print : (parts.print opening).Alike related (Stmt.Alike related)
    (last.print other) := by
  refine hparts.expression.bind fun _ _ hexpr ↦ ?_
  refine (Rule.alike_expect _ _).bind fun _ _ hclosing ↦ ?_
  exact Rule.alike_pure (.print hexpr (hcover hopening hclosing.span))

theorem alike_branch : (parts.branch opening).Alike related (Stmt.Alike related)
    (last.branch other) := by
  refine (Rule.alike_expect _ _).bind fun _ _ _ ↦ ?_
  refine hparts.expression.bind fun _ _ hcondition ↦ ?_
  refine (Rule.alike_expect _ _).bind fun _ _ _ ↦ ?_
  refine hparts.statement.bind fun _ _ hthen ↦ ?_
  refine (Rule.alike_accept .kwElse).bind fun _ _ helse ↦ ?_
  cases helse with
  | none => exact Rule.alike_pure (.ifThen hcondition hthen (hcover hopening hthen.span))
  | some _ =>
    refine hparts.statement.bind fun _ _ helse ↦ ?_
    exact Rule.alike_pure (.ifElse hcondition hthen helse (hcover hopening helse.span))

theorem alike_loop : (parts.loop opening).Alike related (Stmt.Alike related) (last.loop other) := by
  refine (Rule.alike_expect _ _).bind fun _ _ _ ↦ ?_
  refine hparts.expression.bind fun _ _ hcondition ↦ ?_
  refine (Rule.alike_expect _ _).bind fun _ _ _ ↦ ?_
  refine hparts.statement.bind fun _ _ hbody ↦ ?_
  exact Rule.alike_pure (.loop hcondition hbody (hcover hopening hbody.span))

omit hopening

theorem alike_expressionStatement : parts.expressionStatement.Alike related (Stmt.Alike related)
    last.expressionStatement := by
  refine Rule.alike_remaining.bind fun input found hinput ↦ ?_
  refine hparts.expression.bind fun _ _ hexpr ↦ ?_
  have hfirst := firstSpan_related hparts.eof hinput
  refine Rule.alike_peek.bind ?_
  rintro next _ rfl
  rw [hparts.mode]
  split
  · exact Rule.alike_pure (.expression hexpr (hcover hfirst (lastSpan_related hparts.eof hinput)))
  · refine (Rule.alike_expect _ _).bind fun _ _ hclosing ↦ ?_
    exact Rule.alike_pure (.expression hexpr (hcover hfirst hclosing.span))

theorem alike_forInitial : parts.forInitial.Alike related (Option.Rel (Stmt.Alike related))
    last.forInitial := by
  refine (Rule.alike_accept .semicolon).bind fun _ _ hclosing ↦ ?_
  cases hclosing with
  | some _ => exact Rule.alike_pure .none
  | none =>
    refine (Rule.alike_accept .kwVar).bind fun _ _ hkeyword ↦ ?_
    cases hkeyword with
    | some hkeyword =>
      exact (alike_declaration hcover hparts hkeyword.span).map fun _ _ hstmt ↦ .some hstmt
    | none => exact (alike_expressionStatement hcover hparts).map fun _ _ hstmt ↦ .some hstmt

omit hcover in
theorem alike_expressionUnless (stop : Token.Kind) : (parts.expressionUnless stop).Alike related
    (Option.Rel (Expr.Alike related)) (last.expressionUnless stop) := by
  refine Rule.alike_peek.bind ?_
  rintro next _ rfl
  split
  · exact Rule.alike_pure .none
  · exact alike_some_expression hparts

theorem alike_forClauses : parts.forClauses.Alike related (ForClauses.Alike related)
    last.forClauses := by
  refine (Rule.alike_expect _ _).bind fun _ _ _ ↦ ?_
  refine (alike_forInitial hcover hparts).bind fun _ _ hinitial ↦ ?_
  refine (alike_expressionUnless hparts .semicolon).bind fun _ _ hcondition ↦ ?_
  refine (Rule.alike_expect _ _).bind fun _ _ hseparator ↦ ?_
  refine (alike_expressionUnless hparts .rightParen).bind fun _ _ hincrement ↦ ?_
  refine (Rule.alike_expect _ _).bind fun _ _ _ ↦ ?_
  exact Rule.alike_pure ⟨hinitial, hcondition, hseparator.span, hincrement⟩

theorem alike_forLoop (hopening : related opening other) :
    (parts.forLoop opening).Alike related (Stmt.Alike related) (last.forLoop other) := by
  refine (alike_forClauses hcover hparts).bind fun _ _ hclauses ↦ ?_
  refine hparts.statement.bind fun _ _ hbody ↦ ?_
  exact Rule.alike_pure (hclauses.toLoop hbody (hcover hopening hbody.span))

theorem alike_item : parts.item.Alike related (Option.Rel (Stmt.Alike related)) last.item := by
  refine alike_recovering hparts.eof ?_
  refine (Rule.alike_accept .kwVar).bind fun _ _ hkeyword ↦ ?_
  cases hkeyword with
  | some hkeyword => exact alike_declaration hcover hparts hkeyword.span
  | none => exact hparts.statement

theorem alike_items (bound : Nat) : (parts.items bound).Alike related (Stmt.AllAlike related)
    (last.items bound) := by
  induction bound with
  | zero => exact Rule.alike_pure .nil
  | succ bound ih =>
    refine Rule.alike_peek.bind ?_
    rintro next _ rfl
    split
    · exact Rule.alike_pure .nil
    · exact Rule.alike_pure .nil
    · refine (alike_item hcover hparts).bind fun _ _ hfirst ↦ ?_
      refine ih.bind fun _ _ hothers ↦ ?_
      exact Rule.alike_pure (.append (.of_option hfirst) hothers)

theorem alike_block (hopening : related opening other) :
    (parts.block opening).Alike related (Stmt.Alike related) (last.block other) := by
  refine Rule.alike_remaining.bind fun input found hinput ↦ ?_
  rw [hinput.length_eq]
  refine (alike_items hcover hparts _).bind fun _ _ hbody ↦ ?_
  refine (Rule.alike_expect _ _).bind fun _ _ hclosing ↦ ?_
  exact Rule.alike_pure (.block hbody (hcover hopening hclosing.span))

theorem alike_body : parts.body.Alike related (Stmt.Alike related) last.body := by
  intro input otherInput hinput
  have hexpression := alike_expressionStatement hcover hparts input otherInput hinput
  cases hinput with
  | nil => exact hexpression
  | cons htoken hrest =>
    simp only [body, htoken.kind]
    split
    · exact alike_print hcover hparts htoken.span _ _ hrest
    · exact alike_block hcover hparts htoken.span _ _ hrest
    · exact alike_branch hcover hparts htoken.span _ _ hrest
    · exact alike_loop hcover hparts htoken.span _ _ hrest
    · exact alike_forLoop hcover hparts htoken.span _ _ hrest
    · exact hexpression

end

end Parts

theorem alike_parts (hcover : Span.Compatible related) {eof other : Span} (heof : related eof other)
    (mode : Mode) (budget : Nat) : (parts mode eof budget).Alike related (parts mode other budget) := by
  induction budget with
  | zero => exact ⟨rfl, heof, alike_expression hcover 0, Rule.alike_tooDeep⟩
  | succ budget ih =>
    exact ⟨rfl, heof, alike_expression hcover (budget + 1), Parts.alike_body hcover ih⟩

end Grammar

/-! ## Programs -/

structure Program.Alike (related : Span → Span → Prop) (program other : Program) : Prop where
  statements : Stmt.AllAlike related program.statements other.statements
  faults : List.Forall₂ (Fault.Alike related) program.faults other.faults

namespace Program

theorem alike_collect {eof other : Span} {item last : Rule (Option Stmt)} (heof : related eof other)
    (hitem : item.Alike related (Option.Rel (Stmt.Alike related)) last) (bound : Nat)
    {tokens others : List Token} (htokens : Token.AllAlike related tokens others) :
    (collect eof item bound tokens).Alike related (collect other last bound others) := by
  induction bound generalizing tokens others with
  | zero => exact ⟨.nil, .nil⟩
  | succ bound ih =>
    cases htokens with
    | nil => exact ⟨.nil, .nil⟩
    | @cons token otherToken rest otherRest htoken hrest =>
      obtain ⟨hfaults, houtcome⟩ := hitem _ _ (.cons htoken hrest)
      simp only [collect]
      generalize item (token :: rest) = reading at *
      generalize last (otherToken :: otherRest) = otherReading at *
      obtain ⟨faults, outcome⟩ := reading
      obtain ⟨otherFaults, otherOutcome⟩ := otherReading
      have hended {left otherLeft : List Token} (issue : Issue)
          (hleft : Token.AllAlike related left otherLeft) :
          Alike related ⟨[], faults ++ [.atNext eof issue left]⟩
            ⟨[], otherFaults ++ [.atNext other issue otherLeft]⟩ :=
        ⟨.nil, List.rel_append hfaults (.cons (Fault.alike_atNext issue heof hleft) .nil)⟩
      cases houtcome with
      | done hstmt hleft =>
        obtain ⟨hstatements, hothers⟩ := ih hleft
        exact ⟨.append (.of_option hstmt) hstatements, List.rel_append hfaults hothers⟩
      | failed issue hleft => exact hended issue hleft
      | tooDeep hleft => exact hended .nestingTooDeep hleft

/-- Alike tokens, each list with its mark at the end, are read as alike programs. -/
theorem alike_parse (hcover : Span.Compatible related) {tokens others : List Token}
    {mark other : Token} (hmark : mark.kind = .eof) (htokens : ∀ token ∈ tokens, token.kind ≠ .eof)
    (h : Token.AllAlike related tokens others) (hmarks : mark.Alike related other)
    (mode : Grammar.Mode) :
    (parse mode (tokens ++ [mark])).Alike related (parse mode (others ++ [other])) := by
  have hothers : ∀ token ∈ others, token.kind ≠ .eof := by
    induction h with
    | nil => exact List.forall_mem_nil _
    | cons htoken _ ih =>
      obtain ⟨hfirst, hrest⟩ := List.forall_mem_cons.mp htokens
      exact List.forall_mem_cons.mpr ⟨htoken.kind ▸ hfirst, ih hrest⟩
  simp only [parse, TokenInput.ofList_append_endMark htokens hmark,
    TokenInput.ofList_append_endMark hothers (hmarks.kind ▸ hmark), h.length_eq]
  have hparts := Grammar.alike_parts hcover hmarks.span mode nestingLimit
  exact alike_collect hmarks.span (Grammar.Parts.alike_item hcover hparts) _ h

end Program

end LoxLang
