import LoxLang.Program
import LoxLang.Proofs.Scan.Placement

/-!
# Locations of faults and nodes

On tokens that stand in a source, every rule records only faults that point at the right
place of it, and every node that it builds marks a stretch of it. This holds however the
rule ends, and in both modes.

The span of a node goes from the start of its first part to the end of its last, so the
first part must not start behind the last. A rule is therefore followed with an offset
that is not behind any token it can still read; a node that it builds starts at or behind
the offset, and what is left of the input does not start before the node.
-/

namespace LoxLang

/-- The fault points at the right place of the source: its span marks a stretch, which is the
lexeme if one is named, and the empty stretch at the end if the end is named. -/
structure Fault.Located (source : List Char) (fault : Fault) : Prop where
  placed : fault.span.Placed source
  lexeme : ∀ lexeme, fault.locus = .atLexeme lexeme → fault.span.Marks source lexeme.toList
  atEnd : fault.locus = .atEnd →
    fault.span.start = Text.byteLength source ∧ fault.span.stop = Text.byteLength source

/-- The span marks the end of the source. -/
structure Span.AtEnd (source : List Char) (span : Span) : Prop where
  marks : span.Marks source []
  start_eq : span.start = Text.byteLength source

namespace Fault

variable {source : List Char}

theorem located_plain {span : Span} (issue : Issue) (h : span.Placed source) :
    (plain span issue).Located source where
  placed := h
  lexeme := by simp [plain]
  atEnd := by simp [plain]

theorem located_atToken {token : Token} (issue : Issue)
    (h : token.span.Marks source token.lexeme.toList) : (atToken token issue).Located source where
  placed := ⟨token.lexeme.toList, h⟩
  lexeme := by
    rintro lexeme ⟨⟩
    exact h
  atEnd := by simp [atToken]

theorem located_atEnd {eof : Span} (issue : Issue) (h : eof.AtEnd source) :
    (⟨eof, .atEnd, issue⟩ : Fault).Located source where
  placed := ⟨[], h.marks⟩
  lexeme := by simp
  atEnd := by
    obtain ⟨before, rest, -, hstart, hstop, -⟩ := h.marks
    rw [List.append_nil, ← hstart, h.start_eq] at hstop
    exact fun _ ↦ ⟨h.start_eq, hstop⟩

theorem located_atNext {eof : Span} {start : Nat} {tokens : List Token} (issue : Issue)
    (heof : eof.AtEnd source) (h : Scan.Stands source start tokens) :
    (atNext eof issue tokens).Located source := by
  cases tokens with
  | nil => exact located_atEnd issue heof
  | cons token rest => exact located_atToken issue (h.marks token List.mem_cons_self)

end Fault

open Scan (Stands)

/-! ## Rules -/

/-- A rule ends with what the condition asks for, or stops where no token that is left starts
before the offset. -/
def Outcome.Ends {α : Type} (source : List Char) (start : Nat) (post : α → List Token → Prop) :
    Outcome α → Prop
  | done value rest => post value rest
  | failed _ rest => Stands source start rest
  | tooDeep rest => Stands source start rest

/-- Spans of what was read mark stretches of the source, and what follows does not start before
the offset. -/
structure Found (source : List Char) (start : Nat) (spans : List Span) (rest : List Token) :
    Prop where
  placed : ∀ span ∈ spans, span.Placed source
  rest : Stands source start rest

theorem Outcome.Ends.mono {α : Type} {source : List Char} {start later : Nat}
    {post goal : α → List Token → Prop} {outcome : Outcome α} (h : outcome.Ends source later post)
    (hle : start ≤ later) (himp : ∀ value rest, post value rest → goal value rest) :
    outcome.Ends source start goal := by
  cases outcome with
  | done value rest => exact himp value rest h
  | failed issue rest => exact Stands.mono h hle
  | tooDeep rest => exact Stands.mono h hle

namespace Rule

variable {α β : Type} {source : List Char} {start : Nat} {input : List Token}

/-- On the input the rule records faults at the right places only, and ends as asked for. -/
structure Locates (source : List Char) (start : Nat) (rule : Rule α) (input : List Token)
    (post : α → List Token → Prop) : Prop where
  faults : ∀ fault ∈ (rule input).faults, fault.Located source
  outcome : (rule input).outcome.Ends source start post

namespace Locates

variable {post goal : α → List Token → Prop} {rule : Rule α}

theorem of_eq {other : Rule α} {otherInput : List Token}
    (h : Locates source start other otherInput post) (heq : rule input = other otherInput) :
    Locates source start rule input post where
  faults := heq ▸ h.faults
  outcome := heq ▸ h.outcome

theorem mono {later : Nat} (h : Locates source later rule input post) (hle : start ≤ later)
    (himp : ∀ value rest, post value rest → goal value rest) :
    Locates source start rule input goal where
  faults := h.faults
  outcome := h.outcome.mono hle himp

theorem weaken {later : Nat} (h : Locates source later rule input post) (hle : start ≤ later) :
    Locates source start rule input post :=
  h.mono hle fun _ _ ↦ id

theorem bind {next : α → Rule β} {goal : β → List Token → Prop}
    (h : Locates source start rule input post)
    (hnext : ∀ value rest, post value rest → Locates source start (next value) rest goal) :
    Locates source start (rule >>= next) input goal := by
  have hbind : (rule >>= next) input = andThen rule next input := rfl
  obtain ⟨hfaults, houtcome⟩ := h
  unfold andThen at hbind
  cases hreading : rule input with
  | mk faults outcome =>
    rw [hreading] at hbind hfaults houtcome
    cases outcome with
    | done value rest =>
      have hsecond := hnext value rest houtcome
      constructor <;> rw [hbind]
      · exact List.forall_mem_append.mpr ⟨hfaults, hsecond.faults⟩
      · exact hsecond.outcome
    | failed issue rest => constructor <;> rw [hbind] <;> assumption
    | tooDeep rest => constructor <;> rw [hbind] <;> assumption

end Locates

theorem locates_pure {value : α} {post : α → List Token → Prop} (h : post value input) :
    Locates source start (pure value) input post :=
  ⟨List.forall_mem_nil _, h⟩

theorem locates_fail {issue : Issue} {post : α → List Token → Prop}
    (h : Stands source start input) : Locates source start (fail issue) input post :=
  ⟨List.forall_mem_nil _, h⟩

theorem locates_tooDeep {post : α → List Token → Prop} (h : Stands source start input) :
    Locates source start tooDeep input post :=
  ⟨List.forall_mem_nil _, h⟩

theorem locates_note {fault : Fault} (h : fault.Located source) :
    Locates source start (note fault) input fun _ rest ↦ rest = input :=
  ⟨List.forall_mem_singleton.mpr h, rfl⟩

theorem locates_remaining :
    Locates source start remaining input fun tokens rest ↦ tokens = input ∧ rest = input :=
  ⟨List.forall_mem_nil _, rfl, rfl⟩

theorem locates_peek : Locates source start peek input fun _ rest ↦ rest = input :=
  ⟨List.forall_mem_nil _, rfl⟩

theorem Locates.map {f : α → β} {rule : Rule α} {goal : β → List Token → Prop}
    (h : Locates source start rule input fun value rest ↦ goal (f value) rest) :
    Locates source start (f <$> rule) input goal :=
  h.bind fun _ _ hvalue ↦ locates_pure hvalue

/-- A token that was taken stands in the source, and what follows does not start before it. -/
structure Taken (source : List Char) (start : Nat) (token : Token) (rest : List Token) : Prop where
  marks : token.span.Marks source token.lexeme.toList
  start_le : start ≤ token.span.start
  rest : Stands source token.span.start rest

theorem Taken.placed {token : Token} {rest : List Token} (h : Taken source start token rest) :
    token.span.Placed source :=
  ⟨token.lexeme.toList, h.marks⟩

theorem Taken.stands {token : Token} {rest : List Token} (h : Taken source start token rest) :
    Stands source start rest :=
  h.rest.mono h.start_le

theorem taken_of_stands {token : Token} {rest : List Token}
    (h : Stands source start (token :: rest)) : Taken source start token rest :=
  ⟨h.marks token List.mem_cons_self, h.start_le token List.mem_cons_self, h.tail⟩

theorem locates_expect {wanted : Token.Kind} {issue : Issue} (h : Stands source start input) :
    Locates source start (expect wanted issue) input (Taken source start) := by
  cases input with
  | nil => exact ⟨List.forall_mem_nil _, h⟩
  | cons token rest =>
    by_cases hkind : token.kind = wanted
    · constructor <;> simp only [expect, hkind, if_true]
      · exact List.forall_mem_nil _
      · exact taken_of_stands h
    · constructor <;> simp only [expect, hkind, if_false]
      · exact List.forall_mem_nil _
      · exact h

theorem locates_accept {wanted : Token.Kind} (h : Stands source start input) :
    Locates source start (accept wanted) input fun found rest ↦
      (found = none ∧ rest = input) ∨ ∃ token, found = some token ∧ Taken source start token rest := by
  cases input with
  | nil => exact ⟨List.forall_mem_nil _, .inl ⟨rfl, rfl⟩⟩
  | cons token rest =>
    by_cases hkind : token.kind = wanted
    · constructor <;> simp only [accept, hkind, if_true]
      · exact List.forall_mem_nil _
      · exact .inr ⟨token, rfl, taken_of_stands h⟩
    · constructor <;> simp only [accept, hkind, if_false]
      · exact List.forall_mem_nil _
      · exact .inl ⟨rfl, rfl⟩

end Rule

/-! ## Expressions -/

namespace Expr

/-- The spans of an expression and of all its parts. -/
def spans : Expr → List Span
  | literal _ span => [span]
  | reference _ span => [span]
  | grouping inner span => span :: inner.spans
  | unary _ operand span => span :: operand.spans
  | binary _ left right span => span :: (left.spans ++ right.spans)
  | logical _ left right span => span :: (left.spans ++ right.spans)
  | assign _ value span => span :: value.spans

theorem span_mem_spans (expr : Expr) : expr.span ∈ expr.spans := by
  cases expr <;> exact List.mem_cons_self

/-- An expression that was read: its nodes mark stretches of the source, it does not start
before the offset, and what follows does not start before it. -/
structure Read (source : List Char) (start : Nat) (expr : Expr) (rest : List Token) : Prop where
  placed : ∀ span ∈ expr.spans, span.Placed source
  start_le : start ≤ expr.span.start
  rest : Stands source expr.span.start rest

theorem Read.placed_span {source : List Char} {start : Nat} {expr : Expr} {rest : List Token}
    (h : expr.Read source start rest) : expr.span.Placed source :=
  h.placed expr.span expr.span_mem_spans

theorem Read.stands {source : List Char} {start : Nat} {expr : Expr} {rest : List Token}
    (h : expr.Read source start rest) : Stands source start rest :=
  h.rest.mono h.start_le

theorem Read.found {source : List Char} {start : Nat} {expr : Expr} {rest : List Token}
    (h : expr.Read source start rest) : Found source start expr.spans rest :=
  ⟨h.placed, h.stands⟩

/-- A node from the start of its first part to the end of its last. -/
theorem Read.of_cover {source : List Char} {start : Nat} {expr : Expr} {rest : List Token}
    {first last : Span} {others : List Span} (hspan : expr.span = first.cover last)
    (hspans : expr.spans = expr.span :: others) (hfirst : first.Placed source)
    (hlast : last.Placed source) (hothers : ∀ span ∈ others, span.Placed source)
    (hstart : start ≤ first.start) (hle : first.start ≤ last.start)
    (hrest : Stands source first.start rest) : expr.Read source start rest := by
  have heq : expr.span.start = first.start := by
    rw [hspan, Span.cover_start hle]
  refine ⟨?_, ?_, ?_⟩
  · rw [hspans, hspan]
    exact List.forall_mem_cons.mpr ⟨hfirst.cover hlast hle, hothers⟩
  · rw [heq]
    exact hstart
  · rw [heq]
    exact hrest

/-- A node that is nothing but a token. -/
theorem Read.of_token {source : List Char} {start : Nat} {expr : Expr} {token : Token}
    {rest : List Token} (hspans : expr.spans = [token.span])
    (h : Rule.Taken source start token rest) : expr.Read source start rest := by
  have hspan : expr.span = token.span := by
    have hmem := expr.span_mem_spans
    rw [hspans] at hmem
    exact List.mem_singleton.mp hmem
  refine ⟨?_, ?_, ?_⟩
  · rw [hspans]
    exact List.forall_mem_singleton.mpr h.placed
  · rw [hspan]
    exact h.start_le
  · rw [hspan]
    exact h.rest

end Expr

theorem Expr.Read.join {source : List Char} {start : Nat} {left right : Expr}
    {input rest : List Token} (connective : Connective) (hleft : left.Read source start input)
    (hright : right.Read source left.span.start rest) :
    (connective.join left right).Read source start rest := by
  have hspan : (connective.join left right).span = left.span.cover right.span := by
    cases connective <;> rfl
  have hspans : (connective.join left right).spans =
      (connective.join left right).span :: (left.spans ++ right.spans) := by
    cases connective <;> rfl
  have hothers := List.forall_mem_append.mpr ⟨hleft.placed, hright.placed⟩
  exact .of_cover hspan hspans hleft.placed_span hright.placed_span hothers hleft.start_le
    hright.start_le hright.stands

namespace Grammar

variable {source : List Char} {start : Nat} {input : List Token}

/-- Every rule of the level reads expressions with their places. -/
structure Level.Locates (source : List Char) (level : Level) : Prop where
  assignment {start : Nat} {input : List Token} : Stands source start input →
    level.assignment.Locates source start input (Expr.Read source start)
  unary {start : Nat} {input : List Token} : Stands source start input →
    level.unary.Locates source start input (Expr.Read source start)
  operand (tiers : List Tier) {start : Nat} {input : List Token} : Stands source start input →
    (level.operand tiers).Locates source start input (Expr.Read source start)
  chain (tier : Tier) (tighter : List Tier) {left : Expr} {start : Nat} {input : List Token} :
    left.Read source start input →
      (level.chain tier tighter left).Locates source start input (Expr.Read source start)

/-- The level below, if there is one, does. -/
def LocatesBelow (source : List Char) (below : Option Level) : Prop :=
  ∀ level, below = some level → level.Locates source

theorem locates_deeper {α : Type} {below : Option Level} {rule : Level → Rule α}
    {post : α → List Token → Prop} (hbelow : LocatesBelow source below)
    (hinput : Stands source start input)
    (h : ∀ level : Level, level.Locates source → (rule level).Locates source start input post) :
    (deeper below rule).Locates source start input post := by
  cases below with
  | none => exact Rule.locates_tooDeep hinput
  | some level => exact h level (hbelow level rfl)

/-- A primary is a leaf at its token, a violation at the token, or a grouping. -/
theorem primary_cons (below : Option Level) (token : Token) (rest : List Token) :
    (∃ expr : Expr, expr.spans = [token.span] ∧
      primary below (token :: rest) = Rule.done expr rest) ∨
    (∃ issue, primary below (token :: rest) = Rule.fail issue (token :: rest)) ∨
    primary below (token :: rest) = group below token.span rest := by
  simp only [primary]
  split <;> first
    | exact .inl ⟨_, rfl, rfl⟩
    | exact .inr (.inl ⟨_, rfl⟩)
    | exact .inr (.inr rfl)

section

variable {below : Option Level} (hbelow : LocatesBelow source below)

include hbelow

theorem locates_group {opening : Token} (hopening : Rule.Taken source start opening input) :
    (group below opening.span).Locates source start input (Expr.Read source start) := by
  refine Rule.Locates.weaken ?_ hopening.start_le
  apply Rule.locates_peek.bind
  rintro next _ rfl
  split
  · exact Rule.locates_fail hopening.rest
  · apply (locates_deeper hbelow hopening.rest fun level h ↦ h.assignment hopening.rest).bind
    intro inner _ hinner
    apply (Rule.locates_expect hinner.stands).bind
    intro closing _ hclosing
    exact Rule.locates_pure (.of_cover rfl rfl hopening.placed hclosing.placed hinner.placed
      hopening.start_le hclosing.start_le hclosing.stands)

theorem locates_primary (hinput : Stands source start input) :
    (primary below).Locates source start input (Expr.Read source start) := by
  cases input with
  | nil => exact (Rule.locates_fail hinput).of_eq rfl
  | cons token rest =>
    have htoken := Rule.taken_of_stands hinput
    rcases primary_cons below token rest with ⟨expr, hspans, heq⟩ | ⟨issue, heq⟩ | heq
    · exact (Rule.locates_pure (Expr.Read.of_token hspans htoken)).of_eq heq
    · exact (Rule.locates_fail hinput).of_eq heq
    · exact (locates_group hbelow htoken).of_eq heq

theorem locates_unary (hinput : Stands source start input) :
    (unary below).Locates source start input (Expr.Read source start) := by
  cases input with
  | nil => exact (locates_primary hbelow hinput).of_eq rfl
  | cons token rest =>
    have htoken := Rule.taken_of_stands hinput
    cases hop : UnaryOp.ofKind? token.kind with
    | none => exact (locates_primary hbelow hinput).of_eq (by simp only [unary, hop])
    | some op =>
      have hoperand : (deeper below Level.unary).Locates source token.span.start rest
          (Expr.Read source token.span.start) :=
        locates_deeper hbelow htoken.rest fun level h ↦ h.unary htoken.rest
      have hsigned : (deeper below Level.unary >>= fun operand ↦ pure (Expr.unary op operand
          (token.span.cover operand.span))).Locates source token.span.start rest
          (Expr.Read source start) := by
        apply hoperand.bind
        intro operand _ hread
        apply Rule.locates_pure
        exact .of_cover rfl rfl htoken.placed hread.placed_span hread.placed htoken.start_le
          hread.start_le hread.stands
      exact (hsigned.weaken htoken.start_le).of_eq (by simp only [unary, hop])

theorem locates_chain (tier : Tier) (tighter : List Tier) {left : Expr}
    (hleft : left.Read source start input) :
    (chain below tier tighter left).Locates source start input (Expr.Read source start) := by
  cases input with
  | nil => exact (Rule.locates_pure hleft).of_eq rfl
  | cons token rest =>
    have htoken := Rule.taken_of_stands hleft.rest
    cases hconnective : tier.connective? token.kind with
    | none =>
      have hstep : chain below tier tighter left (token :: rest) = Rule.done left (token :: rest) := by
        simp only [chain, hconnective]
      exact (Rule.locates_pure hleft).of_eq hstep
    | some connective =>
      have hrest : Stands source left.span.start rest := htoken.stands
      have hstep : chain below tier tighter left (token :: rest) = deeper below (fun level ↦ do
          let right ← level.operand tighter
          level.chain tier tighter (connective.join left right)) rest := by
        simp only [chain, hconnective]
      refine Rule.Locates.of_eq ?_ hstep
      apply locates_deeper hbelow (hrest.mono hleft.start_le)
      intro level hlevel
      apply ((hlevel.operand tighter hrest).weaken hleft.start_le).bind
      intro right _ hright
      exact hlevel.chain tier tighter (hleft.join connective hright)

theorem locates_operand (tiers : List Tier) (hinput : Stands source start input) :
    (operand below tiers).Locates source start input (Expr.Read source start) := by
  induction tiers generalizing input with
  | nil => exact locates_unary hbelow hinput
  | cons tier tighter ih =>
    apply (ih hinput).bind
    intro left _ hleft
    exact locates_chain hbelow tier tighter hleft

theorem locates_assignment (hinput : Stands source start input) :
    (assignment below).Locates source start input (Expr.Read source start) := by
  apply (locates_operand hbelow Tier.all hinput).bind
  intro target _ htarget
  apply ((Rule.locates_accept htarget.rest).weaken htarget.start_le).bind
  rintro _ _ (⟨rfl, rfl⟩ | ⟨equals, rfl, hequals⟩)
  · exact Rule.locates_pure htarget
  · have hrest := hequals.stands
    have hvalue : (deeper below Level.assignment).Locates source target.span.start _
        (Expr.Read source target.span.start) :=
      locates_deeper hbelow hrest fun level h ↦ h.assignment hrest
    apply (hvalue.weaken htarget.start_le).bind
    intro value _ hread
    split
    · exact Rule.locates_pure (.of_cover rfl rfl htarget.placed_span hread.placed_span hread.placed
        htarget.start_le hread.start_le hread.stands)
    · apply (Rule.locates_note (Fault.located_atToken _ hequals.marks)).bind
      rintro _ _ rfl
      exact Rule.locates_pure ⟨htarget.placed, htarget.start_le, hread.stands⟩

theorem Level.locates_above : (Level.above below).Locates source where
  assignment := locates_assignment hbelow
  unary := locates_unary hbelow
  operand := fun tiers _ _ ↦ locates_operand hbelow tiers
  chain := fun tier tighter _ _ _ ↦ locates_chain hbelow tier tighter

end

theorem locates_level (source : List Char) (budget : Nat) : (level budget).Locates source := by
  induction budget with
  | zero => exact Level.locates_above fun level h ↦ nomatch h
  | succ budget ih => exact Level.locates_above fun level h ↦ Option.some.inj h ▸ ih

theorem locates_expression (budget : Nat) (hinput : Stands source start input) :
    (expression budget).Locates source start input (Expr.Read source start) := by
  cases budget with
  | zero => exact Rule.locates_tooDeep hinput
  | succ budget => exact (locates_level source budget).assignment hinput

end Grammar

/-! ## Statements -/

namespace Stmt

mutual

/-- The spans of a statement and of all its parts. -/
def spans : Stmt → List Span
  | expression expr span => span :: expr.spans
  | print expr span => span :: expr.spans
  | declare _ none span => [span]
  | declare _ (some initial) span => span :: initial.spans
  | block body span => span :: spansOfAll body
  | branch condition thenBranch none span => span :: (condition.spans ++ thenBranch.spans)
  | branch condition thenBranch (some elseBranch) span =>
    span :: (condition.spans ++ (thenBranch.spans ++ elseBranch.spans))
  | loop condition body span => span :: (condition.spans ++ body.spans)
termination_by structural stmt => stmt

def spansOfAll : List Stmt → List Span
  | [] => []
  | stmt :: rest => stmt.spans ++ spansOfAll rest
termination_by structural stmts => stmts

end

theorem spansOfAll_append (first second : List Stmt) :
    spansOfAll (first ++ second) = spansOfAll first ++ spansOfAll second := by
  induction first with
  | nil => rfl
  | cons stmt rest ih => simp [spansOfAll, ih]

theorem span_mem_spans (stmt : Stmt) : stmt.span ∈ stmt.spans := by
  cases stmt with
  | declare name initial span => cases initial <;> exact List.mem_cons_self
  | branch condition thenBranch elseBranch span => cases elseBranch <;> exact List.mem_cons_self
  | expression => exact List.mem_cons_self
  | print => exact List.mem_cons_self
  | block => exact List.mem_cons_self
  | loop => exact List.mem_cons_self

/-- A statement that was read: its nodes mark stretches of the source, and neither it nor what
follows starts before the offset. -/
structure Read (source : List Char) (start : Nat) (stmt : Stmt) (rest : List Token) : Prop where
  placed : ∀ span ∈ stmt.spans, span.Placed source
  start_le : start ≤ stmt.span.start
  rest : Stands source start rest

theorem Read.placed_span {source : List Char} {start : Nat} {stmt : Stmt} {rest : List Token}
    (h : stmt.Read source start rest) : stmt.span.Placed source :=
  h.placed stmt.span stmt.span_mem_spans

theorem Read.found {source : List Char} {start : Nat} {stmt : Stmt} {rest : List Token}
    (h : stmt.Read source start rest) : Found source start stmt.spans rest :=
  ⟨h.placed, h.rest⟩

/-- A statement from the start of its first part to the end of its last. -/
theorem Read.of_cover {source : List Char} {start : Nat} {stmt : Stmt} {rest : List Token}
    {first last : Span} {others : List Span} (hspan : stmt.span = first.cover last)
    (hspans : stmt.spans = stmt.span :: others) (hfirst : first.Placed source)
    (hlast : last.Placed source) (hothers : ∀ span ∈ others, span.Placed source)
    (hstart : start ≤ first.start) (hle : first.start ≤ last.start)
    (hrest : Stands source start rest) : stmt.Read source start rest := by
  refine ⟨?_, ?_, hrest⟩
  · rw [hspans, hspan]
    exact List.forall_mem_cons.mpr ⟨hfirst.cover hlast hle, hothers⟩
  · rw [hspan, Span.cover_start hle]
    exact hstart

/-- A statement that starts with a token. -/
theorem Read.of_opening {source : List Char} {start : Nat} {stmt : Stmt} {input rest : List Token}
    {opening : Token} {last : Span} {others : List Span}
    (hopening : Rule.Taken source start opening input)
    (hspan : stmt.span = opening.span.cover last) (hspans : stmt.spans = stmt.span :: others)
    (hlast : last.Placed source) (hothers : ∀ span ∈ others, span.Placed source)
    (hle : opening.span.start ≤ last.start) (hrest : Stands source opening.span.start rest) :
    stmt.Read source start rest :=
  .of_cover hspan hspans hopening.placed hlast hothers hopening.start_le hle
    (hrest.mono hopening.start_le)

end Stmt

namespace Grammar

/-- The rules for the parts read expressions and statements with their places. -/
structure Parts.Locates (source : List Char) (parts : Parts) : Prop where
  eof : parts.eof.AtEnd source
  expression {start : Nat} {input : List Token} : Stands source start input →
    parts.expression.Locates source start input (Expr.Read source start)
  statement {start : Nat} {input : List Token} : Stands source start input →
    parts.statement.Locates source start input (Stmt.Read source start)

/-- The input does not start before its first token, or its end if no token is left. -/
theorem stands_firstSpan {source : List Char} {start : Nat} {input : List Token} {eof : Span}
    (heof : eof.AtEnd source) (h : Stands source start input) :
    (firstSpan eof input).Placed source ∧ start ≤ (firstSpan eof input).start ∧
      Stands source (firstSpan eof input).start input := by
  cases input with
  | nil =>
    have hstart : start ≤ eof.start := by
      rw [heof.start_eq]
      exact h.start_le_length
    have hlength : eof.start ≤ Text.byteLength source := Nat.le_of_eq heof.start_eq
    exact ⟨⟨[], heof.marks⟩, hstart, hlength, List.forall_mem_nil _, .nil, List.forall_mem_nil _⟩
  | cons token rest =>
    have htoken := Rule.taken_of_stands h
    refine ⟨htoken.placed, htoken.start_le, htoken.rest.start_le_length, h.marks, h.sorted, ?_⟩
    exact List.forall_mem_cons.mpr ⟨Nat.le_refl _, htoken.rest.start_le⟩

theorem placed_lastSpan {source : List Char} {start : Nat} {input : List Token} {eof : Span}
    (heof : eof.AtEnd source) (h : Stands source start input) :
    (lastSpan eof input).Placed source ∧ start ≤ (lastSpan eof input).start := by
  unfold lastSpan
  cases hlast : input.getLast? with
  | none =>
    refine ⟨⟨[], heof.marks⟩, ?_⟩
    rw [Option.map_none, Option.getD_none, heof.start_eq]
    exact h.start_le_length
  | some token =>
    have hmem : token ∈ input := List.mem_of_getLast? hlast
    exact ⟨h.placed hmem, h.start_le token hmem⟩

/-- The spans of the clauses and of all their parts. -/
def ForClauses.spans (clauses : ForClauses) : List Span :=
  (clauses.initial.map Stmt.spans).getD [] ++ ((clauses.condition.map Expr.spans).getD [] ++
    clauses.separator :: (clauses.increment.map Expr.spans).getD [])

theorem ForClauses.span_toLoop (clauses : ForClauses) (body : Stmt) (span : Span) :
    (clauses.toLoop body span).span = span := by
  unfold toLoop
  cases clauses.initial <;> rfl

/-- A `for` loop has no spans but those of its clauses, of its body and its own. -/
theorem ForClauses.placed_toLoop {source : List Char} {clauses : ForClauses} {body : Stmt}
    {span : Span} (hclauses : ∀ span ∈ clauses.spans, span.Placed source)
    (hbody : ∀ span ∈ body.spans, span.Placed source) (hspan : span.Placed source) :
    ∀ part ∈ (clauses.toLoop body span).spans, part.Placed source := by
  obtain ⟨initial, condition, separator, increment⟩ := clauses
  simp only [spans, List.forall_mem_append, List.forall_mem_cons] at hclauses
  obtain ⟨hinitial, hcondition, hseparator, hincrement⟩ := hclauses
  have hrepeated : ∀ expr, increment = some expr → expr.span.Placed source := by
    rintro expr rfl
    exact hincrement expr.span expr.span_mem_spans
  unfold toLoop
  cases initial <;> cases condition <;> cases increment <;>
    simp_all [Stmt.spans, Stmt.spansOfAll, Expr.spans, or_imp]

namespace Parts

variable {source : List Char} {start : Nat} {input : List Token} {parts : Parts} {opening : Token}

section

variable (hparts : parts.Locates source)

include hparts

theorem locates_some_expression (hinput : Stands source start input) :
    (some <$> parts.expression).Locates source start input fun expr rest ↦
      Found source start ((expr.map Expr.spans).getD []) rest := by
  apply Rule.Locates.map
  exact (hparts.expression hinput).mono (Nat.le_refl start) fun _ _ hexpr ↦ hexpr.found

theorem locates_declaration (hopening : Rule.Taken source start opening input) :
    (parts.declaration opening.span).Locates source start input (Stmt.Read source start) := by
  refine Rule.Locates.weaken ?_ hopening.start_le
  apply (Rule.locates_expect hopening.rest).bind
  intro name _ hname
  have hclosed (initial : Option Expr) (rest : List Token)
      (hinitial : Found source opening.span.start ((initial.map Expr.spans).getD []) rest) :
      (Rule.expect .semicolon .noSemicolonAfterDeclaration >>= fun closing ↦
        pure (Stmt.declare name.lexeme initial (opening.span.cover closing.span))).Locates source
        opening.span.start rest (Stmt.Read source start) := by
    apply (Rule.locates_expect hinitial.rest).bind
    intro closing _ hclosing
    refine Rule.locates_pure (.of_opening hopening rfl ?_ hclosing.placed hinitial.placed
      hclosing.start_le hclosing.stands)
    cases initial <;> rfl
  apply (Rule.locates_accept hname.stands).bind
  rintro _ _ (⟨rfl, rfl⟩ | ⟨equals, rfl, hequals⟩)
  · exact hclosed none _ ⟨List.forall_mem_nil _, hname.stands⟩
  · exact (locates_some_expression hparts hequals.stands).bind hclosed

theorem locates_print (hopening : Rule.Taken source start opening input) :
    (parts.print opening.span).Locates source start input (Stmt.Read source start) := by
  refine Rule.Locates.weaken ?_ hopening.start_le
  apply (hparts.expression hopening.rest).bind
  intro expr _ hexpr
  apply (Rule.locates_expect hexpr.stands).bind
  intro closing _ hclosing
  exact Rule.locates_pure (.of_opening hopening rfl rfl hclosing.placed hexpr.placed
    hclosing.start_le hclosing.stands)

theorem locates_expressionStatement (hinput : Stands source start input) :
    parts.expressionStatement.Locates source start input (Stmt.Read source start) := by
  obtain ⟨hfirst, hstart, hstands⟩ := stands_firstSpan hparts.eof hinput
  obtain ⟨hlast, hordered⟩ := placed_lastSpan hparts.eof hstands
  refine Rule.Locates.weaken ?_ hstart
  apply Rule.locates_remaining.bind
  rintro _ _ ⟨rfl, rfl⟩
  apply (hparts.expression hstands).bind
  intro expr _ hexpr
  apply Rule.locates_peek.bind
  rintro next _ rfl
  split
  · exact Rule.locates_pure (.of_cover rfl rfl hfirst hlast hexpr.placed hstart hordered
      (hexpr.stands.mono hstart))
  · apply (Rule.locates_expect hexpr.stands).bind
    intro closing _ hclosing
    exact Rule.locates_pure (.of_cover rfl rfl hfirst hclosing.placed hexpr.placed hstart
      hclosing.start_le (hclosing.stands.mono hstart))

theorem locates_branch (hopening : Rule.Taken source start opening input) :
    (parts.branch opening.span).Locates source start input (Stmt.Read source start) := by
  refine Rule.Locates.weaken ?_ hopening.start_le
  apply (Rule.locates_expect hopening.rest).bind
  intro _ _ hleft
  apply (hparts.expression hleft.stands).bind
  intro condition _ hcondition
  apply (Rule.locates_expect hcondition.stands).bind
  intro _ _ hright
  apply (hparts.statement hright.stands).bind
  intro thenBranch _ hthen
  apply (Rule.locates_accept hthen.rest).bind
  rintro _ _ (⟨rfl, rfl⟩ | ⟨separator, rfl, hseparator⟩)
  · have hothers := List.forall_mem_append.mpr ⟨hcondition.placed, hthen.placed⟩
    exact Rule.locates_pure (.of_opening hopening rfl rfl hthen.placed_span hothers
      hthen.start_le hthen.rest)
  · apply (hparts.statement hseparator.stands).bind
    intro elseBranch _ helse
    have hbranches := List.forall_mem_append.mpr ⟨hthen.placed, helse.placed⟩
    have hothers := List.forall_mem_append.mpr ⟨hcondition.placed, hbranches⟩
    exact Rule.locates_pure (.of_opening hopening rfl rfl helse.placed_span hothers
      helse.start_le helse.rest)

theorem locates_loop (hopening : Rule.Taken source start opening input) :
    (parts.loop opening.span).Locates source start input (Stmt.Read source start) := by
  refine Rule.Locates.weaken ?_ hopening.start_le
  apply (Rule.locates_expect hopening.rest).bind
  intro _ _ hleft
  apply (hparts.expression hleft.stands).bind
  intro condition _ hcondition
  apply (Rule.locates_expect hcondition.stands).bind
  intro _ _ hright
  apply (hparts.statement hright.stands).bind
  intro body _ hbody
  have hothers := List.forall_mem_append.mpr ⟨hcondition.placed, hbody.placed⟩
  exact Rule.locates_pure (.of_opening hopening rfl rfl hbody.placed_span hothers
    hbody.start_le hbody.rest)

theorem locates_forInitial (hinput : Stands source start input) :
    parts.forInitial.Locates source start input fun initial rest ↦
      Found source start ((initial.map Stmt.spans).getD []) rest := by
  apply (Rule.locates_accept hinput).bind
  rintro _ _ (⟨rfl, rfl⟩ | ⟨closing, rfl, hclosing⟩)
  · apply (Rule.locates_accept hinput).bind
    rintro _ _ (⟨rfl, rfl⟩ | ⟨keyword, rfl, hkeyword⟩)
    · apply Rule.Locates.map
      exact (locates_expressionStatement hparts hinput).mono (Nat.le_refl start)
        fun _ _ hstmt ↦ hstmt.found
    · apply Rule.Locates.map
      exact (locates_declaration hparts hkeyword).mono (Nat.le_refl start)
        fun _ _ hstmt ↦ hstmt.found
  · exact Rule.locates_pure ⟨List.forall_mem_nil _, hclosing.stands⟩

theorem locates_expressionUnless (stop : Token.Kind) (hinput : Stands source start input) :
    (parts.expressionUnless stop).Locates source start input fun expr rest ↦
      Found source start ((expr.map Expr.spans).getD []) rest := by
  apply Rule.locates_peek.bind
  rintro next _ rfl
  split
  · exact Rule.locates_pure ⟨List.forall_mem_nil _, hinput⟩
  · exact locates_some_expression hparts hinput

theorem locates_forClauses (hinput : Stands source start input) :
    parts.forClauses.Locates source start input fun clauses rest ↦
      Found source start clauses.spans rest := by
  apply (Rule.locates_expect hinput).bind
  intro _ _ hleft
  apply (locates_forInitial hparts hleft.stands).bind
  intro initial _ hinitial
  apply (locates_expressionUnless hparts .semicolon hinitial.rest).bind
  intro condition _ hcondition
  apply (Rule.locates_expect hcondition.rest).bind
  intro separator _ hseparator
  apply (locates_expressionUnless hparts .rightParen hseparator.stands).bind
  intro increment _ hincrement
  apply (Rule.locates_expect hincrement.rest).bind
  intro _ _ hright
  refine Rule.locates_pure ⟨?_, hright.stands⟩
  have hlater := List.forall_mem_cons.mpr ⟨hseparator.placed, hincrement.placed⟩
  exact List.forall_mem_append.mpr
    ⟨hinitial.placed, List.forall_mem_append.mpr ⟨hcondition.placed, hlater⟩⟩

theorem locates_forLoop (hopening : Rule.Taken source start opening input) :
    (parts.forLoop opening.span).Locates source start input (Stmt.Read source start) := by
  refine Rule.Locates.weaken ?_ hopening.start_le
  apply (locates_forClauses hparts hopening.rest).bind
  intro clauses _ hclauses
  apply (hparts.statement hclauses.rest).bind
  intro body _ hbody
  apply Rule.locates_pure
  have hspan : (opening.span.cover body.span).Placed source :=
    hopening.placed.cover hbody.placed_span hbody.start_le
  refine ⟨ForClauses.placed_toLoop hclauses.placed hbody.placed hspan, ?_,
    hbody.rest.mono hopening.start_le⟩
  rw [ForClauses.span_toLoop, Span.cover_start hbody.start_le]
  exact hopening.start_le

theorem locates_declarationOrStatement (hinput : Stands source start input) :
    parts.declarationOrStatement.Locates source start input (Stmt.Read source start) := by
  apply (Rule.locates_accept hinput).bind
  rintro _ _ (⟨rfl, rfl⟩ | ⟨keyword, rfl, hkeyword⟩)
  · exact hparts.statement hinput
  · exact locates_declaration hparts hkeyword

end

end Parts

theorem synchronize_suffix (tokens : List Token) : synchronize tokens <:+ tokens := by
  induction tokens with
  | nil => exact List.suffix_refl []
  | cons token rest ih =>
    unfold synchronize
    split
    · exact List.suffix_cons token rest
    · exact ih.trans (List.suffix_cons token rest)

/-- A violation is recorded where it is, and what is left behind it is a part of what was left. -/
theorem locates_recovering {α : Type} {source : List Char} {start : Nat} {input : List Token}
    {eof : Span} {rule : Rule α} {post : α → List Token → Prop}
    {goal : Option α → List Token → Prop} (heof : eof.AtEnd source)
    (h : rule.Locates source start input post)
    (hsome : ∀ value rest, post value rest → goal (some value) rest)
    (hnone : ∀ rest, Stands source start rest → goal none rest) :
    (recovering eof rule).Locates source start input goal := by
  obtain ⟨hfaults, houtcome⟩ := h
  cases hreading : rule input with
  | mk faults outcome =>
    rw [hreading] at hfaults houtcome
    cases outcome with
    | done value rest =>
      constructor <;> simp only [recovering, hreading]
      · exact hfaults
      · exact hsome value rest houtcome
    | failed issue rest =>
      have hfault := Fault.located_atNext issue heof houtcome
      constructor <;> simp only [recovering, hreading]
      · exact List.forall_mem_append.mpr ⟨hfaults, List.forall_mem_singleton.mpr hfault⟩
      · exact hnone _ (Stands.suffix houtcome (synchronize_suffix rest))
    | tooDeep rest =>
      constructor <;> simp only [recovering, hreading]
      · exact hfaults
      · exact houtcome

namespace Parts

variable {source : List Char} {start : Nat} {input : List Token} {parts : Parts} {opening : Token}

section

variable (hparts : parts.Locates source)

include hparts

theorem locates_item (hinput : Stands source start input) :
    parts.item.Locates source start input fun stmt rest ↦
      Found source start (Stmt.spansOfAll stmt.toList) rest := by
  refine locates_recovering hparts.eof (locates_declarationOrStatement hparts hinput) ?_ ?_
  · intro stmt rest hstmt
    refine ⟨?_, hstmt.rest⟩
    simpa [Stmt.spansOfAll] using hstmt.placed
  · intro rest hrest
    exact ⟨List.forall_mem_nil _, hrest⟩

theorem locates_items (bound : Nat) (hinput : Stands source start input) :
    (parts.items bound).Locates source start input fun stmts rest ↦
      Found source start (Stmt.spansOfAll stmts) rest := by
  have hempty {rest : List Token} (hrest : Stands source start rest) :
      Found source start (Stmt.spansOfAll []) rest := ⟨List.forall_mem_nil _, hrest⟩
  induction bound generalizing input with
  | zero => exact Rule.locates_pure (hempty hinput)
  | succ bound ih =>
    apply Rule.locates_peek.bind
    rintro next _ rfl
    split
    · exact Rule.locates_pure (hempty hinput)
    · exact Rule.locates_pure (hempty hinput)
    · apply (locates_item hparts hinput).bind
      intro first _ hfirst
      refine (ih hfirst.rest).bind fun others _ hothers ↦ Rule.locates_pure ⟨?_, hothers.rest⟩
      rw [Stmt.spansOfAll_append]
      exact List.forall_mem_append.mpr ⟨hfirst.placed, hothers.placed⟩

theorem locates_block (hopening : Rule.Taken source start opening input) :
    (parts.block opening.span).Locates source start input (Stmt.Read source start) := by
  refine Rule.Locates.weaken ?_ hopening.start_le
  apply Rule.locates_remaining.bind
  rintro _ _ ⟨rfl, rfl⟩
  apply (locates_items hparts _ hopening.rest).bind
  intro body _ hbody
  apply (Rule.locates_expect hbody.rest).bind
  intro closing _ hclosing
  exact Rule.locates_pure (.of_opening hopening rfl rfl hclosing.placed hbody.placed
    hclosing.start_le hclosing.stands)

theorem locates_body (hinput : Stands source start input) :
    parts.body.Locates source start input (Stmt.Read source start) := by
  cases input with
  | nil => exact (locates_expressionStatement hparts hinput).of_eq rfl
  | cons token rest =>
    have htoken := Rule.taken_of_stands hinput
    have hbody : parts.body (token :: rest) = parts.print token.span rest ∨
        parts.body (token :: rest) = parts.block token.span rest ∨
        parts.body (token :: rest) = parts.branch token.span rest ∨
        parts.body (token :: rest) = parts.loop token.span rest ∨
        parts.body (token :: rest) = parts.forLoop token.span rest ∨
        parts.body (token :: rest) = parts.expressionStatement (token :: rest) := by
      simp only [body]
      split <;> simp
    rcases hbody with heq | heq | heq | heq | heq | heq
    · exact (locates_print hparts htoken).of_eq heq
    · exact (locates_block hparts htoken).of_eq heq
    · exact (locates_branch hparts htoken).of_eq heq
    · exact (locates_loop hparts htoken).of_eq heq
    · exact (locates_forLoop hparts htoken).of_eq heq
    · exact (locates_expressionStatement hparts hinput).of_eq heq

end

end Parts

theorem locates_parts {source : List Char} {eof : Span} (mode : Mode) (heof : eof.AtEnd source)
    (budget : Nat) : (parts mode eof budget).Locates source := by
  induction budget with
  | zero => exact ⟨heof, locates_expression 0, fun hinput ↦ Rule.locates_tooDeep hinput⟩
  | succ budget ih => exact ⟨heof, locates_expression (budget + 1), Parts.locates_body ih⟩

end Grammar

/-! ## Programs -/

/-- The nodes of a program mark stretches of the source, and its faults point at the right
places of it. -/
structure Program.Located (source : List Char) (program : Program) : Prop where
  placed : ∀ span ∈ Stmt.spansOfAll program.statements, span.Placed source
  faults : ∀ fault ∈ program.faults, fault.Located source

namespace Program

theorem located_collect {source : List Char} {eof : Span} {parts : Grammar.Parts} {start : Nat}
    {tokens : List Token} (heof : eof.AtEnd source) (hparts : parts.Locates source) (bound : Nat)
    (htokens : Scan.Stands source start tokens) :
    (collect eof parts.item bound tokens).Located source := by
  have hempty : Located source ⟨[], []⟩ := ⟨List.forall_mem_nil _, List.forall_mem_nil _⟩
  induction bound generalizing tokens with
  | zero => exact hempty
  | succ bound ih =>
    cases tokens with
    | nil => exact hempty
    | cons token rest =>
      obtain ⟨hfaults, houtcome⟩ := Grammar.Parts.locates_item hparts htokens
      cases hreading : parts.item (token :: rest) with
      | mk faults outcome =>
        rw [hreading] at hfaults houtcome
        cases outcome with
        | done stmt left =>
          have hothers := ih houtcome.rest
          simp only [collect, hreading]
          constructor
          · rw [Stmt.spansOfAll_append]
            exact List.forall_mem_append.mpr ⟨houtcome.placed, hothers.placed⟩
          · exact List.forall_mem_append.mpr ⟨hfaults, hothers.faults⟩
        | failed issue left =>
          have hfault := Fault.located_atNext issue heof houtcome
          simp only [collect, hreading]
          exact ⟨List.forall_mem_nil _,
            List.forall_mem_append.mpr ⟨hfaults, List.forall_mem_singleton.mpr hfault⟩⟩
        | tooDeep left =>
          have hfault := Fault.located_atNext .nestingTooDeep heof houtcome
          simp only [collect, hreading]
          exact ⟨List.forall_mem_nil _,
            List.forall_mem_append.mpr ⟨hfaults, List.forall_mem_singleton.mpr hfault⟩⟩

end Program

end LoxLang
