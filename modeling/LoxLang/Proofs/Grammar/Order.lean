import LoxLang.Proofs.Grammar.Consumption
import LoxLang.Proofs.Grammar.Soundness

/-!
# The order of faults

A rule finds faults from the front of its input to the back: one that is found later lies behind
the token of the one before, or both lie at the end. The exception is a target that cannot be
assigned to. It is known as such when the value has been read, so the fault comes behind those of
the value although its `=` stands before them. Such faults lie at an `=` each, and no two of them
at the same one.
-/

namespace LoxLang

/-- A target that cannot be assigned to. -/
def Issue.isTarget : Issue → Bool
  | badAssignmentTarget => true
  | _ => false

/-- An issue, and the tokens that were left where it was found. -/
structure Finding where
  issue : Issue
  place : List Token

namespace Finding

def fault (eof : Span) (finding : Finding) : Fault := .atNext eof finding.issue finding.place

/-- That a target cannot be assigned to is found at an `=`. -/
def Fits (finding : Finding) : Prop :=
  finding.issue.isTarget → nextKind finding.place = some .equal

/-- How two findings lie, the first of which is recorded earlier. -/
structure Before (first second : Finding) : Prop where
  behind : first.issue.isTarget = false → second.issue.isTarget = false →
    second.place <:+ first.place.tail
  apart : first.issue.isTarget → second.issue.isTarget → first.place ≠ second.place

/-- A place is not behind its own token. -/
theorem ne_of_suffix_tail {place other : List Token} (hplace : place ≠ [])
    (h : other <:+ place.tail) : place ≠ other := by
  rintro rfl
  have hlength := h.length_le
  rw [List.length_tail] at hlength
  have hpos := List.length_pos_iff.mpr hplace
  omega

theorem Fits.before {first second : Finding} (hfits : first.Fits)
    (h : second.place <:+ first.place.tail) : first.Before second where
  behind := fun _ _ ↦ h
  apart := by
    intro htarget _
    refine ne_of_suffix_tail ?_ h
    intro hnil
    have hkind := hfits htarget
    rw [hnil] at hkind
    cases hkind

/-- The findings lie in the input, before what is left of it, in the order of the list. -/
structure Sorted (input rest : List Token) (findings : List Finding) : Prop where
  inside : ∀ finding ∈ findings, finding.place <:+ input
  passed : ∀ finding ∈ findings, rest <:+ finding.place.tail
  fits : ∀ finding ∈ findings, finding.Fits
  order : findings.Pairwise Before

namespace Sorted

variable {input rest left place : List Token} {findings others : List Finding} {issue : Issue}

theorem nil : Sorted input rest [] where
  inside := List.forall_mem_nil _
  passed := List.forall_mem_nil _
  fits := List.forall_mem_nil _
  order := .nil

theorem singleton (hfits : Fits ⟨issue, place⟩) (hleft : left <:+ place.tail) :
    Sorted place left [⟨issue, place⟩] where
  inside := List.forall_mem_singleton.mpr (List.suffix_refl _)
  passed := List.forall_mem_singleton.mpr hleft
  fits := List.forall_mem_singleton.mpr hfits
  order := List.pairwise_singleton _ _

theorem of_suffix (h : Sorted rest left findings) (hrest : rest <:+ input) :
    Sorted input left findings where
  inside := fun finding hfinding ↦ (h.inside finding hfinding).trans hrest
  passed := h.passed
  fits := h.fits
  order := h.order

theorem append (h : Sorted input rest findings) (hothers : Sorted rest left others)
    (hrest : rest <:+ input) (hleft : left <:+ rest) : Sorted input left (findings ++ others) where
  inside := List.forall_mem_append.mpr ⟨h.inside, (hothers.of_suffix hrest).inside⟩
  passed := by
    refine List.forall_mem_append.mpr ⟨fun finding hfinding ↦ ?_, hothers.passed⟩
    exact hleft.trans (h.passed finding hfinding)
  fits := List.forall_mem_append.mpr ⟨h.fits, hothers.fits⟩
  order := by
    refine List.pairwise_append.mpr ⟨h.order, hothers.order, ?_⟩
    intro first hfirst second hsecond
    exact (h.fits first hfirst).before
      ((hothers.inside second hsecond).trans (h.passed first hfirst))

/-- The `=` before a value is the place of a finding that comes behind those of the value. -/
theorem target {equals : Token} (h : Sorted rest left findings) (hkind : equals.kind = .equal)
    (hleft : left <:+ rest) :
    Sorted (equals :: rest) left (findings ++ [⟨.badAssignmentTarget, equals :: rest⟩]) where
  inside := List.forall_mem_append.mpr ⟨(h.of_suffix (List.suffix_cons equals rest)).inside,
    List.forall_mem_singleton.mpr (List.suffix_refl _)⟩
  passed := List.forall_mem_append.mpr ⟨h.passed, List.forall_mem_singleton.mpr hleft⟩
  fits := List.forall_mem_append.mpr ⟨h.fits,
    List.forall_mem_singleton.mpr fun _ ↦ congrArg some hkind⟩
  order := by
    refine List.pairwise_append.mpr ⟨h.order, List.pairwise_singleton _ _, ?_⟩
    intro first hfirst second hsecond
    obtain rfl := List.mem_singleton.mp hsecond
    refine ⟨nofun, fun _ _ ↦ ?_⟩
    exact (ne_of_suffix_tail (List.cons_ne_nil _ _) (h.inside first hfirst)).symm

end Sorted

end Finding

/-- The faults are those of findings in the input, before what is left of it, in order. -/
def Fault.InOrder (eof : Span) (input rest : List Token) (faults : List Fault) : Prop :=
  ∃ findings : List Finding,
    Finding.Sorted input rest findings ∧ faults = findings.map (Finding.fault eof)

namespace Fault.InOrder

variable {eof : Span} {input rest left : List Token} {faults others : List Fault}

theorem nil : Fault.InOrder eof input rest [] := ⟨[], .nil, rfl⟩

theorem of_suffix (h : Fault.InOrder eof rest left faults) (hrest : rest <:+ input) :
    Fault.InOrder eof input left faults := by
  obtain ⟨findings, hsorted, hfaults⟩ := h
  exact ⟨findings, hsorted.of_suffix hrest, hfaults⟩

theorem append (h : Fault.InOrder eof input rest faults)
    (hothers : Fault.InOrder eof rest left others) (hrest : rest <:+ input)
    (hleft : left <:+ rest) : Fault.InOrder eof input left (faults ++ others) := by
  obtain ⟨findings, hsorted, rfl⟩ := h
  obtain ⟨more, hmore, rfl⟩ := hothers
  exact ⟨findings ++ more, hsorted.append hmore hrest hleft, List.map_append.symm⟩

/-- A violation is recorded where the rule ended, and its token is passed over. -/
theorem record {issue : Issue} (h : Fault.InOrder eof input rest faults)
    (hissue : issue.isTarget = false) (hrest : rest <:+ input) (hleft : left <:+ rest.tail) :
    Fault.InOrder eof input left (faults ++ [.atNext eof issue rest]) := by
  have hfits : Finding.Fits ⟨issue, rest⟩ := fun htarget ↦
    absurd htarget (ne_true_of_eq_false hissue)
  have hrecorded : Fault.InOrder eof rest left [.atNext eof issue rest] :=
    ⟨[⟨issue, rest⟩], .singleton hfits hleft, rfl⟩
  exact h.append hrecorded hrest (hleft.trans (List.tail_suffix rest))

theorem target {equals : Token} (h : Fault.InOrder eof rest left faults)
    (hkind : equals.kind = .equal) (hleft : left <:+ rest) :
    Fault.InOrder eof (equals :: rest) left
      (faults ++ [.atToken equals .badAssignmentTarget]) := by
  obtain ⟨findings, hsorted, rfl⟩ := h
  refine ⟨_, hsorted.target hkind hleft, ?_⟩
  rw [List.map_append]
  rfl

end Fault.InOrder

/-! ## Rules -/

/-- The tokens that are left, however the rule ended. -/
def Outcome.rest {α : Type} : Outcome α → List Token
  | .done _ rest => rest
  | .failed _ rest => rest
  | .tooDeep rest => rest

/-- That a target cannot be assigned to is noted and does not end a rule. -/
def Outcome.Proper {α : Type} : Outcome α → Prop
  | .done .. => True
  | .failed issue _ => issue.isTarget = false
  | .tooDeep _ => True

/-- What was recorded lies in order before what is left. -/
structure Reading.Ordered {α : Type} (eof : Span) (input : List Token) (reading : Reading α) :
    Prop where
  suffix : reading.outcome.rest <:+ input
  faults : Fault.InOrder eof input reading.outcome.rest reading.faults
  proper : reading.outcome.Proper

namespace Reading.Ordered

variable {α β : Type} {eof : Span} {input rest : List Token} {reading : Reading α}

theorem of_done (value : α) (hrest : rest <:+ input) :
    Reading.Ordered eof input ⟨[], .done value rest⟩ :=
  ⟨hrest, .nil, trivial⟩

theorem of_failed {issue : Issue} (hissue : issue.isTarget = false) (hrest : rest <:+ input) :
    Reading.Ordered eof input (⟨[], .failed issue rest⟩ : Reading α) :=
  ⟨hrest, .nil, hissue⟩

theorem of_suffix (h : reading.Ordered eof rest) (hrest : rest <:+ input) :
    reading.Ordered eof input :=
  ⟨h.suffix.trans hrest, h.faults.of_suffix hrest, h.proper⟩

theorem append {faults : List Fault} {value : α} {next : Reading β}
    (h : Reading.Ordered eof input ⟨faults, .done value rest⟩) (hnext : next.Ordered eof rest) :
    Reading.Ordered eof input ⟨faults ++ next.faults, next.outcome⟩ :=
  ⟨hnext.suffix.trans h.suffix, h.faults.append hnext.faults h.suffix hnext.suffix, hnext.proper⟩

end Reading.Ordered

namespace Rule

variable {α β : Type} {eof : Span} {rule : Rule α} {next : α → Rule β}

def Orders (eof : Span) (rule : Rule α) : Prop := ∀ input, (rule input).Ordered eof input

theorem Orders.bind (h : rule.Orders eof) (hnext : ∀ value, (next value).Orders eof) :
    (rule >>= next).Orders eof := by
  intro input
  change (andThen rule next input).Ordered eof input
  unfold andThen
  have hfirst := h input
  cases hreading : rule input with
  | mk faults outcome =>
    rw [hreading] at hfirst
    cases outcome with
    | done value rest => exact hfirst.append (hnext value rest)
    | failed issue rest => exact ⟨hfirst.suffix, hfirst.faults, hfirst.proper⟩
    | tooDeep rest => exact ⟨hfirst.suffix, hfirst.faults, hfirst.proper⟩

theorem orders_pure (value : α) : (pure value : Rule α).Orders eof :=
  fun input ↦ .of_done value (List.suffix_refl input)

theorem Orders.map {f : α → β} (h : rule.Orders eof) : (f <$> rule).Orders eof :=
  h.bind fun value ↦ orders_pure (f value)

theorem orders_fail {issue : Issue} (h : issue.isTarget = false) :
    (fail issue : Rule α).Orders eof :=
  fun input ↦ .of_failed h (List.suffix_refl input)

theorem orders_tooDeep : (tooDeep : Rule α).Orders eof :=
  fun input ↦ ⟨List.suffix_refl input, .nil, trivial⟩

theorem orders_remaining : remaining.Orders eof :=
  fun input ↦ .of_done input (List.suffix_refl input)

theorem orders_peek : peek.Orders eof :=
  fun input ↦ .of_done _ (List.suffix_refl input)

theorem orders_accept (wanted : Token.Kind) : (accept wanted).Orders eof := by
  intro input
  cases input with
  | nil => exact .of_done none (List.suffix_refl [])
  | cons token rest =>
    rw [accept]
    split
    · exact .of_done (some token) (List.suffix_cons token rest)
    · exact .of_done none (List.suffix_refl _)

theorem orders_expect {wanted : Token.Kind} {issue : Issue} (h : issue.isTarget = false) :
    (expect wanted issue).Orders eof := by
  intro input
  cases input with
  | nil => exact .of_failed h (List.suffix_refl [])
  | cons token rest =>
    rw [expect]
    split
    · exact .of_done token (List.suffix_cons token rest)
    · exact .of_failed h (List.suffix_refl _)

/-- Noting, when the value behind an `=` has been read, that the target cannot be assigned to. -/
theorem Orders.note_target {equals : Token} (h : rule.Orders eof) (hkind : equals.kind = .equal)
    (target : β) (rest : List Token) :
    ((do
      let _ ← rule
      note (.atToken equals .badAssignmentTarget)
      return target : Rule β) rest).Ordered eof (equals :: rest) := by
  have hvalue := h rest
  have htail := hvalue.of_suffix (List.suffix_cons equals rest)
  change (andThen rule (fun _ ↦ _) rest).Ordered eof _
  unfold andThen
  cases hreading : rule rest with
  | mk faults outcome =>
    rw [hreading] at hvalue htail
    cases outcome with
    | done value left =>
      exact ⟨htail.suffix, hvalue.faults.target hkind hvalue.suffix, trivial⟩
    | failed issue left => exact ⟨htail.suffix, htail.faults, htail.proper⟩
    | tooDeep left => exact ⟨htail.suffix, htail.faults, htail.proper⟩

end Rule

/-! ## Expressions -/

namespace Grammar

open Rule

variable {eof : Span}

structure Level.Orders (eof : Span) (level : Level) : Prop where
  assignment : level.assignment.Orders eof
  unary : level.unary.Orders eof
  operand (tiers : List Tier) : (level.operand tiers).Orders eof
  chain (tier : Tier) (tighter : List Tier) (left : Expr) :
    (level.chain tier tighter left).Orders eof

def OrdersBelow (eof : Span) (below : Option Level) : Prop :=
  ∀ level, below = some level → level.Orders eof

theorem orders_deeper {α : Type} {below : Option Level} {rule : Level → Rule α}
    (hbelow : OrdersBelow eof below)
    (h : ∀ level : Level, level.Orders eof → (rule level).Orders eof) :
    (deeper below rule).Orders eof := by
  cases below with
  | none => exact orders_tooDeep
  | some level => exact h level (hbelow level rfl)

section

variable {below : Option Level} (hbelow : OrdersBelow eof below)

include hbelow

theorem orders_group (opening : Span) : (group below opening).Orders eof := by
  apply orders_peek.bind
  intro next
  split
  · exact orders_fail rfl
  · apply (orders_deeper hbelow fun level h ↦ h.assignment).bind
    intro inner
    apply (orders_expect rfl).bind
    intro closing
    exact orders_pure _

theorem orders_primary : (primary below).Orders eof := by
  intro input
  cases input with
  | nil => exact .of_failed rfl (List.suffix_refl [])
  | cons token rest =>
    have hleaf (expr : Expr) : (Rule.done expr rest).Ordered eof (token :: rest) :=
      .of_done expr (List.suffix_cons token rest)
    have hviolation {issue : Issue} (hissue : issue.isTarget = false) :
        (fail issue (token :: rest) : Reading Expr).Ordered eof (token :: rest) :=
      .of_failed hissue (List.suffix_refl _)
    simp only [primary]
    split
    · exact hleaf _
    · exact hleaf _
    · exact hleaf _
    · exact hleaf _
    · exact hviolation rfl
    · exact hleaf _
    · exact hviolation rfl
    · exact hleaf _
    · exact (orders_group hbelow token.span rest).of_suffix (List.suffix_cons token rest)
    · exact hviolation rfl

theorem orders_unary : (unary below).Orders eof := by
  intro input
  cases input with
  | nil => exact orders_primary hbelow []
  | cons token rest =>
    rw [unary]
    cases hop : UnaryOp.ofKind? token.kind with
    | none => exact orders_primary hbelow _
    | some op =>
      have hsigned : (deeper below Level.unary >>= fun operand ↦ pure (Expr.unary op operand
          (token.span.cover operand.span))).Orders eof := by
        apply (orders_deeper hbelow fun level h ↦ h.unary).bind
        intro operand
        exact orders_pure _
      exact (hsigned rest).of_suffix (List.suffix_cons token rest)

theorem orders_chain (tier : Tier) (tighter : List Tier) (left : Expr) :
    (chain below tier tighter left).Orders eof := by
  intro input
  cases input with
  | nil => exact .of_done left (List.suffix_refl [])
  | cons token rest =>
    rw [chain]
    cases hconnective : tier.connective? token.kind with
    | none => exact .of_done left (List.suffix_refl _)
    | some connective =>
      have hlink : (deeper below fun level ↦ do
          let right ← level.operand tighter
          level.chain tier tighter (connective.join left right)).Orders eof := by
        apply orders_deeper hbelow
        intro level hlevel
        apply (hlevel.operand tighter).bind
        intro right
        exact hlevel.chain tier tighter _
      exact (hlink rest).of_suffix (List.suffix_cons token rest)

theorem orders_operand (tiers : List Tier) : (operand below tiers).Orders eof := by
  induction tiers with
  | nil => exact orders_unary hbelow
  | cons tier tighter ih =>
    apply ih.bind
    intro left
    exact orders_chain hbelow tier tighter left

theorem orders_assignment : (assignment below).Orders eof := by
  apply (orders_operand hbelow Tier.all).bind
  intro target input
  have hvalue := orders_deeper hbelow fun level h ↦ h.assignment
  cases input with
  | nil => exact .of_done target (List.suffix_refl [])
  | cons equals rest =>
    change (andThen (accept .equal) _ (equals :: rest)).Ordered eof (equals :: rest)
    by_cases hkind : equals.kind = .equal
    · -- Behind the `=` the value is read first, and only then is the target looked at.
      rw [andThen, accept, if_pos hkind]
      have hassigned {next : Expr → Rule Expr} (hnext : ∀ value, (next value).Orders eof) :=
        ((hvalue.bind hnext) rest).of_suffix (List.suffix_cons equals rest)
      have hnoted := hvalue.note_target hkind target rest
      cases target with
      | reference name span => exact hassigned fun value ↦ orders_pure _
      | literal | grouping | unary | binary | logical | assign => exact hnoted
    · rw [andThen, accept, if_neg hkind]
      exact .of_done target (List.suffix_refl _)

theorem Level.orders_above : (Level.above below).Orders eof where
  assignment := orders_assignment hbelow
  unary := orders_unary hbelow
  operand := orders_operand hbelow
  chain := orders_chain hbelow

end

theorem orders_level (budget : Nat) : (level budget).Orders eof := by
  induction budget with
  | zero => exact Level.orders_above fun level h ↦ nomatch h
  | succ budget ih => exact Level.orders_above fun level h ↦ Option.some.inj h ▸ ih

theorem orders_expression (budget : Nat) : (expression budget).Orders eof := by
  cases budget with
  | zero => exact orders_tooDeep
  | succ budget => exact (orders_level budget).assignment

/-! ## Statements -/

structure Parts.Orders (parts : Parts) : Prop where
  expression : parts.expression.Orders parts.eof
  statement : parts.statement.Orders parts.eof

namespace Parts

variable {parts : Parts} (hparts : parts.Orders) (opening : Span)

include hparts

theorem orders_declaration : (parts.declaration opening).Orders parts.eof := by
  apply (orders_expect rfl).bind
  intro name
  apply (orders_accept .equal).bind
  intro equals
  have hclosed (initial : Option Expr) :
      (expect .semicolon .noSemicolonAfterDeclaration >>= fun closing ↦
        pure (Stmt.declare name.lexeme initial (opening.cover closing.span))).Orders parts.eof := by
    apply (orders_expect rfl).bind
    intro closing
    exact orders_pure _
  split
  · exact hparts.expression.map.bind hclosed
  · exact hclosed none

theorem orders_expressionStatement : parts.expressionStatement.Orders parts.eof := by
  apply orders_remaining.bind
  intro input
  apply hparts.expression.bind
  intro expr
  apply orders_peek.bind
  intro next
  split
  · exact orders_pure _
  · apply (orders_expect rfl).bind
    intro closing
    exact orders_pure _

theorem orders_print : (parts.print opening).Orders parts.eof := by
  apply hparts.expression.bind
  intro expr
  apply (orders_expect rfl).bind
  intro closing
  exact orders_pure _

theorem orders_branch : (parts.branch opening).Orders parts.eof := by
  apply (orders_expect rfl).bind
  intro _
  apply hparts.expression.bind
  intro condition
  apply (orders_expect rfl).bind
  intro _
  apply hparts.statement.bind
  intro thenBranch
  apply (orders_accept .kwElse).bind
  intro separator
  split
  · exact orders_pure _
  · apply hparts.statement.bind
    intro elseBranch
    exact orders_pure _

theorem orders_loop : (parts.loop opening).Orders parts.eof := by
  apply (orders_expect rfl).bind
  intro _
  apply hparts.expression.bind
  intro condition
  apply (orders_expect rfl).bind
  intro _
  apply hparts.statement.bind
  intro body
  exact orders_pure _

theorem orders_forInitial : parts.forInitial.Orders parts.eof := by
  apply (orders_accept .semicolon).bind
  intro closing
  split
  · exact orders_pure none
  · apply (orders_accept .kwVar).bind
    intro keyword
    split
    · exact (orders_declaration hparts _).map
    · exact (orders_expressionStatement hparts).map

theorem orders_expressionUnless (stop : Token.Kind) :
    (parts.expressionUnless stop).Orders parts.eof := by
  apply orders_peek.bind
  intro next
  split
  · exact orders_pure none
  · exact hparts.expression.map

theorem orders_forClauses : parts.forClauses.Orders parts.eof := by
  apply (orders_expect rfl).bind
  intro _
  apply (orders_forInitial hparts).bind
  intro initial
  apply (orders_expressionUnless hparts .semicolon).bind
  intro condition
  apply (orders_expect rfl).bind
  intro separator
  apply (orders_expressionUnless hparts .rightParen).bind
  intro increment
  apply (orders_expect rfl).bind
  intro _
  exact orders_pure _

theorem orders_forLoop : (parts.forLoop opening).Orders parts.eof := by
  apply (orders_forClauses hparts).bind
  intro clauses
  apply hparts.statement.bind
  intro body
  exact orders_pure _

theorem orders_declarationOrStatement : parts.declarationOrStatement.Orders parts.eof := by
  apply (orders_accept .kwVar).bind
  intro keyword
  split
  · exact orders_declaration hparts _
  · exact hparts.statement

end Parts

theorem synchronize_suffix_tail (tokens : List Token) : synchronize tokens <:+ tokens.tail := by
  cases tokens with
  | nil => exact List.suffix_refl []
  | cons token rest => exact synchronize_cons_suffix token rest

/-- What is recorded on the way out lies where the rule ended, and reading goes on behind it. -/
theorem orders_recovering {α : Type} {rule : Rule α} (h : rule.Orders eof) :
    (recovering eof rule).Orders eof := by
  intro input
  have hrule := h input
  unfold recovering
  cases hreading : rule input with
  | mk faults outcome =>
    rw [hreading] at hrule
    cases outcome with
    | done value rest => exact ⟨hrule.suffix, hrule.faults, trivial⟩
    | failed issue rest =>
      have hleft := synchronize_suffix_tail rest
      exact ⟨(synchronize_suffix rest).trans hrule.suffix,
        hrule.faults.record hrule.proper hrule.suffix hleft, trivial⟩
    | tooDeep rest => exact ⟨hrule.suffix, hrule.faults, trivial⟩

namespace Parts

variable {parts : Parts} (hparts : parts.Orders)

include hparts

theorem orders_item : parts.item.Orders parts.eof :=
  orders_recovering (orders_declarationOrStatement hparts)

theorem orders_items (bound : Nat) : (parts.items bound).Orders parts.eof := by
  induction bound with
  | zero => exact orders_pure []
  | succ bound ih =>
    apply orders_peek.bind
    intro next
    split
    · exact orders_pure []
    · exact orders_pure []
    · apply (orders_item hparts).bind
      intro first
      apply ih.bind
      intro others
      exact orders_pure _

theorem orders_block (opening : Span) : (parts.block opening).Orders parts.eof := by
  apply orders_remaining.bind
  intro input
  apply (orders_items hparts input.length).bind
  intro body
  apply (orders_expect rfl).bind
  intro closing
  exact orders_pure _

theorem orders_body : parts.body.Orders parts.eof := by
  intro input
  cases input with
  | nil => exact orders_expressionStatement hparts []
  | cons token rest =>
    have htail {rule : Rule Stmt} (h : rule.Orders parts.eof) :
        (rule rest).Ordered parts.eof (token :: rest) :=
      (h rest).of_suffix (List.suffix_cons token rest)
    rcases parts.body_cons token rest with heq | heq | heq | heq | heq | heq <;> rw [heq]
    · exact htail (orders_print hparts token.span)
    · exact htail (orders_block hparts token.span)
    · exact htail (orders_branch hparts token.span)
    · exact htail (orders_loop hparts token.span)
    · exact htail (orders_forLoop hparts token.span)
    · exact orders_expressionStatement hparts _

end Parts

theorem orders_parts (mode : Mode) (eof : Span) (budget : Nat) :
    (parts mode eof budget).Orders := by
  induction budget with
  | zero => exact ⟨orders_expression 0, orders_tooDeep⟩
  | succ budget ih =>
    refine ⟨orders_expression (budget + 1), ?_⟩
    have hbody := Parts.orders_body ih
    rw [parts_eof] at hbody ⊢
    exact hbody

end Grammar

/-! ## Programs -/

namespace Program

theorem inOrder_collect {eof : Span} {item : Rule (Option Stmt)} (h : item.Orders eof)
    (bound : Nat) (tokens : List Token) :
    Fault.InOrder eof tokens [] (collect eof item bound tokens).faults := by
  induction bound generalizing tokens with
  | zero => exact .nil
  | succ bound ih =>
    cases tokens with
    | nil => exact .nil
    | cons token rest =>
      have hitem := h (token :: rest)
      cases hreading : item (token :: rest) with
      | mk faults outcome =>
        rw [hreading] at hitem
        simp only [collect, hreading]
        cases outcome with
        | done stmt left => exact hitem.faults.append (ih left) hitem.suffix List.nil_suffix
        | failed issue left => exact hitem.faults.record hitem.proper hitem.suffix List.nil_suffix
        | tooDeep left => exact hitem.faults.record rfl hitem.suffix List.nil_suffix

/-- The faults of a program lie in its tokens or at their end, in order. -/
theorem inOrder_parse (mode : Grammar.Mode) (tokens : List Token) :
    Fault.InOrder (TokenInput.ofList tokens).eof (TokenInput.ofList tokens).tokens []
      (parse mode tokens).faults := by
  have hitem := Grammar.Parts.orders_item
    (Grammar.orders_parts mode (TokenInput.ofList tokens).eof nestingLimit)
  rw [Grammar.parts_eof] at hitem
  exact inOrder_collect hitem _ _

end Program

end LoxLang
