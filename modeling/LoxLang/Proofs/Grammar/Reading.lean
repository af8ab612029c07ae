import LoxLang.Grammar.Expr

/-!
# What rules read

Two ways in which a rule can end without a fault: it reads a value and leaves the rest of
its input, or it goes past the nesting limit. Both are decided for a composite rule by its
parts, so a proof about a rule never looks at how readings are put together.
-/

namespace LoxLang

/-- The kind of the next token. -/
def nextKind (input : List Token) : Option Token.Kind := input.head?.map Token.kind

@[simp]
theorem nextKind_nil : nextKind [] = none := rfl

@[simp]
theorem nextKind_cons (token : Token) (rest : List Token) :
    nextKind (token :: rest) = some token.kind := rfl

namespace Rule

variable {α β : Type}

/-- The rule reads a value, leaves the rest, and finds no fault. -/
def Accepts (rule : Rule α) (input : List Token) (value : α) (rest : List Token) : Prop :=
  rule input = ⟨[], .done value rest⟩

/-- The rule goes past the nesting limit and finds no fault before that. -/
def Exceeds (rule : Rule α) (input : List Token) : Prop :=
  ∃ left, rule input = ⟨[], .tooDeep left⟩

/-- The rule reads the value if the condition holds, and goes past the nesting limit
otherwise. -/
structure Meets (rule : Rule α) (fits : Prop) (input : List Token) (value : α)
    (rest : List Token) : Prop where
  accepts : fits → rule.Accepts input value rest
  exceeds : ¬fits → rule.Exceeds input

/-! ## Accepting -/

@[simp]
theorem accepts_bind {first : Rule α} {second : α → Rule β} {input rest : List Token} {value : β} :
    (first >>= second).Accepts input value rest ↔
      ∃ part middle, first.Accepts input part middle ∧ (second part).Accepts middle value rest := by
  change andThen first second input = _ ↔ ∃ part middle, first input = _ ∧ second part middle = _
  unfold andThen
  rcases first input with ⟨faults, ⟨part, middle⟩ | issue | left⟩
  · constructor
    · intro h
      simp only [Reading.mk.injEq, List.append_eq_nil_iff] at h
      obtain ⟨⟨rfl, hfaults⟩, houtcome⟩ := h
      exact ⟨part, middle, rfl, by rw [← hfaults, ← houtcome]⟩
    · rintro ⟨other, after, hfirst, hsecond⟩
      simp only [Reading.mk.injEq, Outcome.done.injEq] at hfirst
      obtain ⟨rfl, rfl, rfl⟩ := hfirst
      simp only [hsecond, List.append_nil]
  · simp
  · simp

@[simp]
theorem accepts_pure {result value : α} {input rest : List Token} :
    (pure result : Rule α).Accepts input value rest ↔ result = value ∧ input = rest := by
  change (⟨[], .done result input⟩ : Reading α) = _ ↔ _
  simp

@[simp]
theorem accepts_done {result value : α} {input rest : List Token} :
    (done result).Accepts input value rest ↔ result = value ∧ input = rest :=
  accepts_pure

@[simp]
theorem accepts_map {f : α → β} {rule : Rule α} {input rest : List Token} {value : β} :
    (f <$> rule).Accepts input value rest ↔ ∃ part, rule.Accepts input part rest ∧ f part = value := by
  change (rule >>= fun part ↦ pure (f part)).Accepts input value rest ↔ _
  simp only [accepts_bind, accepts_pure]
  constructor
  · rintro ⟨part, middle, h, rfl, rfl⟩
    exact ⟨part, h, rfl⟩
  · rintro ⟨part, h, rfl⟩
    exact ⟨part, rest, h, rfl, rfl⟩

@[simp]
theorem accepts_fail {issue : Issue} {input rest : List Token} {value : α} :
    ¬(fail issue : Rule α).Accepts input value rest := by
  simp [Accepts, fail]

@[simp]
theorem accepts_tooDeep {input rest : List Token} {value : α} :
    ¬(tooDeep : Rule α).Accepts input value rest := by
  simp [Accepts, tooDeep]

@[simp]
theorem accepts_note {fault : Fault} {input rest : List Token} {value : Unit} :
    ¬(note fault).Accepts input value rest := by
  simp [Accepts, note]

@[simp]
theorem accepts_remaining {input rest value : List Token} :
    remaining.Accepts input value rest ↔ input = value ∧ input = rest := by
  simp [Accepts, remaining]

@[simp]
theorem accepts_peek {input rest : List Token} {value : Option Token.Kind} :
    peek.Accepts input value rest ↔ nextKind input = value ∧ input = rest := by
  simp [Accepts, peek, nextKind]

@[simp]
theorem accepts_accept_some {wanted : Token.Kind} {input rest : List Token} {token : Token} :
    (accept wanted).Accepts input (some token) rest ↔ token.kind = wanted ∧ input = token :: rest := by
  unfold Accepts accept
  split
  · simp
  · split <;> grind

@[simp]
theorem accepts_accept_none {wanted : Token.Kind} {input rest : List Token} :
    (accept wanted).Accepts input none rest ↔ nextKind input ≠ some wanted ∧ input = rest := by
  unfold Accepts accept
  split
  · simp
  · split <;> simp_all

@[simp]
theorem accepts_expect {wanted : Token.Kind} {issue : Issue} {input rest : List Token}
    {token : Token} :
    (expect wanted issue).Accepts input token rest ↔ token.kind = wanted ∧ input = token :: rest := by
  unfold Accepts expect
  split
  · simp
  · split <;> grind

/-- A rule that ends with a token of a fixed kind. -/
theorem accepts_expect_pure {wanted : Token.Kind} {issue : Issue} {result : Token → α}
    {token : Token} {rest : List Token} (h : token.kind = wanted) :
    (expect wanted issue >>= fun token ↦ pure (result token)).Accepts (token :: rest) (result token)
      rest :=
  accepts_bind.mpr ⟨token, rest, accepts_expect.mpr ⟨h, rfl⟩, accepts_pure.mpr ⟨rfl, rfl⟩⟩

theorem Accepts.bind_eq {first : Rule α} {second : α → Rule β} {input middle : List Token} {part : α}
    (h : first.Accepts input part middle) : (first >>= second) input = second part middle := by
  change andThen first second input = _
  simp only [andThen, show first input = _ from h, List.nil_append]

theorem Exceeds.bind {first : Rule α} {second : α → Rule β} {input : List Token}
    (h : first.Exceeds input) : (first >>= second).Exceeds input := by
  obtain ⟨left, hleft⟩ := h
  refine ⟨left, ?_⟩
  change andThen first second input = _
  simp only [andThen, hleft]

/-! ## Meeting a condition -/

theorem Meets.congr {rule : Rule α} {fits fits' : Prop} {input rest : List Token} {value : α}
    (h : rule.Meets fits input value rest) (hiff : fits ↔ fits') :
    rule.Meets fits' input value rest :=
  ⟨fun hfits ↦ h.accepts (hiff.mpr hfits), fun hfits ↦ h.exceeds fun hfits' ↦ hfits (hiff.mp hfits')⟩

theorem Meets.of_eq {rule rule' : Rule α} {fits : Prop} {input input' rest : List Token} {value : α}
    (h : rule'.Meets fits input' value rest) (heq : rule input = rule' input') :
    rule.Meets fits input value rest := by
  refine ⟨fun hfits ↦ heq.trans (h.accepts hfits), fun hfits ↦ ?_⟩
  obtain ⟨left, hleft⟩ := h.exceeds hfits
  exact ⟨left, heq.trans hleft⟩

theorem Accepts.meets {rule : Rule α} {input rest : List Token} {value : α}
    (h : rule.Accepts input value rest) : rule.Meets True input value rest :=
  ⟨fun _ ↦ h, fun hfits ↦ absurd trivial hfits⟩

/-- The second rule is reached only if the first one meets its condition. -/
theorem Meets.bind {first : Rule α} {second : α → Rule β} {fits fits' : Prop}
    {input middle rest : List Token} {part : α} {value : β}
    (hfirst : first.Meets fits input part middle)
    (hsecond : (second part).Meets fits' middle value rest) :
    (first >>= second).Meets (fits ∧ fits') input value rest := by
  constructor
  · rintro ⟨hfits, hfits'⟩
    exact accepts_bind.mpr ⟨part, middle, hfirst.accepts hfits, hsecond.accepts hfits'⟩
  · intro hnot
    by_cases hfits : fits
    · obtain ⟨left, hleft⟩ := hsecond.exceeds fun hfits' ↦ hnot ⟨hfits, hfits'⟩
      exact ⟨left, (hfirst.accepts hfits).bind_eq.trans hleft⟩
    · exact (hfirst.exceeds hfits).bind

/-- A first rule that always reads its part leaves the condition to the second. -/
theorem Accepts.meets_bind {first : Rule α} {second : α → Rule β} {fits : Prop}
    {input middle rest : List Token} {part : α} {value : β}
    (hfirst : first.Accepts input part middle)
    (hsecond : (second part).Meets fits middle value rest) :
    (first >>= second).Meets fits input value rest :=
  (hfirst.meets.bind hsecond).congr (by simp)

/-- A second rule that always succeeds leaves the condition to the first. -/
theorem Meets.bind_accepts {first : Rule α} {second : α → Rule β} {fits : Prop}
    {input middle rest : List Token} {part : α} {value : β}
    (hfirst : first.Meets fits input part middle)
    (hsecond : (second part).Accepts middle value rest) :
    (first >>= second).Meets fits input value rest :=
  (hfirst.bind hsecond.meets).congr (by simp)

theorem Meets.expect_bind {second : Token → Rule β} {fits : Prop} {wanted : Token.Kind}
    {issue : Issue} {token : Token} {input rest : List Token} {value : β}
    (h : (second token).Meets fits input value rest) (hkind : token.kind = wanted) :
    (expect wanted issue >>= second).Meets fits (token :: input) value rest :=
  (accepts_expect.mpr ⟨hkind, rfl⟩).meets_bind h

theorem Meets.accept_bind {second : Option Token → Rule β} {fits : Prop} {wanted : Token.Kind}
    {token : Token} {input rest : List Token} {value : β}
    (h : (second (some token)).Meets fits input value rest) (hkind : token.kind = wanted) :
    (accept wanted >>= second).Meets fits (token :: input) value rest :=
  (accepts_accept_some.mpr ⟨hkind, rfl⟩).meets_bind h

theorem Meets.accept_none_bind {second : Option Token → Rule β} {fits : Prop}
    {wanted : Token.Kind} {input rest : List Token} {value : β}
    (h : (second none).Meets fits input value rest) (hkind : nextKind input ≠ some wanted) :
    (accept wanted >>= second).Meets fits input value rest :=
  (accepts_accept_none.mpr ⟨hkind, rfl⟩).meets_bind h

theorem Meets.map {f : α → β} {rule : Rule α} {fits : Prop} {input rest : List Token} {part : α}
    (h : rule.Meets fits input part rest) : (f <$> rule).Meets fits input (f part) rest := by
  change (rule >>= fun part ↦ pure (f part)).Meets fits input (f part) rest
  exact h.bind_accepts (accepts_pure.mpr ⟨rfl, rfl⟩)

end Rule

namespace Grammar

variable {α : Type}

@[simp]
theorem accepts_deeper {below : Option Level} {rule : Level → Rule α} {input rest : List Token}
    {value : α} :
    (deeper below rule).Accepts input value rest ↔
      ∃ level, below = some level ∧ (rule level).Accepts input value rest := by
  cases below with
  | none => simp [deeper]
  | some level => simp [deeper]

end Grammar

end LoxLang
