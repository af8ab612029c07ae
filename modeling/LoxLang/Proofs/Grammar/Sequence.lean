import LoxLang.Proofs.Grammar.Completeness

/-!
# Programs one after the other

Two programs that are read without a fault are read without a fault also when one follows the
other: the first never waits for a token of the second, and an `else` that could belong to the
last `if` of the first is no start of a program.

A program that is read without a fault as a script is read in the same way as interactive input,
since the rules differ only where an expression statement ends without its semicolon.
-/

namespace LoxLang

/-! ## Sequences -/

/-- Two sequences are one: its counter reaches no further than that of either, and every `else`
stays at its `if`. -/
theorem Grammar.Passage.exists_append (first second : Passage .sequence) :
    ∃ both : Passage .sequence, both.tokens = first.tokens ++ second.tokens ∧
      both.tree = List.append first.tree second.tree ∧
      (∀ counter, both.peak counter ≤ max (first.peak counter) (second.peak counter)) ∧
      (first.Nearest → second.Nearest → both.Nearest) := by
  match first with
  | empty => exact ⟨second, rfl, rfl, fun _ ↦ Nat.le_max_right _ _, fun _ ↦ id⟩
  | more decl rest =>
    obtain ⟨both, htokens, htree, hpeak, hnearest⟩ := exists_append rest second
    refine ⟨.more decl both, ?_, ?_, fun counter ↦ ?_, fun hfirst hsecond ↦ ?_⟩
    · rw [tokens, htokens, tokens, List.append_assoc]
    · rw [tree, htree]
      rfl
    · have hrest := hpeak counter
      rw [peak, peak]
      omega
    · exact ⟨hfirst.1, hnearest hfirst.2 hsecond⟩

/-- What is read from each of two token lists is read from both together. -/
theorem Program.parse_append {first second : List Token} {mark other last : Token}
    (hfirst : ∀ token ∈ first, token.kind ≠ .eof) (hsecond : ∀ token ∈ second, token.kind ≠ .eof)
    (hmark : mark.kind = .eof) (hother : other.kind = .eof) (hlast : last.kind = .eof)
    (hclean : (parse .script (first ++ [mark])).faults = [])
    (hotherClean : (parse .script (second ++ [other])).faults = []) :
    parse .script (first ++ second ++ [last]) =
      ⟨(parse .script (first ++ [mark])).statements ++
        (parse .script (second ++ [other])).statements, []⟩ := by
  obtain ⟨derivation, rfl, hnearest, htree, hpeak⟩ := exists_derivation hfirst hmark hclean
  obtain ⟨sequel, rfl, hsequel, hsequelTree, hsequelPeak⟩ :=
    exists_derivation hsecond hother hotherClean
  obtain ⟨both, hboth, hbothTree, hbothPeak, hbothNearest⟩ := derivation.exists_append sequel
  have htokens : ∀ token ∈ both.tokens, token.kind ≠ .eof := by
    rw [hboth]
    exact List.forall_mem_append.mpr ⟨hfirst, hsecond⟩
  have hlimit : both.peak 0 ≤ nestingLimit :=
    Nat.le_trans (hbothPeak 0) (Nat.max_le.mpr ⟨hpeak, hsequelPeak⟩)
  have hparse := parse_eq_tree (hbothNearest hnearest hsequel) htokens hlast hlimit
  rw [hboth, hbothTree, htree, hsequelTree] at hparse
  exact hparse

/-! ## Interactive input -/

/-- Whatever the first rule accepts, the second accepts with the same value. -/
def Rule.Within {α : Type} (rule other : Rule α) : Prop :=
  ∀ input value rest, rule.Accepts input value rest → other.Accepts input value rest

namespace Rule.Within

variable {α β : Type} {rule other : Rule α}

theorem refl (rule : Rule α) : rule.Within rule := fun _ _ _ ↦ id

theorem bind {next last : α → Rule β} (h : rule.Within other)
    (hnext : ∀ value, (next value).Within (last value)) :
    (rule >>= next).Within (other >>= last) := by
  intro input value rest haccepts
  obtain ⟨part, middle, hpart, hvalue⟩ := accepts_bind.mp haccepts
  exact accepts_bind.mpr ⟨part, middle, h input part middle hpart, hnext part middle value rest hvalue⟩

theorem map (f : α → β) (h : rule.Within other) : (f <$> rule).Within (f <$> other) :=
  h.bind fun value ↦ .refl (pure (f value))

theorem recovering (eof : Span) (h : rule.Within other) :
    (Grammar.recovering eof rule).Within (Grammar.recovering eof other) := by
  intro input found rest haccepts
  obtain ⟨value, hfound, hvalue⟩ := Grammar.accepts_recovering.mp haccepts
  exact Grammar.accepts_recovering.mpr ⟨value, hfound, h input value rest hvalue⟩

end Rule.Within

namespace Grammar

/-- The rules of a script beside others that accept no less. -/
structure Parts.Within (parts other : Parts) : Prop where
  mode : parts.mode = .script
  eof : parts.eof = other.eof
  expression : parts.expression = other.expression
  statement : parts.statement.Within other.statement

namespace Parts.Within

variable {parts other : Parts} (h : parts.Within other) (opening : Span)

include h

theorem declaration : parts.declaration opening = other.declaration opening := by
  rw [Parts.declaration, Parts.declaration, h.expression]

theorem print : parts.print opening = other.print opening := by
  rw [Parts.print, Parts.print, h.expression]

theorem expressionUnless (stop : Token.Kind) :
    parts.expressionUnless stop = other.expressionUnless stop := by
  rw [Parts.expressionUnless, Parts.expressionUnless, h.expression]

/-- Behind an accepted expression statement of a script there is a semicolon, so that the end of
the input is not near. -/
theorem expressionStatement : parts.expressionStatement.Within other.expressionStatement := by
  rw [Parts.expressionStatement, Parts.expressionStatement, ← h.expression, ← h.eof, h.mode]
  refine .bind (.refl _) fun input ↦ .bind (.refl _) fun expr ↦ ?_
  intro tokens value rest haccepts
  obtain ⟨next, middle, hpeek, hclosed⟩ := Rule.accepts_bind.mp haccepts
  obtain ⟨rfl, rfl⟩ := Rule.accepts_peek.mp hpeek
  rw [if_neg (by simp)] at hclosed
  obtain ⟨closing, behind, hclosing, -⟩ := Rule.accepts_bind.mp hclosed
  obtain ⟨-, rfl⟩ := Rule.accepts_expect.mp hclosing
  refine Rule.accepts_bind.mpr ⟨_, _, hpeek, ?_⟩
  rw [if_neg (by simp)]
  exact hclosed

theorem branch : (parts.branch opening).Within (other.branch opening) := by
  rw [Parts.branch, Parts.branch, h.expression]
  refine .bind (.refl _) fun _ ↦ .bind (.refl _) fun _ ↦ .bind (.refl _) fun _ ↦ ?_
  refine .bind h.statement fun _ ↦ .bind (.refl _) fun keyword ↦ ?_
  cases keyword with
  | none => exact .refl _
  | some _ => exact .bind h.statement fun _ ↦ .refl _

theorem loop : (parts.loop opening).Within (other.loop opening) := by
  rw [Parts.loop, Parts.loop, h.expression]
  refine .bind (.refl _) fun _ ↦ .bind (.refl _) fun _ ↦ .bind (.refl _) fun _ ↦ ?_
  exact .bind h.statement fun _ ↦ .refl _

theorem forInitial : parts.forInitial.Within other.forInitial := by
  refine .bind (.refl _) fun closing ↦ ?_
  cases closing with
  | some _ => exact .refl _
  | none =>
    refine .bind (.refl _) fun keyword ↦ ?_
    cases keyword with
    | some keyword =>
      dsimp only
      rw [h.declaration keyword.span]
      exact .refl _
    | none => exact h.expressionStatement.map some

theorem forClauses : parts.forClauses.Within other.forClauses := by
  rw [Parts.forClauses, Parts.forClauses, h.expressionUnless, h.expressionUnless]
  exact .bind (.refl _) fun _ ↦ h.forInitial.bind fun _ ↦ .refl _

theorem forLoop : (parts.forLoop opening).Within (other.forLoop opening) :=
  h.forClauses.bind fun _ ↦ h.statement.bind fun _ ↦ .refl _

theorem item : parts.item.Within other.item := by
  rw [Parts.item, Parts.item, h.eof]
  refine .recovering _ (.bind (.refl _) fun keyword ↦ ?_)
  cases keyword with
  | some keyword =>
    dsimp only
    rw [h.declaration keyword.span]
    exact .refl _
  | none => exact h.statement

theorem items (bound : Nat) : (parts.items bound).Within (other.items bound) := by
  induction bound with
  | zero => exact .refl _
  | succ bound ih =>
    refine .bind (.refl _) fun next ↦ ?_
    split
    · exact .refl _
    · exact .refl _
    · exact h.item.bind fun _ ↦ ih.bind fun _ ↦ .refl _

theorem block : (parts.block opening).Within (other.block opening) :=
  .bind (.refl _) fun _ ↦ (h.items _).bind fun _ ↦ .refl _

theorem body : parts.body.Within other.body := by
  intro input
  cases input with
  | nil => exact h.expressionStatement []
  | cons token rest =>
    intro value behind haccepts
    simp only [Rule.Accepts, Parts.body] at haccepts ⊢
    split at haccepts
    · rw [← h.print]
      exact haccepts
    · exact h.block token.span rest value behind haccepts
    · exact h.branch token.span rest value behind haccepts
    · exact h.loop token.span rest value behind haccepts
    · exact h.forLoop token.span rest value behind haccepts
    · exact h.expressionStatement (token :: rest) value behind haccepts

end Parts.Within

theorem parts_within (mode : Mode) (eof : Span) (budget : Nat) :
    (parts .script eof budget).Within (parts mode eof budget) := by
  induction budget with
  | zero => exact ⟨rfl, rfl, rfl, .refl _⟩
  | succ budget ih => exact ⟨rfl, rfl, rfl, ih.body⟩

end Grammar

namespace Program

theorem collect_within {eof : Span} {item other : Rule (Option Stmt)} (h : item.Within other)
    {bound : Nat} {tokens : List Token} (hclean : (collect eof item bound tokens).faults = []) :
    collect eof other bound tokens = collect eof item bound tokens := by
  induction bound generalizing tokens with
  | zero => rfl
  | succ bound ih =>
    cases tokens with
    | nil => rfl
    | cons token rest =>
      simp only [collect] at hclean ⊢
      cases hreading : item (token :: rest) with
      | mk faults outcome =>
        rw [hreading] at hclean
        cases outcome with
        | done stmt left =>
          obtain ⟨rfl, hothers⟩ := List.append_eq_nil_iff.mp hclean
          rw [show other (token :: rest) = _ from h _ _ _ hreading]
          simp only [ih hothers]
        | failed issue left => simp at hclean
        | tooDeep left => simp at hclean

/-- What a script is read as without a fault, it is read as in every mode. -/
theorem parse_of_script {tokens : List Token} (h : (parse .script tokens).faults = [])
    (mode : Grammar.Mode) : parse mode tokens = parse .script tokens :=
  collect_within (Grammar.parts_within mode _ nestingLimit).item h

end Program

end LoxLang
