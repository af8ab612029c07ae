import LoxLang.Proofs.Grammar.Completeness
import LoxLang.Proofs.Grammar.Consumption

/-!
# Items one after the other

What a token list is read as can be found piece by piece. Once it is known which items are read
from its front, and what they leave, the rest is read as if it stood alone: no level, no fault and
no token before it is remembered, and the number of items that may follow is never short.

A program that is read without a fault is such a front for whatever does not begin with `else`.
-/

namespace LoxLang

/-- The rule reads items from the input one by one, each where one is due, and leaves the rest. The
statements are those of the items that were not given up, with the faults found on the way. -/
inductive Rule.Repeats (item : Rule (Option Stmt)) (due : Token → Prop) :
    List Token → List Stmt → List Fault → List Token → Prop where
  | none (rest : List Token) : Repeats item due rest [] [] rest
  | more {token : Token} {input left rest : List Token} {stmt : Option Stmt} {stmts : List Stmt}
    {faults others : List Fault} (isDue : due token)
    (first : item (token :: input) = ⟨faults, .done stmt left⟩)
    (later : Repeats item due left stmts others rest) :
    Repeats item due (token :: input) (stmt.toList ++ stmts) (faults ++ others) rest

theorem Rule.Repeats.single {item : Rule (Option Stmt)} {due : Token → Prop} {token : Token}
    {input left : List Token} {stmt : Option Stmt} {faults : List Fault} (hdue : due token)
    (h : item (token :: input) = ⟨faults, .done stmt left⟩) :
    item.Repeats due (token :: input) stmt.toList faults left := by
  have hmore := Repeats.more hdue h (.none left)
  rw [List.append_nil, List.append_nil] at hmore
  exact hmore

/-! ## Collecting -/

namespace Program

variable {mode : Grammar.Mode} {eof : Span} {budget : Nat}

/-- Every item takes a token, so any bound that is not below their number does. -/
theorem collect_eq_of_le {tokens : List Token} {bound more : Nat} (hbound : tokens.length ≤ bound)
    (hmore : tokens.length ≤ more) :
    collect eof (Grammar.parts mode eof budget).item bound tokens =
      collect eof (Grammar.parts mode eof budget).item more tokens := by
  induction bound generalizing tokens more with
  | zero =>
    obtain rfl := List.length_eq_zero_iff.mp (Nat.le_zero.mp hbound)
    cases more <;> rfl
  | succ bound ih =>
    cases tokens with
    | nil => cases more <;> rfl
    | cons token rest =>
      cases more with
      | zero => exact absurd hmore (Nat.not_succ_le_zero _)
      | succ more =>
        simp only [collect]
        split
        · next faults stmt left hitem =>
          have hleft := (Grammar.item_suffix hitem).length_le
          have hrest := ih (Nat.le_trans hleft (Nat.le_of_succ_le_succ hbound))
            (Nat.le_trans hleft (Nat.le_of_succ_le_succ hmore))
          rw [hrest]
        · rfl
        · rfl

/-- What is collected behind the items in front is what is collected from the rest alone. -/
theorem collect_of_repeats {due : Token → Prop} {input rest : List Token} {stmts : List Stmt}
    {faults : List Fault}
    (h : (Grammar.parts mode eof budget).item.Repeats due input stmts faults rest)
    {bound more : Nat} (hbound : input.length ≤ bound) (hmore : rest.length ≤ more) :
    collect eof (Grammar.parts mode eof budget).item bound input =
      ⟨stmts ++ (collect eof (Grammar.parts mode eof budget).item more rest).statements,
        faults ++ (collect eof (Grammar.parts mode eof budget).item more rest).faults⟩ := by
  induction h generalizing bound with
  | none rest => exact collect_eq_of_le hbound hmore
  | more isDue first later ih =>
    cases bound with
    | zero => exact absurd hbound (Nat.not_succ_le_zero _)
    | succ bound =>
      have hleft := (Grammar.item_suffix first).length_le
      have hlater := ih (Nat.le_trans hleft (Nat.le_of_succ_le_succ hbound)) hmore
      simp only [collect, first, hlater, List.append_assoc]

/-- An item that goes past the limit is the last, and its fault is the last one. -/
theorem collect_of_tooDeep {token : Token} {rest left : List Token} {faults : List Fault}
    (h : (Grammar.parts mode eof budget).item (token :: rest) = ⟨faults, .tooDeep left⟩)
    {bound : Nat} (hbound : rest.length < bound) :
    collect eof (Grammar.parts mode eof budget).item bound (token :: rest) =
      ⟨[], faults ++ [.atNext eof .nestingTooDeep left]⟩ := by
  cases bound with
  | zero => exact absurd hbound (Nat.not_lt_zero _)
  | succ bound => simp only [collect, h]

end Program

/-! ## The end of the input -/

namespace TokenInput

variable {front : List Token} (hfront : ∀ token ∈ front, token.kind ≠ .eof)

include hfront

theorem tokens_append (others : List Token) :
    (ofList (front ++ others)).tokens = front ++ (ofList others).tokens := by
  rw [tokens_ofList, tokens_ofList,
    List.takeWhile_append_of_pos fun token htoken ↦ decide_eq_true (hfront token htoken)]

theorem tokens_of_unmarked : (ofList front).tokens = front := by
  have happend := tokens_append hfront []
  rw [List.append_nil, tokens_ofList [], List.takeWhile_nil, List.append_nil] at happend
  exact happend

/-- The input ends where the last part of it does. -/
theorem eof_append {others : List Token} (h : others ≠ []) :
    (ofList (front ++ others)).eof = (ofList others).eof := by
  have hdrop : (front ++ others).dropWhile (·.kind ≠ .eof) = others.dropWhile (·.kind ≠ .eof) :=
    List.dropWhile_append_of_pos fun token htoken ↦ decide_eq_true (hfront token htoken)
  have hlast : (front ++ others).getLast? = others.getLast? := by
    rw [List.getLast?_append, List.getLast?_eq_some_getLast h, Option.some_or]
  unfold ofList
  simp only [hdrop, hlast]
  split <;> rfl

end TokenInput

namespace Program

/-- Where no token is left, the end of the input does not matter. -/
theorem parse_of_no_tokens {mode : Grammar.Mode} {tokens : List Token}
    (h : (TokenInput.ofList tokens).tokens = []) : parse mode tokens = ⟨[], []⟩ := by
  simp only [parse, h]
  rfl

/-- The items in front are read without regard to where the input ends, and so the rest of it is
read as a list of its own that ends at the same place. -/
theorem parse_append_of_repeats {mode : Grammar.Mode} {front others last : List Token}
    {stmts : List Stmt} {faults : List Fault} (hfront : ∀ token ∈ front, token.kind ≠ .eof)
    (h : ∀ eof, (Grammar.parts mode eof nestingLimit).item.Repeats (fun _ ↦ True)
      (front ++ (TokenInput.ofList others).tokens) stmts faults (TokenInput.ofList last).tokens)
    (hlast : (TokenInput.ofList last).tokens ≠ [] →
      others ≠ [] ∧ (TokenInput.ofList last).eof = (TokenInput.ofList others).eof) :
    parse mode (front ++ others) =
      ⟨stmts ++ (parse mode last).statements, faults ++ (parse mode last).faults⟩ := by
  have hcollect := collect_of_repeats (h (TokenInput.ofList (front ++ others)).eof)
    (Nat.le_refl _) (Nat.le_refl _)
  by_cases hnone : (TokenInput.ofList last).tokens = []
  · rw [parse_of_no_tokens hnone, parse, TokenInput.tokens_append hfront, hcollect, hnone]
    rfl
  · obtain ⟨hothers, heof⟩ := hlast hnone
    rw [TokenInput.eof_append hfront hothers, ← heof] at hcollect
    rw [parse, TokenInput.tokens_append hfront, TokenInput.eof_append hfront hothers, ← heof,
      hcollect]
    rfl

end Program

/-! ## Programs without a fault -/

namespace Grammar

theorem Passage.nextKind_append_ne_else (passage : Passage .sequence) {rest : List Token}
    (h : nextKind rest ≠ some .kwElse) : nextKind (passage.tokens ++ rest) ≠ some .kwElse := by
  cases passage with
  | empty => exact h
  | more decl others =>
    obtain ⟨token, more, htokens, -, helse, -⟩ := decl.exists_start (by decide)
    simpa [tokens, htokens] using helse

/-- The declarations of a derivation are read one by one. Only an `else` behind them could be taken
for a part of the last. -/
theorem Passage.repeats (passage : Passage .sequence) (eof : Span) {budget counter : Nat}
    (hnearest : passage.Nearest) (hpeak : passage.peak counter ≤ counter + budget)
    {rest : List Token} (hrest : nextKind rest ≠ some .kwElse) :
    (parts .script eof budget).item.Repeats (fun _ ↦ True) (passage.tokens ++ rest) passage.tree []
      rest := by
  match passage with
  | .empty => exact .none rest
  | .more decl others =>
    obtain ⟨hdecl, hothers⟩ := hnearest
    obtain ⟨hdeclPeak, hothersPeak⟩ := Nat.max_le.mp hpeak
    obtain ⟨token, more, htokens, -⟩ := decl.exists_start (by decide)
    have hitem := (decl.complete.meets_item eof budget counter hdecl
      (others.nextKind_append_ne_else hrest)).accepts hdeclPeak
    have hlater := repeats others eof hothers hothersPeak hrest
    rw [tokens, List.append_assoc, htokens, List.cons_append]
    rw [htokens, List.cons_append] at hitem
    exact .more trivial hitem hlater

end Grammar

namespace Program

/-- A token list that is read without a fault is the tokens of a derivation. -/
theorem exists_derivation_of_unmarked {tokens : List Token}
    (htokens : ∀ token ∈ tokens, token.kind ≠ .eof) (h : (parse .script tokens).faults = []) :
    ∃ derivation : Grammar.Passage .sequence, derivation.tokens = tokens ∧ derivation.Nearest ∧
      derivation.tree = (parse .script tokens).statements ∧ derivation.peak 0 ≤ nestingLimit := by
  obtain ⟨passage, hfrontier, hnearest, htree, hpeak⟩ :=
    Grammar.collect_sound (Grammar.parts_sound _ _) (Nat.le_refl _) h
  rw [TokenInput.tokens_of_unmarked htokens] at hfrontier
  refine ⟨passage, hfrontier, hnearest, htree, ?_⟩
  have hlimit := hpeak 0
  rw [Nat.zero_add] at hlimit
  exact hlimit

/-- Behind a program that is read without a fault, whatever does not begin with `else` is read as
if it stood alone: statements, spans and faults are the same. -/
theorem parse_clean_append {front others : List Token} (hfront : ∀ token ∈ front, token.kind ≠ .eof)
    (hclean : (parse .script front).faults = []) (hothers : nextKind others ≠ some .kwElse) :
    parse .script (front ++ others) =
      ⟨(parse .script front).statements ++ (parse .script others).statements,
        (parse .script others).faults⟩ := by
  obtain ⟨derivation, rfl, hnearest, htree, hpeak⟩ := exists_derivation_of_unmarked hfront hclean
  have helse : nextKind (TokenInput.ofList others).tokens ≠ some .kwElse := by
    rw [TokenInput.tokens_ofList]
    cases others with
    | nil => exact hothers
    | cons token rest =>
      by_cases hmark : token.kind = .eof
      · simp [hmark]
      · simpa [hmark] using hothers
  have hrepeats (eof : Span) := derivation.repeats eof hnearest
    (Nat.le_trans hpeak (Nat.le_add_left nestingLimit 0)) helse
  rw [parse_append_of_repeats hfront hrepeats, htree, List.nil_append]
  intro htokens
  refine ⟨?_, rfl⟩
  rintro rfl
  exact htokens rfl

end Program

/-- Tokens of the given kinds and lexemes, each at a place of its own. -/
def Token.row : Nat → List (Token.Kind × String) → List Token
  | _, [] => []
  | place, (kind, lexeme) :: rest => ⟨kind, lexeme, none, .single place 1⟩ :: row (place + 1) rest

/-- Behind `if (a) if (b) c; else d = e - f - g or h;` the two violations of `} print c` are
found. -/
theorem Program.parse_clean_append_danglingElse :
    let others := Token.row 41 [(.rightBrace, "\x7d"), (.kwPrint, "print"), (.identifier, "c")]
    (∀ token ∈ Token.danglingElse, token.kind ≠ .eof) ∧
      (parse .script Token.danglingElse).faults = [] ∧ nextKind others ≠ some .kwElse ∧
      parse .script (Token.danglingElse ++ others) = ⟨(parse .script Token.danglingElse).statements,
        [⟨.single 41 1, .atLexeme "\x7d", .noExpression .rightBrace⟩,
          ⟨⟨44, 44, 1⟩, .atEnd, .noSemicolonAfterValue⟩]⟩ := by
  intro others
  have hfront : ∀ token ∈ Token.danglingElse, token.kind ≠ .eof := by decide
  have hclean : (parse .script Token.danglingElse).faults = [] := rfl
  have hothers : nextKind others ≠ some .kwElse := by decide
  refine ⟨hfront, hclean, hothers, ?_⟩
  rw [parse_clean_append hfront hclean hothers]
  rfl

end LoxLang
