import LoxLang.Proofs.Grammar.Alike
import LoxLang.Proofs.Grammar.Sequence
import LoxLang.Proofs.Scan.Seam
import LoxLang.Run

/-!
# Scripts of several lines

A script whose lines are programs by themselves is the sequence of these programs. Its tokens
are those of the lines, each shifted to where the line stands, and so are its statements.
-/

namespace LoxLang

/-! ## Shifted programs -/

/-- The second span is the first one, the given numbers of bytes and lines further on. -/
def Span.Shifted (offset lines : Nat) (span other : Span) : Prop := other = span.shift offset lines

theorem Span.compatible_shifted (offset lines : Nat) : Span.Compatible (Shifted offset lines) := by
  rintro first second _ _ rfl rfl
  exact (shift_cover offset lines first second).symm

theorem Token.alike_shift (offset lines : Nat) (token : Token) :
    token.Alike (Span.Shifted offset lines) (token.shift offset lines) :=
  ⟨rfl, rfl, rfl, rfl⟩

theorem Token.allAlike_shift (offset lines : Nat) (tokens : List Token) :
    Token.AllAlike (Span.Shifted offset lines) tokens (tokens.map (Token.shift offset lines)) := by
  rw [Token.AllAlike, List.forall₂_map_right_iff]
  exact List.forall₂_same.mpr fun token _ ↦ token.alike_shift offset lines

theorem Fault.Alike.eq_shift {offset lines : Nat} {fault other : Fault}
    (h : fault.Alike (Span.Shifted offset lines) other) : other = fault.shift offset lines := by
  obtain ⟨span, locus, issue⟩ := other
  obtain ⟨rfl, rfl, rfl⟩ := h
  rfl

theorem Token.shift_zero (token : Token) : token.shift 0 0 = token := rfl

theorem Token.shift_shift (offset lines more further : Nat) (token : Token) :
    (token.shift offset lines).shift more further = token.shift (offset + more) (lines + further) := by
  simp only [shift, Span.shift, Nat.add_assoc]

/-! ## The tokens of lines -/

/-- The number of bytes of lines, each with its line feed. -/
def lengthOfLines : List String → Nat
  | [] => 0
  | line :: rest => Text.byteLength line.toList + 1 + lengthOfLines rest

/-- The tokens of lines of which the first stands behind the given numbers of bytes and lines. -/
def tokensOfLines : Nat → Nat → List String → List Token
  | _, _, [] => []
  | offset, count, line :: rest =>
    (Scan.ofSource line).tokens.map (Token.shift offset count) ++
      tokensOfLines (offset + (Text.byteLength line.toList + 1)) (count + 1) rest

theorem map_shift_tokensOfLines (offset count more further : Nat) (lines : List String) :
    (tokensOfLines offset count lines).map (Token.shift more further) =
      tokensOfLines (offset + more) (count + further) lines := by
  induction lines generalizing offset count with
  | nil => rfl
  | cons line rest ih =>
    have hshift : Token.shift more further ∘ Token.shift offset count =
        Token.shift (offset + more) (count + further) := by
      funext token
      exact token.shift_shift offset count more further
    rw [tokensOfLines, List.map_append, List.map_map, hshift, ih, tokensOfLines]
    congr 2 <;> omega

theorem tokensOfLines_cons_zero (line : String) (rest : List String) :
    tokensOfLines 0 0 (line :: rest) =
      (Scan.ofSource line).tokens ++ tokensOfLines (0 + (Text.byteLength line.toList + 1)) 1 rest := by
  have hzero : Token.shift 0 0 = id := by
    funext token
    exact token.shift_zero
  rw [tokensOfLines, hzero, List.map_id]

theorem kind_ne_eof_shift (offset count : Nat) (line : String) :
    ∀ token ∈ (Scan.ofSource line).tokens.map (Token.shift offset count), token.kind ≠ .eof := by
  intro shifted hshifted
  obtain ⟨token, htoken, rfl⟩ := List.mem_map.mp hshifted
  exact show token.kind ≠ .eof from Scan.kind_ne_eof htoken

theorem kind_ne_eof_tokensOfLines (offset count : Nat) (lines : List String) :
    ∀ token ∈ tokensOfLines offset count lines, token.kind ≠ .eof := by
  induction lines generalizing offset count with
  | nil => exact List.forall_mem_nil _
  | cons line rest ih =>
    exact List.forall_mem_append.mpr ⟨kind_ne_eof_shift offset count line, ih _ _⟩

theorem ofChars_joined {lines : List String}
    (h : ∀ line ∈ lines, '\n' ∉ line.toList ∧ (Scan.ofSource line).faults = []) :
    (Scan.ofChars (['\n'].intercalate (lines.map String.toList))).tokens = tokensOfLines 0 0 lines ∧
      (Scan.ofChars (['\n'].intercalate (lines.map String.toList))).faults = [] := by
  induction lines with
  | nil => simp [Scan.ofChars, Scan.pieces, tokensOfLines]
  | cons line rest ih =>
    obtain ⟨⟨hbreak, hclean⟩, hrest⟩ := List.forall_mem_cons.mp h
    obtain ⟨htokens, hfaults⟩ := ih hrest
    rw [tokensOfLines_cons_zero]
    cases rest with
    | nil =>
      rw [List.map_singleton, List.intercalate_singleton]
      exact ⟨(List.append_nil _).symm, hclean⟩
    | cons next others =>
      have hnone : ∀ fault ∈ (Scan.ofChars line.toList).faults,
          fault.issue ≠ .unterminatedString := by
        rw [show (Scan.ofChars line.toList).faults = [] from hclean]
        exact List.forall_mem_nil _
      have hseam := Scan.ofChars_seam line.toList
        (['\n'].intercalate ((next :: others).map String.toList)) hnone
      rw [List.count_eq_zero.mpr hbreak] at hseam
      rw [List.map_cons, List.map_cons, List.intercalate_cons_cons, List.append_assoc,
        List.singleton_append, ← List.map_cons, hseam]
      constructor
      · rw [htokens, map_shift_tokensOfLines]
        rfl
      · rw [hfaults, List.map_nil, List.append_nil]
        exact hclean

/-! ## The statements of lines -/

/-- The statements are those of the lines in order, each line shifted to its place. -/
inductive Spread : Nat → Nat → List String → List Stmt → Prop where
  | nil {offset count : Nat} : Spread offset count [] []
  | cons {offset count : Nat} {line : String} {rest : List String} {first others : List Stmt}
    (hfirst : Stmt.AllAlike (Span.Shifted offset count) (Program.ofSource .script line).statements
      first)
    (hothers : Spread (offset + (Text.byteLength line.toList + 1)) (count + 1) rest others) :
    Spread offset count (line :: rest) (first ++ others)

namespace Program

theorem parse_shift (tokens : List Token) {mark : Token} (hmark : mark.kind = .eof)
    (htokens : ∀ token ∈ tokens, token.kind ≠ .eof) (offset lines : Nat) :
    (parse .script (tokens ++ [mark])).Alike (Span.Shifted offset lines)
      (parse .script (tokens.map (Token.shift offset lines) ++ [mark.shift offset lines])) :=
  alike_parse (Span.compatible_shifted offset lines) hmark htokens
    (Token.allAlike_shift offset lines tokens) (mark.alike_shift offset lines) .script

theorem spread_parse {lines : List String} (h : ∀ line ∈ lines, (ofSource .script line).faults = [])
    (offset count : Nat) {mark : Token} (hmark : mark.kind = .eof) :
    (parse .script (tokensOfLines offset count lines ++ [mark])).faults = [] ∧
      Spread offset count lines
        (parse .script (tokensOfLines offset count lines ++ [mark])).statements := by
  induction lines generalizing offset count with
  | nil =>
    simp only [parse, TokenInput.ofList_append_endMark (List.forall_mem_nil _) hmark, tokensOfLines]
    exact ⟨rfl, .nil⟩
  | cons line rest ih =>
    obtain ⟨hclean, hrest⟩ := List.forall_mem_cons.mp h
    obtain ⟨hrestClean, hspread⟩ :=
      ih hrest (offset + (Text.byteLength line.toList + 1)) (count + 1)
    have hkinds : ∀ token ∈ (Scan.ofSource line).tokens, token.kind ≠ .eof :=
      fun _ ↦ Scan.kind_ne_eof
    have hend : (Scan.ofSource line).endMark.kind = .eof := rfl
    have halike := parse_shift _ hend hkinds offset count
    have hfirst : (parse .script ((Scan.ofSource line).tokens.map (Token.shift offset count) ++
        [(Scan.ofSource line).endMark.shift offset count])).faults = [] := by
      have hline : (parse .script (Scan.ofSource line).stream).faults = [] :=
        (List.append_eq_nil_iff.mp hclean).2
      have hfaults := halike.faults
      rw [show (parse .script ((Scan.ofSource line).tokens ++ _)).faults = [] from hline] at hfaults
      exact List.forall₂_nil_left_iff.mp hfaults
    have hboth := parse_append (kind_ne_eof_shift offset count line)
      (kind_ne_eof_tokensOfLines _ _ rest) rfl hmark hmark hfirst hrestClean
    rw [tokensOfLines, hboth]
    exact ⟨rfl, .cons halike.statements hspread⟩

/-- A script of lines that are programs by themselves is the sequence of these programs. -/
theorem spread_of_lines {lines : List String}
    (h : ∀ line ∈ lines, '\n' ∉ line.toList ∧ (ofSource .script line).faults = []) :
    (ofSource .script ("\n".intercalate lines)).faults = [] ∧
      Spread 0 0 lines (ofSource .script ("\n".intercalate lines)).statements := by
  have hscan := ofChars_joined fun line hline ↦
    ⟨(h line hline).1, (List.append_eq_nil_iff.mp (h line hline).2).1⟩
  have hjoined : ("\n".intercalate lines).toList = ['\n'].intercalate (lines.map String.toList) :=
    String.toList_intercalate
  rw [← hjoined] at hscan
  obtain ⟨htokens, hfaults⟩ : (Scan.ofSource ("\n".intercalate lines)).tokens = _ ∧
    (Scan.ofSource ("\n".intercalate lines)).faults = [] := hscan
  have hmark : (Scan.ofSource ("\n".intercalate lines)).endMark.kind = .eof := rfl
  have hparse := spread_parse (fun line hline ↦ (h line hline).2) 0 0 hmark
  rw [← htokens] at hparse
  refine ⟨?_, hparse.2⟩
  exact List.append_eq_nil_iff.mpr ⟨hfaults, hparse.1⟩

end Program

end LoxLang
