import LoxLang.Proofs.Run.Layout
import LoxLang.Proofs.Scan.Partition

/-!
# Scanning lexemes anew

A token does not depend on what stood around it. Its lexeme ends where a blank or a semicolon
follows: only strings and comments reach over these, a string ends at its second quote, and no
token is the beginning of a comment but for a slash, which takes a second one to begin it. So the
lexemes of a source, put one behind the other with blanks between them, are read as the same tokens,
whatever else the source held.
-/

namespace LoxLang

namespace Lexicon

open Scan

/-! ## Lexemes and what follows them -/

theorem Lexeme.longest_at_end {text : List Char} {shape : Shape} (h : Lexeme text shape) :
    Longest text shape (text ++ []) := by
  rw [List.append_nil]
  exact ⟨List.prefix_refl text, h, fun _ _ _ hfront ↦ hfront.length_le⟩

/-- A lexeme with nothing behind it is matched as a whole. -/
theorem Lexeme.munch_eq {first : Char} {more : List Char} {shape : Shape}
    (h : Lexeme (first :: more) shape) : munch first more = ⟨shape, more, []⟩ := by
  have hlongest := h.longest_at_end
  rw [List.append_nil] at hlongest
  obtain ⟨htext, hshape⟩ := eq_munch_of_longest hlongest
  have hmore := (List.cons.inj htext).2
  have hrest : (munch first more).rest = [] := by
    have hpartition := munch_partition first more
    rw [← hmore] at hpartition
    exact List.append_right_eq_self.mp hpartition
  rw [← hrest, hshape]
  nth_rewrite 3 [hmore]
  rfl

theorem Lexeme.quote_mem {more : List Char} {shape : Shape} (h : Lexeme ('"' :: more) shape) :
    '"' ∈ more := by
  by_contra hopen
  have hmatch := h.munch_eq
  rw [munch_of_open hopen] at hmatch
  exact h.ne_bad _ (congrArg Match.shape hmatch).symm

theorem Lexeme.eq_nil_of_slash {more : List Char} {kind : Token.Kind} {literal : Option Literal}
    (h : Lexeme ('/' :: more) (.token kind literal)) : more = [] := by
  have hmatch : slash more = ⟨.token kind literal, more, []⟩ := h.munch_eq
  unfold slash at hmatch
  split at hmatch
  · cases congrArg Match.shape hmatch
  · exact (congrArg Match.more hmatch).symm

/-- Characters that are lexemes by themselves and stand in no others but strings and comments. -/
def separators : List Char := [' ', ';']

theorem eq_of_mem_separators {c : Char} (h : c ∈ separators) : c = ' ' ∨ c = ';' := by
  simpa [separators] using h

/-- The lexemes that hold a separator. -/
theorem Lexeme.of_separator_mem {text : List Char} {shape : Shape} (h : Lexeme text shape)
    {separator : Char} (hseparator : separator ∈ separators) (hmem : separator ∈ text) :
    text = [separator] ∨ (∃ content, '"' ∉ content ∧ text = '"' :: (content ++ ['"'])) ∨
      ∃ body, text = '/' :: '/' :: body := by
  have hplain : separator ∉ letters ∧ separator ∉ digits ∧ separator ≠ '=' ∧ separator ≠ '.' ∧
      separator ∉ compounds.map Prod.fst := by
    rcases eq_of_mem_separators hseparator with rfl | rfl <;> decide
  obtain ⟨hletter, hdigit, hequal, hpoint, hcompound⟩ := hplain
  have hnoWord {first : Char} {more : List Char} (hfirst : first ∈ letters)
      (hmore : ∀ c ∈ more, c ∈ letters ∨ c ∈ digits) : separator ∉ first :: more := by
    intro hmem
    rcases List.mem_cons.mp hmem with rfl | hmem
    · exact hletter hfirst
    · exact (hmore separator hmem).elim hletter hdigit
  cases h with
  | symbol listed =>
    obtain rfl := List.mem_singleton.mp hmem
    exact .inl rfl
  | @compound c kind listed =>
    rcases List.mem_cons.mp hmem with rfl | hsecond
    · exact absurd (List.mem_map_of_mem listed) hcompound
    · exact absurd (List.mem_singleton.mp hsecond) hequal
  | keyword listed =>
    obtain ⟨first, more, htext, hfirst, hmore, -⟩ := word_of_keyword _ listed
    rw [htext] at hmem
    exact absurd hmem (hnoWord hfirst hmore)
  | identifier letter word free => exact absurd hmem (hnoWord letter word)
  | whole nonempty all => exact absurd (all separator hmem) hdigit
  | decimal nonempty all behind allBehind =>
    rcases List.mem_append.mp hmem with hwhole | hfraction
    · exact absurd (all separator hwhole) hdigit
    · have hbehind := (List.mem_cons.mp hfraction).resolve_left hpoint
      exact absurd (allBehind separator hbehind) hdigit
  | @string content closed => exact .inr (.inl ⟨content, closed, rfl⟩)
  | @comment body line => exact .inr (.inr ⟨body, rfl⟩)
  | blank listed =>
    obtain rfl := List.mem_singleton.mp hmem
    exact .inl rfl

/-- The lexeme of a token ends before a separator. -/
theorem Lexeme.longest_before_separator {text : List Char} {kind : Token.Kind}
    {literal : Option Literal} (h : Lexeme text (.token kind literal)) {separator : Char}
    (hseparator : separator ∈ separators) (rest : List Char) :
    Longest text (.token kind literal) (text ++ separator :: rest) := by
  refine ⟨List.prefix_append _ _, h, fun other shape hother hfront ↦ ?_⟩
  obtain ⟨first, more, rfl⟩ := List.exists_cons_of_ne_nil h.ne_nil
  by_contra hlonger
  -- A longer lexeme would go on over the separator.
  have hover : first :: (more ++ [separator]) <+: other := by
    apply List.prefix_of_prefix_length_le _ hfront
    · simp only [List.length_cons, List.length_append, List.length_nil] at hlonger ⊢
      omega
    · exact ⟨rest, by simp⟩
  have hmem : separator ∈ other := hover.subset (by simp)
  rcases hother.of_separator_mem hseparator hmem with rfl | ⟨content, hclosed, rfl⟩ | ⟨body, rfl⟩
  · have hlength := hover.length_le
    simp at hlength
  · obtain ⟨rfl, hcontent⟩ := List.cons_prefix_cons.mp hover
    have hmore : more <+: content := by
      apply List.prefix_of_prefix_length_le ((List.prefix_append _ _).trans hcontent)
        (List.prefix_append _ _)
      have hlength := hcontent.length_le
      simp only [List.length_append, List.length_singleton] at hlength
      omega
    exact hclosed (hmore.subset h.quote_mem)
  · obtain ⟨rfl, hbody⟩ := List.cons_prefix_cons.mp hover
    obtain rfl := h.eq_nil_of_slash
    obtain ⟨rfl, -⟩ := List.cons_prefix_cons.mp hbody
    exact absurd hseparator (by decide)

/-- A blank is a lexeme of its own, whatever follows. -/
theorem longest_blank (rest : List Char) : Longest [' '] .skipped ([' '] ++ rest) := by
  refine ⟨List.prefix_append _ _, .blank (by decide), fun other shape hother hfront ↦ ?_⟩
  obtain ⟨first, more, rfl⟩ := List.exists_cons_of_ne_nil hother.ne_nil
  obtain ⟨rfl, -⟩ := List.cons_prefix_cons.mp hfront
  rcases hother.of_separator_mem (by decide) List.mem_cons_self with
    hblank | ⟨content, -, hquote⟩ | ⟨body, hslash⟩
  · exact Nat.le_of_eq (congrArg List.length hblank)
  · cases hquote
  · cases hslash

/-! ## Lexemes with blanks between them -/

/-- The lexemes of tokens, with blanks between them, are read as these tokens but for their
places. -/
theorem exists_reads_spaced {tokens : List Token} (start : Cursor)
    (h : ∀ token ∈ tokens, Lexeme token.lexeme.toList (.token token.kind token.literal)) :
    ∃ found, Reads start ([' '].intercalate (tokens.map fun token ↦ token.lexeme.toList)) found [] ∧
      found.map Token.content = tokens.map Token.content ++ [⟨.eof, "", none⟩] := by
  induction tokens generalizing start with
  | nil => exact ⟨_, .finish, rfl⟩
  | cons token rest ih =>
    obtain ⟨htoken, hrest⟩ := List.forall_mem_cons.mp h
    have hcontent (span : Span) : Token.content
        ⟨token.kind, String.ofList token.lexeme.toList, token.literal, span⟩ = token.content := by
      rw [String.ofList_toList]
      rfl
    cases rest with
    | nil =>
      have hend : Reads (start.after token.lexeme.toList) [] _ [] := .finish
      have hreads := Reads.token htoken.longest_at_end hend
      rw [List.append_nil] at hreads
      rw [List.map_singleton, List.intercalate_singleton]
      refine ⟨_, hreads, ?_⟩
      rw [List.map_cons, hcontent]
      rfl
    | cons next others =>
      obtain ⟨found, hfound, hcontents⟩ :=
        ih ((start.after token.lexeme.toList).after [' ']) hrest
      have hreads := Reads.token (htoken.longest_before_separator (by decide) _)
        (.skip (longest_blank _) hfound)
      have hjoined : [' '].intercalate ((token :: next :: others).map (·.lexeme.toList)) =
          token.lexeme.toList ++
            ([' '] ++ [' '].intercalate ((next :: others).map (·.lexeme.toList))) := by
        rw [List.map_cons, List.map_cons, List.intercalate_cons_cons, List.append_assoc]
      rw [hjoined]
      refine ⟨_, hreads, ?_⟩
      rw [List.map_cons, hcontent, hcontents]
      rfl

theorem Front.lexeme_of_token {text rest : List Char} {kind : Token.Kind} {literal : Option Literal}
    (h : Front text (.token kind literal) rest) : Lexeme text (.token kind literal) := by
  cases h with
  | lexeme found => exact found.lexeme

end Lexicon

namespace Scan

open Lexicon

theorem lexeme_of_mem {source : String} {token : Token} (h : token ∈ (ofSource source).tokens) :
    Lexeme token.lexeme.toList (.token token.kind token.literal) := by
  obtain ⟨piece, hpiece, literal, hshape, heq⟩ := exists_piece_of_token h
  obtain ⟨before, rest, -, -, hfront⟩ := exists_front_of_mem hpiece
  rw [hshape] at hfront
  rw [heq, String.toList_ofList]
  exact hfront.lexeme_of_token

/-- The lexemes of a source, with single blanks between them. -/
def respaced (source : String) : String :=
  " ".intercalate ((ofSource source).tokens.map Token.lexeme)

theorem toList_respaced (source : String) : (respaced source).toList =
    [' '].intercalate ((ofSource source).tokens.map fun token ↦ token.lexeme.toList) := by
  rw [respaced, String.toList_intercalate, List.map_map]
  rfl

/-- The lexemes of any source, with single blanks between them, are scanned without a fault to the
same tokens but for their places. -/
theorem ofSource_spaced (source : String) :
    (ofSource (respaced source)).faults = [] ∧
      (ofSource (respaced source)).stream.map Token.content =
        (ofSource source).tokens.map Token.content ++ [⟨.eof, "", none⟩] := by
  obtain ⟨found, hreads, hcontents⟩ := exists_reads_spaced .origin fun token htoken ↦
    lexeme_of_mem htoken
  rw [← toList_respaced] at hreads
  obtain ⟨htokens, hfaults⟩ := hreads.eq_pieces
  have hstream : found = (ofSource (respaced source)).stream := htokens
  refine ⟨hfaults.symm, ?_⟩
  rw [← hstream, hcontents]

end Scan

end LoxLang
