import LoxLang.Token.Scan

/-!
# Places in a source

A span marks a stretch of a source if its two offsets are the byte lengths of what stands
before the stretch and of what stands up to its end, and its line is one more than the
number of line feeds before it. So the offsets lie on character boundaries, in order and
within the source. Tokens and faults of scanning mark the characters they were read from,
and tokens are listed in the order in which they start.
-/

namespace LoxLang

namespace Text

@[simp]
theorem byteLength_nil : byteLength [] = 0 := rfl

@[simp]
theorem byteLength_append (first second : List Char) :
    byteLength (first ++ second) = byteLength first + byteLength second := by
  induction first with
  | nil => simp
  | cons c text ih =>
    simp only [byteLength, List.cons_append, List.foldr_cons] at ih ⊢
    omega

theorem byteLength_eq_zero {text : List Char} (h : byteLength text = 0) : text = [] := by
  cases text with
  | nil => rfl
  | cons c text =>
    have hsize : 0 < c.utf8Size := c.utf8Size_pos
    simp only [byteLength, List.foldr_cons] at h
    omega

/-- The bytes that a string has itself. -/
theorem byteLength_toList (text : String) : byteLength text.toList = text.utf8ByteSize := by
  have hchars (chars : List Char) : byteLength chars = (String.ofList chars).utf8ByteSize := by
    induction chars with
    | nil => rfl
    | cons c rest ih =>
      rw [String.ofList_cons, String.utf8ByteSize_append, String.utf8ByteSize_singleton, ← ih]
      rfl
  rw [hchars, String.ofList_toList]

/-- Of two stretches at the front of a text, the longer one goes on from the shorter. -/
theorem exists_eq_append {short rest long more : List Char} (h : short ++ rest = long ++ more)
    (hle : byteLength short ≤ byteLength long) : ∃ middle, long = short ++ middle := by
  rcases List.append_eq_append_iff.mp h with ⟨middle, hlong, -⟩ | ⟨middle, hshort, -⟩
  · exact ⟨middle, hlong⟩
  · rw [hshort, byteLength_append] at hle
    have hmiddle : middle = [] := byteLength_eq_zero (by omega)
    exact ⟨[], by simp [hshort, hmiddle]⟩

end Text

namespace Span

/-- The span marks the given characters, at one of the places where they stand in the
source. -/
def Marks (source : List Char) (span : Span) (text : List Char) : Prop :=
  ∃ before rest, source = before ++ (text ++ rest) ∧ span.start = Text.byteLength before ∧
    span.stop = Text.byteLength (before ++ text) ∧ span.line = 1 + before.count '\n'

/-- The span marks a stretch of the source. -/
def Placed (source : List Char) (span : Span) : Prop := ∃ text, span.Marks source text

/-- From the start of one stretch to the end of another that does not start before it. -/
theorem Placed.cover {source : List Char} {first second : Span} (hfirst : first.Placed source)
    (hsecond : second.Placed source) (h : first.start ≤ second.start) :
    (first.cover second).Placed source := by
  obtain ⟨text, before, rest, hsource, hstart, hstop, hline⟩ := hfirst
  obtain ⟨otherText, otherBefore, otherRest, hotherSource, hotherStart, hotherStop, -⟩ := hsecond
  have hcoverStart : (first.cover second).start = Text.byteLength before := by
    rw [Span.cover, Nat.min_eq_left h, hstart]
  rcases Nat.le_total first.stop second.stop with hle | hle
  · have hcut : before ++ (text ++ rest) = (otherBefore ++ otherText) ++ otherRest := by
      rw [← hsource, hotherSource, List.append_assoc]
    have hshorter : Text.byteLength before ≤ Text.byteLength (otherBefore ++ otherText) := by
      rw [Text.byteLength_append]
      omega
    obtain ⟨middle, hmiddle⟩ := Text.exists_eq_append hcut hshorter
    refine ⟨middle, before, otherRest, ?_, hcoverStart, ?_, hline⟩
    · rw [hsource, hcut, hmiddle, List.append_assoc]
    · rw [Span.cover, Nat.max_eq_right hle, hotherStop, hmiddle]
  · refine ⟨text, before, rest, hsource, hcoverStart, ?_, hline⟩
    rw [Span.cover, Nat.max_eq_left hle, hstop]

theorem cover_start {first second : Span} (h : first.start ≤ second.start) :
    (first.cover second).start = first.start :=
  Nat.min_eq_left h

theorem Placed.start_le_length {source : List Char} {span : Span} (h : span.Placed source) :
    span.start ≤ Text.byteLength source := by
  obtain ⟨text, before, rest, hsource, hstart, -⟩ := h
  rw [hstart, hsource, Text.byteLength_append]
  exact Nat.le_add_right _ _

end Span

/-! ## Pieces of a source -/

namespace Cursor

/-- The cursor stands behind the given front of a source. -/
theorem marks_spanOf {source before text rest : List Char} (h : source = before ++ (text ++ rest)) :
    ((Cursor.origin.after before).spanOf text).Marks source text := by
  refine ⟨before, rest, h, ?_, ?_, rfl⟩
  · simp [spanOf, after, origin]
  · simp [spanOf, after, origin]

theorem after_append (cursor : Cursor) (first second : List Char) :
    (cursor.after first).after second = cursor.after (first ++ second) := by
  simp [after, Nat.add_assoc]

theorem offset_le_after (cursor : Cursor) (text : List Char) :
    cursor.offset ≤ (cursor.after text).offset :=
  Nat.le_add_right _ _

end Cursor

namespace Scan

/-- The pieces mark their characters, and are listed in the order in which they start. -/
structure Laid (source : List Char) (start : Nat) (pieces : List Piece) : Prop where
  marks : ∀ piece ∈ pieces, piece.span.Marks source piece.text
  sorted : pieces.Pairwise fun piece other ↦ piece.start.offset ≤ other.start.offset
  start_le : ∀ piece ∈ pieces, start ≤ piece.start.offset

theorem Laid.cons {source : List Char} {start : Nat} {others : List Piece} (piece : Piece)
    (hpiece : piece.span.Marks source piece.text) (h : Laid source start others)
    (hle : piece.start.offset ≤ start) : Laid source piece.start.offset (piece :: others) := by
  have hothers : ∀ other ∈ others, piece.start.offset ≤ other.start.offset :=
    fun other hother ↦ Nat.le_trans hle (h.start_le other hother)
  constructor
  · exact List.forall_mem_cons.mpr ⟨hpiece, h.marks⟩
  · exact List.pairwise_cons.mpr ⟨hothers, h.sorted⟩
  · exact List.forall_mem_cons.mpr ⟨Nat.le_refl _, hothers⟩

/-- The characters of a match and what follows it are what it was found in. -/
theorem munch_append (first : Char) (input : List Char) :
    (first :: (munch first input).more) ++ (munch first input).rest = first :: input := by
  rw [List.cons_append, munch_partition]

theorem laid_pieces {source : List Char} (start : Cursor) (before input : List Char)
    (hstart : start = Cursor.origin.after before) (hsource : source = before ++ input) :
    Laid source start.offset (pieces start input) := by
  fun_induction pieces start input generalizing before with
  | case1 start => exact ⟨by simp, List.Pairwise.nil, by simp⟩
  | case2 start first input found text ih =>
    have hcut : text ++ found.rest = first :: input := munch_append first input
    have hlonger : source = (before ++ text) ++ found.rest := by
      rw [hsource, List.append_assoc, hcut]
    have hnext : start.after text = Cursor.origin.after (before ++ text) := by
      rw [hstart, Cursor.after_append]
    have hpiece : (start.spanOf text).Marks source text := by
      rw [hstart]
      exact Cursor.marks_spanOf (hlonger.trans (List.append_assoc _ _ _))
    have hothers := ih (before ++ text) hnext hlonger
    exact Laid.cons ⟨start, text, found.shape⟩ hpiece hothers (start.offset_le_after text)

theorem laid_pieces_origin (source : List Char) : Laid source 0 (pieces .origin source) :=
  laid_pieces .origin [] source rfl rfl

/-! ## Tokens -/

/-- The tokens mark their lexemes, none starts before the given offset of the source, and they
are listed in the order in which they start. -/
structure Stands (source : List Char) (start : Nat) (tokens : List Token) : Prop where
  start_le_length : start ≤ Text.byteLength source
  marks : ∀ token ∈ tokens, token.span.Marks source token.lexeme.toList
  sorted : tokens.Pairwise fun token other ↦ token.span.start ≤ other.span.start
  start_le : ∀ token ∈ tokens, start ≤ token.span.start

namespace Stands

variable {source : List Char} {start : Nat} {token : Token} {tokens rest : List Token}

theorem placed (h : Stands source start tokens) (htoken : token ∈ tokens) :
    token.span.Placed source :=
  ⟨token.lexeme.toList, h.marks token htoken⟩

/-- What follows a token does not start before it. -/
theorem tail (h : Stands source start (token :: rest)) :
    Stands source token.span.start rest where
  start_le_length := (h.placed List.mem_cons_self).start_le_length
  marks := fun other hother ↦ h.marks other (List.mem_cons_of_mem token hother)
  sorted := (List.pairwise_cons.mp h.sorted).2
  start_le := (List.pairwise_cons.mp h.sorted).1

theorem mono {earlier : Nat} (h : Stands source start tokens) (hle : earlier ≤ start) :
    Stands source earlier tokens where
  start_le_length := Nat.le_trans hle h.start_le_length
  marks := h.marks
  sorted := h.sorted
  start_le := fun token htoken ↦ Nat.le_trans hle (h.start_le token htoken)

theorem suffix (h : Stands source start tokens) (hrest : rest <:+ tokens) :
    Stands source start rest where
  start_le_length := h.start_le_length
  marks := fun token htoken ↦ h.marks token (hrest.subset htoken)
  sorted := h.sorted.sublist hrest.sublist
  start_le := fun token htoken ↦ h.start_le token (hrest.subset htoken)

end Stands

theorem Piece.token?_eq_some {piece : Piece} {token : Token} (h : piece.token? = some token) :
    ∃ literal, piece.shape = .token token.kind literal ∧
      token = ⟨token.kind, String.ofList piece.text, literal, piece.span⟩ := by
  unfold Piece.token? at h
  split at h
  · next kind literal hshape =>
    obtain rfl := Option.some.inj h
    exact ⟨literal, hshape, rfl⟩
  · cases h

theorem Laid.stands {source : List Char} {found : List Piece} (h : Laid source 0 found) :
    Stands source 0 (found.filterMap Piece.token?) := by
  constructor
  · exact Nat.zero_le _
  · intro token htoken
    obtain ⟨piece, hpiece, hsome⟩ := List.mem_filterMap.mp htoken
    obtain ⟨literal, -, heq⟩ := Piece.token?_eq_some hsome
    rw [heq, String.toList_ofList]
    exact h.marks piece hpiece
  · refine List.pairwise_filterMap.mpr (h.sorted.imp ?_)
    intro piece other hle token htoken otherToken hother
    obtain ⟨literal, -, heq⟩ := Piece.token?_eq_some htoken
    obtain ⟨otherLiteral, -, hotherEq⟩ := Piece.token?_eq_some hother
    rw [heq, hotherEq]
    exact hle
  · intro token htoken
    obtain ⟨piece, hpiece, hsome⟩ := List.mem_filterMap.mp htoken
    obtain ⟨literal, -, heq⟩ := Piece.token?_eq_some hsome
    rw [heq]
    exact h.start_le piece hpiece

theorem stands_ofSource (source : String) :
    Stands source.toList 0 (Scan.ofSource source).tokens :=
  (laid_pieces_origin source.toList).stands

/-- The mark at the end stands behind the last character. -/
theorem marks_endMark (source : String) :
    (Scan.ofSource source).endMark.span.Marks source.toList [] :=
  Cursor.marks_spanOf (List.append_nil _).symm

theorem mem_faults {source : String} {fault : Fault} (h : fault ∈ (Scan.ofSource source).faults) :
    ∃ span issue, fault = .plain span issue ∧ span.Placed source.toList := by
  obtain ⟨piece, hpiece, hsome⟩ := List.mem_filterMap.mp h
  unfold Piece.fault? at hsome
  split at hsome
  · next issue _ =>
    have hmarks := (laid_pieces_origin source.toList).marks piece hpiece
    exact ⟨piece.span, issue, (Option.some.inj hsome).symm, piece.text, hmarks⟩
  · cases hsome

/-! ## No token is an end mark -/

theorem ofWord_ne_eof (word : String) : Token.Kind.ofWord word ≠ .eof := by
  have hlisted : ∀ entry ∈ Token.Kind.keywords, entry.2 ≠ .eof := by decide
  unfold Token.Kind.ofWord
  cases hlookup : Token.Kind.keywords.lookup word with
  | none => simp
  | some kind =>
    obtain ⟨before, after, hkeywords, -⟩ := List.lookup_eq_some_iff.mp hlookup
    exact hlisted (word, kind) (by simp [hkeywords])

theorem munch_shape_ne_eof (first : Char) (input : List Char) (literal : Option Literal) :
    (munch first input).shape ≠ .token .eof literal := by
  have hwithEqual {short long : Token.Kind} (hshort : short ≠ .eof) (hlong : long ≠ .eof) :
      (withEqual short long input).shape ≠ .token .eof literal := by
    unfold withEqual
    split <;> simp [one, hshort, hlong]
  unfold munch
  split <;> try simp [one]
  · exact hwithEqual (by decide) (by decide)
  · exact hwithEqual (by decide) (by decide)
  · exact hwithEqual (by decide) (by decide)
  · exact hwithEqual (by decide) (by decide)
  · unfold slash
    split <;> simp [one]
  · unfold string
    split <;> simp
  · split
    · unfold number
      split
      · split <;> simp
      · simp
    · split
      · simp [word, ofWord_ne_eof]
      · simp

theorem pieces_shape_ne_eof (start : Cursor) (input : List Char) (literal : Option Literal) :
    ∀ piece ∈ pieces start input, piece.shape ≠ .token .eof literal := by
  fun_induction pieces start input with
  | case1 => simp
  | case2 start first input found text ih =>
    exact List.forall_mem_cons.mpr ⟨munch_shape_ne_eof first input literal, ih⟩

theorem kind_ne_eof {source : String} {token : Token} (h : token ∈ (Scan.ofSource source).tokens) :
    token.kind ≠ .eof := by
  obtain ⟨piece, hpiece, hsome⟩ := List.mem_filterMap.mp h
  obtain ⟨literal, hshape, -⟩ := Piece.token?_eq_some hsome
  intro heof
  rw [heof] at hshape
  exact pieces_shape_ne_eof _ _ literal piece hpiece hshape

end Scan

end LoxLang
