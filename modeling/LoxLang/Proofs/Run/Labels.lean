import LoxLang.Proofs.Run.Location

/-!
# Labels of reports

A span counts bytes and the label that a report makes of it counts characters. The characters
before a byte offset are those that start before it, so an offset inside of a character counts the
whole character, and one behind the end counts all of them. On character boundaries both ways of
counting agree: a label selects the characters that lie between the two ends of its span.
-/

namespace LoxLang

/-! ## Characters before an offset -/

namespace Text

theorem byteLength_cons (c : Char) (text : List Char) :
    byteLength (c :: text) = c.utf8Size + byteLength text := rfl

theorem byteLength_take_lt {index : Nat} {text : List Char} (h : index < text.length) :
    byteLength (text.take index) < byteLength text := by
  have hlength := byteLength_append (text.take index) (text.drop index)
  rw [List.take_append_drop] at hlength
  have hrest : byteLength (text.drop index) ≠ 0 := by
    intro hzero
    have hdropped := byteLength_eq_zero hzero
    exact absurd (List.drop_eq_nil_iff.mp hdropped) (Nat.not_le_of_lt h)
  omega

/-- As many characters are enough if they are all there are, or reach up to the offset. -/
theorem charsBefore_le_iff {offset count : Nat} {text : List Char} :
    charsBefore offset text ≤ count ↔
      text.length ≤ count ∨ offset ≤ byteLength (text.take count) := by
  fun_induction charsBefore offset text generalizing count with
  | case1 offset => simp
  | case2 c text => simp
  | case3 offset c text ih =>
    have hsize : 0 < c.utf8Size := c.utf8Size_pos
    cases count with
    | zero => simp
    | succ count =>
      rw [Nat.add_le_add_iff_right, ih, List.length_cons, List.take_succ_cons, byteLength_cons]
      omega

theorem charsBefore_reaches (offset : Nat) (text : List Char) :
    text.length ≤ charsBefore offset text ∨
      offset ≤ byteLength (text.take (charsBefore offset text)) :=
  charsBefore_le_iff.mp (Nat.le_refl _)

theorem charsBefore_le_length (offset : Nat) (text : List Char) :
    charsBefore offset text ≤ text.length :=
  charsBefore_le_iff.mpr (.inl (Nat.le_refl _))

theorem charsBefore_mono {offset later : Nat} (h : offset ≤ later) (text : List Char) :
    charsBefore offset text ≤ charsBefore later text := by
  apply charsBefore_le_iff.mpr
  exact (charsBefore_reaches later text).imp_right (Nat.le_trans h)

/-- At the end of a character all up to it are counted. -/
theorem charsBefore_byteLength (before rest : List Char) :
    charsBefore (byteLength before) (before ++ rest) = before.length := by
  apply Nat.le_antisymm
  · apply charsBefore_le_iff.mpr
    rw [List.take_left]
    exact .inr (Nat.le_refl _)
  · rcases charsBefore_reaches (byteLength before) (before ++ rest) with hall | hreach
    · rw [List.length_append] at hall
      exact Nat.le_trans (Nat.le_add_right _ _) hall
    · apply Nat.le_of_not_lt
      intro hless
      rw [List.take_append_of_le_length (Nat.le_of_lt hless)] at hreach
      exact Nat.not_le_of_lt (byteLength_take_lt hless) hreach

/-- An offset behind the end is taken for the end. -/
theorem charsBefore_min (offset : Nat) (text : List Char) :
    charsBefore (min offset (byteLength text)) text = charsBefore offset text := by
  rcases Nat.le_total offset (byteLength text) with hle | hle
  · rw [Nat.min_eq_left hle]
  · have hall := charsBefore_byteLength text []
    rw [List.append_nil] at hall
    rw [Nat.min_eq_right hle]
    apply Nat.le_antisymm (charsBefore_mono hle text)
    rw [hall]
    exact charsBefore_le_length offset text

end Text

/-! ## Positions of a string -/

/-- The span reaches from one position of the source to another. -/
structure Span.Reaches (span : Span) {source : String} (start stop : source.Pos) : Prop where
  ordered : start ≤ stop
  start_eq : span.start = start.offset.byteIdx
  stop_eq : span.stop = stop.offset.byteIdx

section

variable {source : String}

/-- What is cut out between two positions of a string, with what stands around it. -/
theorem exists_splits {start stop : source.Pos} (h : start ≤ stop) :
    ∃ before rest, start.Splits before (source.extract start stop ++ rest) ∧
      stop.Splits (before ++ source.extract start stop) rest := by
  rw [String.extract_eq_copy_slice start stop h]
  exact String.copy_slice_eq_iff_splits.mp ⟨h, rfl⟩

theorem charsBefore_of_splits {position : source.Pos} {before rest : String}
    (h : position.Splits before rest) :
    Text.charsBefore position.offset.byteIdx source.toList = before.toList.length := by
  rw [h.offset_eq_rawEndPos, h.eq_append, String.toList_append, String.byteIdx_rawEndPos,
    ← Text.byteLength_toList]
  exact Text.charsBefore_byteLength _ _

theorem extract_charsBefore {start stop : source.Pos} (h : start ≤ stop) :
    source.toList.extract (Text.charsBefore start.offset.byteIdx source.toList)
      (Text.charsBefore stop.offset.byteIdx source.toList) =
        (source.extract start stop).toList := by
  obtain ⟨before, rest, hstart, hstop⟩ := exists_splits h
  have hsource := congrArg String.toList hstart.eq_append
  rw [charsBefore_of_splits hstart, charsBefore_of_splits hstop]
  generalize source.extract start stop = text at *
  simp only [String.toList_append] at hsource ⊢
  rw [hsource, List.extract_eq_take_drop]
  simp

/-- The end of the first characters of a source is a position in it. -/
theorem exists_pos {before rest : List Char} (h : source.toList = before ++ rest) :
    ∃ position : source.Pos, position.offset.byteIdx = Text.byteLength before := by
  have hvalid : String.Pos.Raw.IsValid source (String.ofList before).rawEndPos := by
    apply String.Pos.Raw.isValid_iff_exists_append.mpr
    refine ⟨String.ofList before, String.ofList rest, ?_, rfl⟩
    rw [← String.ofList_append, ← h, String.ofList_toList]
  refine ⟨⟨_, hvalid⟩, ?_⟩
  rw [String.byteIdx_rawEndPos, ← Text.byteLength_toList, String.toList_ofList]

theorem Span.Placed.exists_reaches {span : Span} (h : span.Placed source.toList) :
    ∃ start stop : source.Pos, span.Reaches start stop := by
  obtain ⟨text, before, rest, hsource, hstart, hstop, -⟩ := h
  obtain ⟨start, hstartPos⟩ := exists_pos hsource
  obtain ⟨stop, hstopPos⟩ := exists_pos (hsource.trans (List.append_assoc _ _ _).symm)
  refine ⟨start, stop, ?_, hstart.trans hstartPos.symm, hstop.trans hstopPos.symm⟩
  rw [String.Pos.le_iff, String.Pos.Raw.le_iff, hstartPos, hstopPos, Text.byteLength_append]
  exact Nat.le_add_right _ _

end

/-! ## Labels -/

namespace Report

theorem label_start_le_stop (source : List Char) (span : Span) :
    (label source span).start ≤ (label source span).stop :=
  Nat.le_max_right _ _

theorem label_stop_le_length (source : List Char) (span : Span) :
    (label source span).stop ≤ source.length :=
  Nat.max_le.mpr ⟨Text.charsBefore_le_length _ _, Text.charsBefore_le_length _ _⟩

/-- The end of a label needs no care if the span has its end behind its start. -/
theorem label_stop {source : List Char} {span : Span} (h : span.start ≤ span.stop) :
    (label source span).stop = Text.charsBefore span.stop source :=
  Nat.max_eq_left (Text.charsBefore_mono h source)

/-- The label of a span between two positions of a source selects the characters between them, and
the span of every fault of a unit is of this kind. Whatever the offsets, in the source or not, more
characters are counted before the greater one and never more than there are, so that a label is
always in order and inside of its source. -/
theorem label_selects_span (source : String) :
    (∀ (span : Span) (start stop : source.Pos), span.Reaches start stop →
      source.toList.extract (Text.charsBefore span.start source.toList)
          (Text.charsBefore span.stop source.toList) = (source.extract start stop).toList ∧
      label source.toList span = ⟨Text.charsBefore span.start source.toList,
        Text.charsBefore span.stop source.toList⟩) ∧
    (∀ rounds machine faults after, run rounds source [] machine = some (faults, after) ∨
        runLine rounds source machine = some (faults, after) →
      ∀ fault ∈ faults, ∃ start stop : source.Pos, fault.span.Reaches start stop) ∧
    (∀ offset later, offset ≤ later →
      Text.charsBefore offset source.toList ≤ Text.charsBefore later source.toList) ∧
    (∀ offset, Text.charsBefore offset source.toList ≤ source.length ∧
      Text.charsBefore offset source.toList =
        Text.charsBefore (min offset source.utf8ByteSize) source.toList) ∧
    ∀ span, (label source.toList span).start ≤ (label source.toList span).stop ∧
      (label source.toList span).stop ≤ source.length := by
  refine ⟨fun span start stop h ↦ ?_, fun rounds machine faults after h fault hfault ↦ ?_,
    fun offset later h ↦ Text.charsBefore_mono h _, fun offset ↦ ?_, fun span ↦ ?_⟩
  · have hordered : span.start ≤ span.stop := by
      rw [h.start_eq, h.stop_eq]
      exact h.ordered
    constructor
    · rw [h.start_eq, h.stop_eq]
      exact extract_charsBefore h.ordered
    · rw [← label_stop hordered]
      rfl
  · rcases h with hrun | hline
    · exact (located_of_run hrun fault hfault).placed.exists_reaches
    · exact (located_of_runLine hline fault hfault).placed.exists_reaches
  · rw [← Text.byteLength_toList, Text.charsBefore_min, ← String.length_toList]
    exact ⟨Text.charsBefore_le_length _ _, rfl⟩
  · rw [← String.length_toList]
    exact ⟨label_start_le_stop _ _, label_stop_le_length _ _⟩

theorem label_selects_span_euro :
    (run 1 "// é\n€" [] {}).map Prod.fst =
      some [⟨⟨6, 9, 2⟩, .unspecified, .unexpectedCharacter '€'⟩] ∧
    label "// é\n€".toList ⟨6, 9, 2⟩ = ⟨5, 6⟩ ∧
    ∃ start stop : "// é\n€".Pos, Span.Reaches ⟨6, 9, 2⟩ start stop ∧
      ("// é\n€".extract start stop).toList = ['€'] := by
  have hrun : (run 1 "// é\n€" [] {}).map Prod.fst =
      some [⟨⟨6, 9, 2⟩, .unspecified, .unexpectedCharacter '€'⟩] := by decide +kernel
  obtain ⟨⟨faults, after⟩, hsome, rfl⟩ := Option.map_eq_some_iff.mp hrun
  obtain ⟨hselects, hreaches, -⟩ := label_selects_span "// é\n€"
  obtain ⟨start, stop, hspan⟩ := hreaches 1 {} _ after (.inl hsome) _ List.mem_cons_self
  obtain ⟨hchars, hlabel⟩ := hselects _ start stop hspan
  exact ⟨hrun, hlabel.trans (by decide +kernel), start, stop, hspan,
    hchars.symm.trans (by decide +kernel)⟩

end Report

end LoxLang
