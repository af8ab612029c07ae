import LoxLang.Proofs.Scan.Placement

/-!
# Scanning across line breaks

No match but that of a string reaches over a line break. So a source that leaves no string open
is scanned in front of a line break as it is at the end of the input, and behind the line break
scanning starts afresh: what it finds there is what it would find in a source of its own, at
places that are shifted by what comes before.
-/

namespace LoxLang

/-! ## Shifted places -/

/-- The same stretch, the given numbers of bytes and lines further on. -/
def Span.shift (offset lines : Nat) (span : Span) : Span :=
  ⟨span.start + offset, span.stop + offset, span.line + lines⟩

theorem Span.shift_cover (offset lines : Nat) (first second : Span) :
    (first.cover second).shift offset lines =
      (first.shift offset lines).cover (second.shift offset lines) := by
  simp only [shift, cover, Nat.add_min_add_right, Nat.add_max_add_right]

def Token.shift (offset lines : Nat) (token : Token) : Token :=
  { token with span := token.span.shift offset lines }

def Fault.shift (offset lines : Nat) (fault : Fault) : Fault :=
  { fault with span := fault.span.shift offset lines }

namespace Cursor

def shift (offset lines : Nat) (cursor : Cursor) : Cursor :=
  ⟨cursor.offset + offset, cursor.line + lines⟩

theorem after_origin (text : List Char) :
    origin.after text = origin.shift (Text.byteLength text) (text.count '\n') := rfl

theorem after_shift (offset lines : Nat) (cursor : Cursor) (text : List Char) :
    (cursor.shift offset lines).after text = (cursor.after text).shift offset lines := by
  simp only [shift, after, Nat.add_right_comm]

theorem spanOf_shift (offset lines : Nat) (cursor : Cursor) (text : List Char) :
    (cursor.shift offset lines).spanOf text = (cursor.spanOf text).shift offset lines := by
  simp only [shift, spanOf, Span.shift, Nat.add_right_comm]

end Cursor

namespace Scan

namespace Piece

def shift (offset lines : Nat) (piece : Piece) : Piece :=
  { piece with start := piece.start.shift offset lines }

theorem token?_shift (offset lines : Nat) (piece : Piece) :
    (piece.shift offset lines).token? = piece.token?.map (Token.shift offset lines) := by
  obtain ⟨start, text, shape⟩ := piece
  cases shape with
  | token kind literal =>
    simp only [token?, shift, span, Cursor.spanOf_shift, Option.map_some]
    rfl
  | skipped => rfl
  | bad issue => rfl

theorem fault?_shift (offset lines : Nat) (piece : Piece) :
    (piece.shift offset lines).fault? = piece.fault?.map (Fault.shift offset lines) := by
  obtain ⟨start, text, shape⟩ := piece
  cases shape with
  | bad issue =>
    simp only [fault?, shift, span, Cursor.spanOf_shift, Option.map_some]
    rfl
  | skipped => rfl
  | token kind literal => rfl

end Piece

/-- Where a source starts has no bearing on how it is cut. -/
theorem pieces_shift (offset lines : Nat) (start : Cursor) (input : List Char) :
    pieces (start.shift offset lines) input = (pieces start input).map (Piece.shift offset lines) := by
  fun_induction pieces start input with
  | case1 => rw [pieces, List.map_nil]
  | case2 start first input found text ih =>
    rw [pieces, List.map_cons, ← ih, ← Cursor.after_shift]
    rfl

theorem tokens_shift (offset lines : Nat) (start : Cursor) (input : List Char) :
    (pieces (start.shift offset lines) input).filterMap Piece.token? =
      ((pieces start input).filterMap Piece.token?).map (Token.shift offset lines) := by
  rw [pieces_shift, List.filterMap_map, List.map_filterMap]
  congr 1
  funext piece
  exact piece.token?_shift offset lines

theorem faults_shift (offset lines : Nat) (start : Cursor) (input : List Char) :
    (pieces (start.shift offset lines) input).filterMap Piece.fault? =
      ((pieces start input).filterMap Piece.fault?).map (Fault.shift offset lines) := by
  rw [pieces_shift, List.filterMap_map, List.map_filterMap]
  congr 1
  funext piece
  exact piece.fault?_shift offset lines

/-! ## Matches before a line break -/

/-- The same match with more text behind what follows it. -/
def Match.before (found : Match) (behind : List Char) : Match :=
  { found with rest := found.rest ++ behind }

/-- A run of characters that ends within the text, or right behind it, is not changed by what
follows the text. -/
theorem run_append {p : Char → Bool} (text behind : List Char)
    (h : text.dropWhile p ≠ [] ∨ behind.takeWhile p = []) :
    (text ++ behind).takeWhile p = text.takeWhile p ∧
      (text ++ behind).dropWhile p = text.dropWhile p ++ behind := by
  induction text with
  | nil =>
    have hnone : behind.takeWhile p = [] := h.resolve_left fun hne ↦ hne rfl
    have hall := List.takeWhile_append_dropWhile (p := p) (l := behind)
    rw [hnone, List.nil_append] at hall
    exact ⟨hnone, hall⟩
  | cons c rest ih =>
    cases hc : p c with
    | true =>
      simp only [List.cons_append, List.takeWhile_cons, List.dropWhile_cons, hc, if_true] at h ⊢
      obtain ⟨htake, hdrop⟩ := ih h
      exact ⟨congrArg (c :: ·) htake, hdrop⟩
    | false => simp [hc]

theorem withEqual_before (short long : Token.Kind) (input behind : List Char) :
    withEqual short long (input ++ '\n' :: behind) =
      (withEqual short long input).before ('\n' :: behind) := by
  cases input with
  | nil => rfl
  | cons c rest =>
    by_cases hc : c = '='
    · subst hc
      rfl
    · rw [withEqual.eq_2 short long (c :: rest) (by simp [hc]), List.cons_append,
        withEqual.eq_2 short long _ (by simp [hc])]
      rfl

theorem slash_before (input behind : List Char) :
    slash (input ++ '\n' :: behind) = (slash input).before ('\n' :: behind) := by
  cases input with
  | nil => rfl
  | cons c rest =>
    by_cases hc : c = '/'
    · subst hc
      obtain ⟨htake, hdrop⟩ := run_append (p := (· ≠ '\n')) rest ('\n' :: behind) (.inr rfl)
      simp only [List.cons_append, slash, htake, hdrop]
      rfl
    · rw [slash.eq_2 (c :: rest) (by simp [hc]), List.cons_append, slash.eq_2 _ (by simp [hc])]
      rfl

/-- A string that is closed stays as it is. -/
theorem string_before {input : List Char} (behind : List Char)
    (h : (string input).shape ≠ .bad .unterminatedString) :
    string (input ++ behind) = (string input).before behind := by
  have hclosed : input.dropWhile (· ≠ '"') ≠ [] := by
    intro hopen
    apply h
    simp only [string, hopen]
  obtain ⟨htake, hdrop⟩ := run_append input behind (.inl hclosed)
  obtain ⟨quote, rest, hquote⟩ := List.exists_cons_of_ne_nil hclosed
  simp only [string, htake, hdrop, hquote, List.cons_append]
  rfl

theorem number_before (first : Char) (input behind : List Char) :
    number first (input ++ '\n' :: behind) = (number first input).before ('\n' :: behind) := by
  obtain ⟨htake, hdrop⟩ := run_append (p := isDigit) input ('\n' :: behind) (.inr rfl)
  simp only [number, htake, hdrop]
  generalize input.dropWhile isDigit = rest
  -- A point with nothing behind it now has the line break behind it, which is no digit.
  match rest with
  | [] => rfl
  | [c] =>
    by_cases hc : c = '.'
    · subst hc
      rfl
    · simp [hc, Match.before]
  | c :: digit :: rest =>
    by_cases hc : c = '.'
    · subst hc
      cases hdigit : isDigit digit with
      | true =>
        obtain ⟨hmore, hbehind⟩ := run_append (p := isDigit) rest ('\n' :: behind) (.inr rfl)
        simp only [List.cons_append, hdigit, if_true, hmore, hbehind]
        rfl
      | false => simp [hdigit, Match.before]
    · simp [hc, Match.before]

theorem word_before (first : Char) (input behind : List Char) :
    word first (input ++ '\n' :: behind) = (word first input).before ('\n' :: behind) := by
  obtain ⟨htake, hdrop⟩ := run_append (p := isWordChar) input ('\n' :: behind) (.inr rfl)
  simp only [word, htake, hdrop]
  rfl

/-- Every match but that of an open string ends before a line break. -/
theorem munch_before (first : Char) (input behind : List Char)
    (h : (munch first input).shape ≠ .bad .unterminatedString) :
    munch first (input ++ '\n' :: behind) = (munch first input).before ('\n' :: behind) := by
  unfold munch at h ⊢
  split at h <;> try rfl
  · exact withEqual_before ..
  · exact withEqual_before ..
  · exact withEqual_before ..
  · exact withEqual_before ..
  · exact slash_before ..
  · exact string_before _ h
  · split
    · exact number_before ..
    · split
      · exact word_before ..
      · rfl

theorem pieces_seam (start : Cursor) (first second : List Char)
    (h : ∀ piece ∈ pieces start first, piece.shape ≠ .bad .unterminatedString) :
    pieces start (first ++ '\n' :: second) =
      pieces start first ++ ⟨start.after first, ['\n'], .skipped⟩ ::
        pieces (start.after (first ++ ['\n'])) second := by
  fun_induction pieces start first with
  | case1 start =>
    rw [List.nil_append, pieces]
    rfl
  | case2 start c input found text ih =>
    obtain ⟨hfirst, hothers⟩ := List.forall_mem_cons.mp h
    have hmunch : munch c (input ++ '\n' :: second) = found.before ('\n' :: second) :=
      munch_before c input second hfirst
    have htext : c :: input = text ++ found.rest := (munch_append c input).symm
    calc
      pieces start (c :: input ++ '\n' :: second) =
          ⟨start, text, found.shape⟩ ::
            pieces (start.after text) (found.rest ++ '\n' :: second) := by
        rw [List.cons_append, pieces, hmunch]
        rfl
      _ = ⟨start, text, found.shape⟩ :: (pieces (start.after text) found.rest ++
          ⟨start.after (c :: input), ['\n'], .skipped⟩ ::
            pieces (start.after (c :: input ++ ['\n'])) second) := by
        rw [ih hothers, Cursor.after_append, Cursor.after_append, htext, List.append_assoc]

/-- The parts before and behind a line break are scanned each by itself, the second one at a
place that the first determines. -/
theorem ofChars_seam (first second : List Char)
    (h : ∀ fault ∈ (ofChars first).faults, fault.issue ≠ .unterminatedString) :
    let offset := Text.byteLength first + 1
    let lines := first.count '\n' + 1
    ofChars (first ++ '\n' :: second) =
      ⟨(ofChars first).tokens ++ (ofChars second).tokens.map (Token.shift offset lines),
        (ofChars second).stop.shift offset lines,
        (ofChars first).faults ++ (ofChars second).faults.map (Fault.shift offset lines)⟩ := by
  intro offset lines
  have hclosed : ∀ piece ∈ pieces .origin first, piece.shape ≠ .bad .unterminatedString := by
    intro piece hpiece hshape
    have hfault : piece.fault? = some (.plain piece.span .unterminatedString) := by
      rw [Piece.fault?, hshape]
    exact h _ (List.mem_filterMap.mpr ⟨piece, hpiece, hfault⟩) rfl
  have hstart : Cursor.origin.after (first ++ ['\n']) = Cursor.origin.shift offset lines := by
    rw [Cursor.after_origin, Text.byteLength_append, List.count_append]
    rfl
  have hstop : Cursor.origin.after (first ++ '\n' :: second) =
      (Cursor.origin.after second).shift offset lines := by
    rw [← Cursor.after_shift, ← hstart, Cursor.after_append, List.append_assoc,
      List.singleton_append]
  simp only [ofChars, pieces_seam _ _ _ hclosed, hstart, hstop, List.filterMap_append,
    ← tokens_shift, ← faults_shift]
  rfl

/-- The tokens and faults of a source in which no string is left open are those that it has with a
line break and any other source behind it, and then come those of the other source, as many bytes
and lines further on as the first one and the line break have. -/
theorem ofSource_seam (first second : String)
    (h : ∀ fault ∈ (ofSource first).faults, fault.message ≠ "Unterminated string.") :
    let whole := ofSource (first ++ "\n" ++ second)
    let offset := first.utf8ByteSize + 1
    let lines := 1 + first.toList.count '\n'
    whole.stream = (ofSource first).stream.dropLast ++
        (ofSource second).stream.map (Token.shift offset lines) ∧
      whole.faults = (ofSource first).faults ++
        (ofSource second).faults.map (Fault.shift offset lines) := by
  intro whole offset lines
  have hclosed : ∀ fault ∈ (ofSource first).faults, fault.issue ≠ .unterminatedString := by
    intro fault hfault hissue
    exact h fault hfault (congrArg Issue.message hissue)
  have hsource : (first ++ "\n" ++ second).toList = first.toList ++ '\n' :: second.toList := by
    simp
  have hwhole : whole = _ := (congrArg ofChars hsource).trans
    (ofChars_seam first.toList second.toList hclosed)
  rw [Text.byteLength_toList, Nat.add_comm (first.toList.count '\n')] at hwhole
  constructor
  · rw [hwhole, stream, stream, stream, List.dropLast_concat, List.map_append, ← List.append_assoc]
    rfl
  · rw [hwhole]
    rfl

/-- A number that would go on behind the line break, and a string that is open behind it. -/
theorem ofSource_seam_number :
    let first := "@ \"a\nb\" 1."
    let second := "5/ \"open"
    (ofSource first).faults = [.plain ⟨0, 1, 1⟩ (.unexpectedCharacter '@')] ∧
      (ofSource (first ++ "\n" ++ second)).faults =
        [.plain ⟨0, 1, 1⟩ (.unexpectedCharacter '@'), .plain ⟨14, 19, 3⟩ .unterminatedString] ∧
      (ofSource (first ++ "\n" ++ second)).stream = (ofSource first).stream.dropLast ++
        (ofSource second).stream.map (Token.shift 11 2) := by
  intro first second
  have hfirst : (ofSource first).faults = [.plain ⟨0, 1, 1⟩ (.unexpectedCharacter '@')] := by
    decide +kernel
  have hclosed : ∀ fault ∈ (ofSource first).faults, fault.message ≠ "Unterminated string." := by
    rw [hfirst]
    decide +kernel
  have hplace : first.utf8ByteSize + 1 = 11 ∧ 1 + first.toList.count '\n' = 2 := by
    decide +kernel
  obtain ⟨htokens, hfaults⟩ := ofSource_seam first second hclosed
  rw [hplace.1, hplace.2] at htokens hfaults
  refine ⟨hfirst, hfaults.trans ?_, htokens⟩
  decide +kernel

end Scan

end LoxLang
