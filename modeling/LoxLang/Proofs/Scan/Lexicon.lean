import LoxLang.Proofs.Scan.Placement

/-!
# The lexical grammar

The lexemes of the language are given class by class, without regard to how they are found. A
source is read from left to right, each time by the longest lexeme that stands at the front of
what is left. Where none does, a character is passed over as unexpected, or, if it is a quote, the
rest of the source is an open string.

The matches of the scanner are these longest lexemes, and so its tokens and faults are those of
such a reading, of which there is exactly one for every source.
-/

namespace LoxLang

/-! ## Lexemes -/

namespace Lexicon

open Scan

/-- Punctuation and operators of one character. -/
def symbols : List (Char × Token.Kind) :=
  [('(', .leftParen), (')', .rightParen), ('{', .leftBrace), ('}', .rightBrace), (',', .comma),
    ('.', .dot), ('-', .minus), ('+', .plus), (';', .semicolon), ('*', .star), ('/', .slash),
    ('!', .bang), ('=', .equal), ('<', .less), ('>', .greater)]

/-- The first characters of the operators of two, of which the second is `=`. -/
def compounds : List (Char × Token.Kind) :=
  [('!', .bangEqual), ('=', .equalEqual), ('<', .lessEqual), ('>', .greaterEqual)]

def blanks : List Char := [' ', '\r', '\t', '\n']

def digits : List Char := "0123456789".toList

/-- The characters that a word can start with. -/
def letters : List Char := "_abcdefghijklmnopqrstuvwxyzABCDEFGHIJKLMNOPQRSTUVWXYZ".toList

/-- The words that have a meaning of their own. -/
def keywords : List (String × Token.Kind) :=
  [("and", .kwAnd), ("class", .kwClass), ("else", .kwElse), ("false", .kwFalse), ("for", .kwFor),
    ("fun", .kwFun), ("if", .kwIf), ("nil", .kwNil), ("or", .kwOr), ("print", .kwPrint),
    ("return", .kwReturn), ("super", .kwSuper), ("this", .kwThis), ("true", .kwTrue),
    ("var", .kwVar), ("while", .kwWhile)]

/-- The text is a lexeme, and the shape tells of which class. -/
inductive Lexeme : List Char → Shape → Prop where
  | symbol {c : Char} {kind : Token.Kind} (listed : (c, kind) ∈ symbols) :
    Lexeme [c] (.token kind none)
  | compound {c : Char} {kind : Token.Kind} (listed : (c, kind) ∈ compounds) :
    Lexeme [c, '='] (.token kind none)
  | keyword {text : String} {kind : Token.Kind} (listed : (text, kind) ∈ keywords) :
    Lexeme text.toList (.token kind none)
  | identifier {first : Char} {more : List Char} (letter : first ∈ letters)
    (word : ∀ c ∈ more, c ∈ letters ∨ c ∈ digits)
    (free : String.ofList (first :: more) ∉ keywords.map Prod.fst) :
    Lexeme (first :: more) (.token .identifier none)
  | whole {text : List Char} (nonempty : text ≠ []) (all : ∀ c ∈ text, c ∈ digits) :
    Lexeme text (.token .number (some (.number (Decimal.read text []))))
  | decimal {whole fraction : List Char} (nonempty : whole ≠ []) (all : ∀ c ∈ whole, c ∈ digits)
    (behind : fraction ≠ []) (allBehind : ∀ c ∈ fraction, c ∈ digits) :
    Lexeme (whole ++ '.' :: fraction)
      (.token .number (some (.number (Decimal.read whole fraction))))
  | string {content : List Char} (closed : '"' ∉ content) :
    Lexeme ('"' :: (content ++ ['"'])) (.token .string (some (.string (String.ofList content))))
  | comment {body : List Char} (line : '\n' ∉ body) : Lexeme ('/' :: '/' :: body) .skipped
  | blank {c : Char} (listed : c ∈ blanks) : Lexeme [c] .skipped

/-- The text is the longest lexeme at the front of the input. -/
structure Longest (text : List Char) (shape : Shape) (input : List Char) : Prop where
  front : text <+: input
  lexeme : Lexeme text shape
  longest : ∀ other otherShape, Lexeme other otherShape → other <+: input →
    other.length ≤ text.length

/-- No lexeme stands at the front of the input. -/
def Blocked (input : List Char) : Prop := ∀ text shape, Lexeme text shape → ¬text <+: input

/-- The tokens, with the mark at the end, and the faults of an input that starts at a place. -/
inductive Reads : Cursor → List Char → List Token → List Fault → Prop where
  | finish {start : Cursor} : Reads start [] [.endMark (start.spanOf [])] []
  | token {start : Cursor} {text rest : List Char} {kind : Token.Kind} {literal : Option Literal}
    {tokens : List Token} {faults : List Fault}
    (found : Longest text (.token kind literal) (text ++ rest))
    (others : Reads (start.after text) rest tokens faults) :
    Reads start (text ++ rest) (⟨kind, String.ofList text, literal, start.spanOf text⟩ :: tokens)
      faults
  | skip {start : Cursor} {text rest : List Char} {tokens : List Token} {faults : List Fault}
    (found : Longest text .skipped (text ++ rest))
    (others : Reads (start.after text) rest tokens faults) :
    Reads start (text ++ rest) tokens faults
  | unexpected {start : Cursor} {c : Char} {rest : List Char} {tokens : List Token}
    {faults : List Fault} (nothing : Blocked (c :: rest)) (noQuote : c ≠ '"')
    (others : Reads (start.after [c]) rest tokens faults) :
    Reads start (c :: rest) tokens (.plain (start.spanOf [c]) (.unexpectedCharacter c) :: faults)
  | unterminated {start : Cursor} {content : List Char} (unclosed : '"' ∉ content) :
    Reads start ('"' :: content) [.endMark ((start.after ('"' :: content)).spanOf [])]
      [.plain (start.spanOf ('"' :: content)) .unterminatedString]

end Lexicon

namespace Scan

open Lexicon

/-! ## Classes of characters and words -/

/-- The characters of a range are listed if those with its numbers are. -/
theorem mem_of_range (start count : Nat) {listed : List Char}
    (h : ∀ index < count, Char.ofNat (start + index) ∈ listed) {c : Char}
    (hstart : start ≤ c.toNat) (hstop : c.toNat < start + count) : c ∈ listed := by
  have hmem := h (c.toNat - start) (by omega)
  rw [Nat.add_sub_cancel' hstart, Char.ofNat_toNat] at hmem
  exact hmem

theorem isDigit_iff {c : Char} : isDigit c ↔ c ∈ digits := by
  constructor
  · intro h
    simp only [isDigit, Bool.and_eq_true, decide_eq_true_eq, Char.le_def,
      UInt32.le_iff_toNat_le] at h
    exact mem_of_range 48 10 (by decide) h.1 (Nat.lt_succ_of_le h.2)
  · exact List.all_eq_true.mp (by decide) c

theorem all_isDigit {text : List Char} (h : ∀ c ∈ text, c ∈ digits) : ∀ c ∈ text, isDigit c :=
  fun c hc ↦ isDigit_iff.mpr (h c hc)

theorem isLetter_iff {c : Char} : isLetter c ↔ c ∈ letters := by
  constructor
  · intro h
    simp only [isLetter, Bool.or_eq_true, Bool.and_eq_true, decide_eq_true_eq, Char.le_def,
      UInt32.le_iff_toNat_le] at h
    rcases h with (hlower | hupper) | rfl
    · exact mem_of_range 97 26 (by decide) hlower.1 (Nat.lt_succ_of_le hlower.2)
    · exact mem_of_range 65 26 (by decide) hupper.1 (Nat.lt_succ_of_le hupper.2)
    · decide
  · exact List.all_eq_true.mp (by decide) c

theorem isWordChar_iff {c : Char} : isWordChar c ↔ c ∈ letters ∨ c ∈ digits := by
  rw [isWordChar, Bool.or_eq_true, isLetter_iff, isDigit_iff]

theorem isDigit_eq_false_of_isLetter {c : Char} (h : isLetter c) : isDigit c = false := by
  have hletters : letters.all fun c ↦ isDigit c = false := by decide
  exact of_decide_eq_true (List.all_eq_true.mp hletters c (isLetter_iff.mp h))

theorem ofWord_eq (word : String) :
    Token.Kind.ofWord word = (keywords.lookup word).getD .identifier := rfl

/-! ## Matches are lexemes -/

theorem munch_digit {first : Char} (h : isDigit first) (input : List Char) :
    munch first input = number first input := by
  unfold munch
  split <;> first
    | exact absurd h (by decide)
    | exact if_pos h

theorem munch_letter {first : Char} (h : isLetter first) (input : List Char) :
    munch first input = word first input := by
  have hdigit : isDigit first = false := isDigit_eq_false_of_isLetter h
  unfold munch
  split <;> first
    | exact absurd h (by decide)
    | simp only [hdigit, h, if_true, Bool.false_eq_true, if_false]

/-- The characters that a run takes in. -/
theorem of_mem_takeWhile {p : Char → Bool} {input : List Char} {c : Char}
    (h : c ∈ input.takeWhile p) : p c :=
  List.all_eq_true.mp List.all_takeWhile c h

/-- A text of characters that a run takes in, at the front of the input, is a part of the run. -/
theorem prefix_takeWhile {p : Char → Bool} {text input : List Char} (h : text <+: input)
    (hall : ∀ c ∈ text, p c) : text <+: input.takeWhile p := by
  obtain ⟨rest, rfl⟩ := h
  rw [List.takeWhile_append_of_pos hall]
  exact List.prefix_append text _

theorem ne_of_not_mem {c : Char} {text : List Char} (h : c ∉ text) :
    ∀ other ∈ text, decide (other ≠ c) := by
  intro other hother
  apply decide_eq_true
  rintro rfl
  exact h hother

theorem lexeme_withEqual {first : Char} {short long : Token.Kind} (input : List Char)
    (hshort : (first, short) ∈ symbols) (hlong : (first, long) ∈ compounds) :
    Lexeme (first :: (withEqual short long input).more) (withEqual short long input).shape := by
  unfold withEqual
  split
  · exact .compound hlong
  · exact .symbol hshort

theorem lexeme_slash (input : List Char) :
    Lexeme ('/' :: (slash input).more) (slash input).shape := by
  unfold slash
  split
  · apply Lexeme.comment
    intro hmem
    simpa using of_mem_takeWhile hmem
  · exact .symbol (by decide)

theorem lexeme_number {first : Char} (h : isDigit first) (input : List Char) :
    Lexeme (first :: (number first input).more) (number first input).shape := by
  have hwhole : ∀ c ∈ first :: input.takeWhile isDigit, c ∈ digits :=
    List.forall_mem_cons.mpr ⟨isDigit_iff.mp h, fun _ hc ↦ isDigit_iff.mp (of_mem_takeWhile hc)⟩
  unfold number
  split
  · next digit rest _ =>
    split
    · next hdigit =>
      have hfraction : ∀ c ∈ digit :: rest.takeWhile isDigit, c ∈ digits :=
        List.forall_mem_cons.mpr
          ⟨isDigit_iff.mp hdigit, fun _ hc ↦ isDigit_iff.mp (of_mem_takeWhile hc)⟩
      exact .decimal (List.cons_ne_nil _ _) hwhole (List.cons_ne_nil _ _) hfraction
    · exact .whole (List.cons_ne_nil _ _) hwhole
  · exact .whole (List.cons_ne_nil _ _) hwhole

/-- A word is a keyword of its kind or an identifier. -/
theorem lexeme_of_word {first : Char} {more : List Char} (h : isLetter first)
    (hmore : ∀ c ∈ more, isWordChar c) :
    Lexeme (first :: more) (.token (.ofWord (String.ofList (first :: more))) none) := by
  rw [ofWord_eq]
  cases hlookup : keywords.lookup (String.ofList (first :: more)) with
  | none =>
    apply Lexeme.identifier (isLetter_iff.mp h) fun c hc ↦ isWordChar_iff.mp (hmore c hc)
    intro hkeyword
    obtain ⟨entry, hentry, htext⟩ := List.mem_map.mp hkeyword
    have hne := List.lookup_eq_none_iff.mp hlookup entry hentry
    simp [htext] at hne
  | some kind =>
    obtain ⟨before, after, hkeywords, -⟩ := List.lookup_eq_some_iff.mp hlookup
    have hlisted : (String.ofList (first :: more), kind) ∈ keywords := by
      simp [hkeywords]
    simpa using Lexeme.keyword hlisted

theorem lexeme_word {first : Char} (h : isLetter first) (input : List Char) :
    Lexeme (first :: (word first input).more) (word first input).shape :=
  lexeme_of_word h fun _ ↦ of_mem_takeWhile

theorem lexeme_string (input : List Char) :
    Lexeme ('"' :: (string input).more) (string input).shape ∨
      '"' ∉ input ∧ string input = ⟨.bad .unterminatedString, input, []⟩ := by
  have hwhole := List.takeWhile_append_dropWhile (p := (· ≠ '"')) (l := input)
  have hcontent : '"' ∉ input.takeWhile (· ≠ '"') := by
    intro hmem
    simpa using of_mem_takeWhile hmem
  unfold string
  split
  · next hopen =>
    rw [hopen, List.append_nil] at hwhole
    rw [hwhole] at hcontent
    exact .inr ⟨hcontent, by rw [hwhole]⟩
  · next quote rest hclosed =>
    have hhead := List.head?_dropWhile_not (· ≠ '"') input
    rw [hclosed] at hhead
    obtain rfl : quote = '"' := by simpa using hhead
    exact .inl (.string hcontent)

/-- What stands at the front of an input is a lexeme, a quote that no other follows, or an
unexpected character. -/
theorem munch_lexeme (first : Char) (input : List Char) :
    Lexeme (first :: (munch first input).more) (munch first input).shape ∨
    (first = '"' ∧ '"' ∉ input ∧ munch first input = ⟨.bad .unterminatedString, input, []⟩) ∨
    (first ≠ '"' ∧ munch first input = ⟨.bad (.unexpectedCharacter first), [], input⟩) := by
  unfold munch
  split <;> first
    | exact .inl (.symbol (by decide))
    | exact .inl (lexeme_withEqual input (by decide) (by decide))
    | exact .inl (.blank (by decide))
    | skip
  · exact .inl (lexeme_slash input)
  · rcases lexeme_string input with hstring | ⟨hopen, hstring⟩
    · exact .inl hstring
    · exact .inr (.inl ⟨rfl, hopen, hstring⟩)
  · next hquote =>
    split
    · next hdigit => exact .inl (lexeme_number hdigit input)
    · split
      · next hletter => exact .inl (lexeme_word hletter input)
      · exact .inr (.inr ⟨hquote, rfl⟩)

/-! ## Matches are the longest lexemes -/

/-- The match is of a lexeme that is no shorter than the given one, and is of the same shape if it
has the same text. -/
structure Match.Covers (found : Match) (first : Char) (text : List Char) (shape : Shape) :
    Prop where
  proper : ∀ issue, found.shape ≠ .bad issue
  length_le : text.length ≤ found.more.length + 1
  shape_eq : text = first :: found.more → shape = found.shape

theorem covers_one (kind : Token.Kind) (c : Char) (input : List Char) :
    (one kind input).Covers c [c] (.token kind none) :=
  ⟨nofun, Nat.le_refl 1, fun _ ↦ rfl⟩

theorem covers_short (short long : Token.Kind) (c : Char) (input : List Char) :
    (withEqual short long input).Covers c [c] (.token short none) := by
  unfold withEqual
  split
  · exact ⟨nofun, Nat.le_succ 1, nofun⟩
  · exact covers_one short c _

theorem covers_slash (input : List Char) :
    (slash input).Covers '/' ['/'] (.token .slash none) := by
  unfold slash
  split
  · exact ⟨nofun, Nat.le_add_left _ _, nofun⟩
  · exact covers_one .slash '/' _

theorem covers_symbol (input : List Char) : ∀ entry ∈ symbols,
    (munch entry.1 input).Covers entry.1 [entry.1] (.token entry.2 none) := by
  simp only [symbols, List.forall_mem_cons, List.not_mem_nil, false_imp_iff, implies_true, and_true]
  and_intros <;> first
    | exact covers_one _ _ input
    | exact covers_short _ _ _ input
    | exact covers_slash input

theorem covers_compound (rest : List Char) : ∀ entry ∈ compounds,
    (munch entry.1 ('=' :: rest)).Covers entry.1 [entry.1, '='] (.token entry.2 none) := by
  simp only [compounds, List.forall_mem_cons, List.not_mem_nil, false_imp_iff, implies_true,
    and_true]
  and_intros <;> exact ⟨nofun, Nat.le_refl 2, fun _ ↦ rfl⟩

theorem covers_blank (input : List Char) : ∀ c ∈ blanks, (munch c input).Covers c [c] .skipped := by
  simp only [blanks, List.forall_mem_cons, List.not_mem_nil, false_imp_iff, implies_true, and_true]
  and_intros <;> exact ⟨nofun, Nat.le_refl 1, fun _ ↦ rfl⟩

theorem covers_comment {body input : List Char} (h : '\n' ∉ body) (hfront : body <+: input) :
    (munch '/' ('/' :: input)).Covers '/' ('/' :: '/' :: body) .skipped := by
  have hle := (prefix_takeWhile hfront (ne_of_not_mem h)).length_le
  exact ⟨nofun, Nat.add_le_add_right hle 2, fun _ ↦ rfl⟩

theorem covers_string {content : List Char} (h : '"' ∉ content) (rest : List Char) :
    (munch '"' (content ++ '"' :: rest)).Covers '"' ('"' :: (content ++ ['"']))
      (.token .string (some (.string (String.ofList content)))) := by
  have htake : (content ++ '"' :: rest).takeWhile (· ≠ '"') = content := by
    rw [List.takeWhile_append_of_pos (ne_of_not_mem h)]
    simp
  have hdrop : (content ++ '"' :: rest).dropWhile (· ≠ '"') = '"' :: rest := by
    rw [List.dropWhile_append_of_pos (ne_of_not_mem h)]
    simp
  have hmatch : munch '"' (content ++ '"' :: rest) =
      ⟨.token .string (some (.string (String.ofList content))), content ++ ['"'], rest⟩ := by
    simp only [munch, string, htake, hdrop]
  rw [hmatch]
  exact ⟨nofun, Nat.le_refl _, fun _ ↦ rfl⟩

theorem covers_word {first : Char} {more input : List Char} (h : first ∈ letters)
    (hmore : ∀ c ∈ more, c ∈ letters ∨ c ∈ digits) (hfront : more <+: input) :
    (munch first input).Covers first (first :: more)
      (.token (.ofWord (String.ofList (first :: more))) none) := by
  have hword : ∀ c ∈ more, isWordChar c := fun c hc ↦ isWordChar_iff.mpr (hmore c hc)
  rw [munch_letter (isLetter_iff.mpr h)]
  refine ⟨nofun, Nat.succ_le_succ (prefix_takeWhile hfront hword).length_le, fun htext ↦ ?_⟩
  rw [htext]
  rfl

theorem covers_whole {first : Char} {more input : List Char} (h : ∀ c ∈ first :: more, c ∈ digits)
    (hfront : more <+: input) :
    (munch first input).Covers first (first :: more)
      (.token .number (some (.number (Decimal.read (first :: more) [])))) := by
  obtain ⟨hfirst, hmore⟩ := List.forall_mem_cons.mp (all_isDigit h)
  have hle : more.length ≤ (input.takeWhile isDigit).length :=
    (prefix_takeWhile hfront hmore).length_le
  rw [munch_digit hfirst]
  unfold number
  split
  · split
    · refine ⟨nofun, ?_, fun htext ↦ ?_⟩
      · simp only [List.length_cons, List.length_append]
        omega
      · have hpoint : '.' ∈ more := by
          rw [(List.cons.inj htext).2]
          simp
        exact absurd (hmore '.' hpoint) (by decide)
    · exact ⟨nofun, Nat.succ_le_succ hle, fun htext ↦ by rw [htext]⟩
  · exact ⟨nofun, Nat.succ_le_succ hle, fun htext ↦ by rw [htext]⟩

theorem covers_decimal {first : Char} {more fraction input : List Char}
    (h : ∀ c ∈ first :: more, c ∈ digits) (hne : fraction ≠ [])
    (hfraction : ∀ c ∈ fraction, c ∈ digits)
    (hfront : more ++ '.' :: fraction <+: input) :
    (munch first input).Covers first (first :: (more ++ '.' :: fraction))
      (.token .number (some (.number (Decimal.read (first :: more) fraction)))) := by
  obtain ⟨hfirst, hmore⟩ := List.forall_mem_cons.mp (all_isDigit h)
  obtain ⟨digit, others, rfl⟩ := List.exists_cons_of_ne_nil hne
  obtain ⟨hdigit, hothers⟩ := List.forall_mem_cons.mp (all_isDigit hfraction)
  obtain ⟨rest, rfl⟩ := hfront
  have hinput : more ++ '.' :: digit :: others ++ rest =
      more ++ '.' :: digit :: (others ++ rest) := by
    simp
  have htake : (more ++ '.' :: digit :: (others ++ rest)).takeWhile isDigit = more := by
    rw [List.takeWhile_append_of_pos hmore, List.takeWhile_cons_of_neg (by decide), List.append_nil]
  have hdrop : (more ++ '.' :: digit :: (others ++ rest)).dropWhile isDigit =
      '.' :: digit :: (others ++ rest) := by
    rw [List.dropWhile_append_of_pos hmore, List.dropWhile_cons_of_neg (by decide)]
  have hle : others.length ≤ ((others ++ rest).takeWhile isDigit).length :=
    (prefix_takeWhile (List.prefix_append others rest) hothers).length_le
  rw [munch_digit hfirst, hinput]
  simp only [number, htake, hdrop, hdigit, if_true]
  refine ⟨nofun, ?_, fun htext ↦ ?_⟩
  · simp only [List.length_cons, List.length_append]
    omega
  · simp only [List.cons.injEq, List.append_cancel_left_eq, true_and] at htext
    exact congrArg (fun behind ↦ Shape.token .number
      (some (.number (Decimal.read (first :: more) (digit :: behind))))) htext

/-- The spelling of a keyword is a word of its kind. -/
theorem word_of_keyword : ∀ entry ∈ keywords, ∃ first more,
    entry.1.toList = first :: more ∧ first ∈ letters ∧ (∀ c ∈ more, c ∈ letters ∨ c ∈ digits) ∧
      Token.Kind.ofWord (String.ofList (first :: more)) = entry.2 := by
  simp only [keywords, List.forall_mem_cons, List.not_mem_nil, false_imp_iff, implies_true,
    and_true]
  have hword {more : List Char} (h : more.all isWordChar) : ∀ c ∈ more, c ∈ letters ∨ c ∈ digits :=
    fun c hc ↦ isWordChar_iff.mp (List.all_eq_true.mp h c hc)
  and_intros <;>
    exact ⟨_, _, rfl, isLetter_iff.mp (by decide), hword (by decide), by decide +kernel⟩

theorem ofWord_eq_identifier {text : String} (h : text ∉ keywords.map Prod.fst) :
    Token.Kind.ofWord text = .identifier := by
  have hlookup : keywords.lookup text = none := by
    apply List.lookup_eq_none_iff.mpr
    intro entry hentry
    apply bne_iff_ne.mpr
    rintro rfl
    exact h (List.mem_map_of_mem hentry)
  rw [ofWord_eq, hlookup]
  rfl

/-- Whatever lexeme stands at the front, the match is at least as long. -/
theorem munch_covers {text : List Char} {shape : Shape} (h : Lexeme text shape) {first : Char}
    {input : List Char} (hfront : text <+: first :: input) :
    (munch first input).Covers first text shape := by
  cases h with
  | symbol listed =>
    obtain ⟨rfl, -⟩ := List.cons_prefix_cons.mp hfront
    exact covers_symbol input _ listed
  | compound listed =>
    obtain ⟨rfl, rest, rfl⟩ := List.cons_prefix_cons.mp hfront
    exact covers_compound rest _ listed
  | @keyword word kind listed =>
    obtain ⟨head, more, hword, hletter, hmore, rfl⟩ := word_of_keyword (word, kind) listed
    rw [hword] at hfront ⊢
    obtain ⟨rfl, hrest⟩ := List.cons_prefix_cons.mp hfront
    exact covers_word hletter hmore hrest
  | @identifier head more letter word free =>
    obtain ⟨rfl, hrest⟩ := List.cons_prefix_cons.mp hfront
    rw [← ofWord_eq_identifier free]
    exact covers_word letter word hrest
  | whole nonempty all =>
    obtain ⟨head, more, rfl⟩ := List.exists_cons_of_ne_nil nonempty
    obtain ⟨rfl, hrest⟩ := List.cons_prefix_cons.mp hfront
    exact covers_whole all hrest
  | decimal nonempty all behind allBehind =>
    obtain ⟨head, more, rfl⟩ := List.exists_cons_of_ne_nil nonempty
    obtain ⟨rfl, hrest⟩ := List.cons_prefix_cons.mp hfront
    exact covers_decimal all behind allBehind hrest
  | string closed =>
    obtain ⟨rfl, rest, rfl⟩ := List.cons_prefix_cons.mp hfront
    rw [List.append_assoc, List.singleton_append]
    exact covers_string closed rest
  | comment line =>
    obtain ⟨rfl, rest, rfl⟩ := List.cons_prefix_cons.mp hfront
    exact covers_comment line (List.prefix_append _ rest)
  | blank listed =>
    obtain ⟨rfl, -⟩ := List.cons_prefix_cons.mp hfront
    exact covers_blank input _ listed

/-- A match of a lexeme is the longest one. -/
theorem longest_munch {first : Char} {input : List Char}
    (h : Lexeme (first :: (munch first input).more) (munch first input).shape) :
    Longest (first :: (munch first input).more) (munch first input).shape (first :: input) where
  front := ⟨(munch first input).rest, munch_append first input⟩
  lexeme := h
  longest := fun _ _ hother hfront ↦ (munch_covers hother hfront).length_le

/-- Where a match is none of a lexeme, there is no lexeme. -/
theorem blocked_of_bad {first : Char} {input : List Char} {issue : Issue}
    (h : (munch first input).shape = .bad issue) : Blocked (first :: input) :=
  fun _ _ hlexeme hfront ↦ (munch_covers hlexeme hfront).proper issue h

/-- There is one longest lexeme at most, and it is that of the match. -/
theorem eq_munch_of_longest {first : Char} {input text : List Char} {shape : Shape}
    (h : Longest text shape (first :: input)) :
    text = first :: (munch first input).more ∧ shape = (munch first input).shape := by
  have hcovers := munch_covers h.lexeme h.front
  have hlexeme : Lexeme (first :: (munch first input).more) (munch first input).shape := by
    rcases munch_lexeme first input with hlexeme | ⟨-, -, hopen⟩ | ⟨-, hbad⟩
    · exact hlexeme
    · exact absurd (congrArg Match.shape hopen) (hcovers.proper _)
    · exact absurd (congrArg Match.shape hbad) (hcovers.proper _)
  have hmunch := longest_munch hlexeme
  have hprefix : text <+: first :: (munch first input).more :=
    List.prefix_of_prefix_length_le h.front hmunch.front hcovers.length_le
  have htext : text = first :: (munch first input).more :=
    hprefix.eq_of_length_le (h.longest _ _ hlexeme hmunch.front)
  exact ⟨htext, hcovers.shape_eq htext⟩

theorem munch_of_blocked {first : Char} {input : List Char} (h : Blocked (first :: input))
    (hquote : first ≠ '"') :
    munch first input = ⟨.bad (.unexpectedCharacter first), [], input⟩ := by
  rcases munch_lexeme first input with hlexeme | ⟨rfl, -⟩ | ⟨-, hmunch⟩
  · exact absurd (longest_munch hlexeme).front (h _ _ hlexeme)
  · exact absurd rfl hquote
  · exact hmunch

theorem munch_of_open {content : List Char} (h : '"' ∉ content) :
    munch '"' content = ⟨.bad .unterminatedString, content, []⟩ := by
  have htake : (content ++ []).takeWhile (· ≠ '"') = content ++ [] :=
    List.takeWhile_append_of_pos (ne_of_not_mem h)
  have hdrop : (content ++ []).dropWhile (· ≠ '"') = [] :=
    List.dropWhile_append_of_pos (ne_of_not_mem h)
  rw [List.append_nil] at htake hdrop
  simp only [munch, string, htake, hdrop]

end Scan

/-! ## The scanner reads longest lexemes -/

namespace Lexicon

open Scan

theorem Lexeme.ne_nil {text : List Char} {shape : Shape} (h : Lexeme text shape) : text ≠ [] := by
  cases h with
  | keyword listed =>
    obtain ⟨first, more, htext, -⟩ := word_of_keyword _ listed
    rw [htext]
    exact List.cons_ne_nil first more
  | whole nonempty all => exact nonempty
  | decimal => simp
  | _ => exact List.cons_ne_nil _ _

theorem Lexeme.ne_bad {text : List Char} {shape : Shape} (h : Lexeme text shape) (issue : Issue) :
    shape ≠ .bad issue := by
  cases h <;> exact nofun

/-- The longest lexeme at the front is a piece of the source. -/
theorem Longest.pieces_eq {text rest : List Char} {shape : Shape}
    (h : Longest text shape (text ++ rest)) (start : Cursor) :
    pieces start (text ++ rest) = ⟨start, text, shape⟩ :: pieces (start.after text) rest := by
  obtain ⟨first, more, rfl⟩ := List.exists_cons_of_ne_nil h.lexeme.ne_nil
  rw [List.cons_append] at h ⊢
  obtain ⟨htext, hshape⟩ := eq_munch_of_longest h
  have hrest : (munch first (more ++ rest)).rest = rest := by
    have hcut := munch_append first (more ++ rest)
    rw [← htext, List.cons_append] at hcut
    exact List.append_cancel_left (List.cons.inj hcut).2
  rw [pieces, ← htext, ← hshape, hrest]

theorem pieces_of_blocked {c : Char} {rest : List Char} (h : Blocked (c :: rest)) (hquote : c ≠ '"')
    (start : Cursor) :
    pieces start (c :: rest) =
      ⟨start, [c], .bad (.unexpectedCharacter c)⟩ :: pieces (start.after [c]) rest := by
  rw [pieces, munch_of_blocked h hquote]

theorem pieces_of_open {content : List Char} (h : '"' ∉ content) (start : Cursor) :
    pieces start ('"' :: content) = [⟨start, '"' :: content, .bad .unterminatedString⟩] := by
  rw [pieces, munch_of_open h, pieces]

/-- A reading has the tokens and the faults of the scanner. -/
theorem Reads.eq_pieces {start : Cursor} {input : List Char} {tokens : List Token}
    {faults : List Fault} (h : Reads start input tokens faults) :
    tokens = (pieces start input).filterMap Piece.token? ++
        [.endMark ((start.after input).spanOf [])] ∧
      faults = (pieces start input).filterMap Piece.fault? := by
  induction h with
  | finish =>
    rw [pieces]
    exact ⟨rfl, rfl⟩
  | token found others ih =>
    rw [found.pieces_eq, ih.1, ih.2, ← Cursor.after_append]
    exact ⟨rfl, rfl⟩
  | skip found others ih =>
    rw [found.pieces_eq, ih.1, ih.2, ← Cursor.after_append]
    exact ⟨rfl, rfl⟩
  | @unexpected start c rest tokens faults nothing noQuote others ih =>
    have hafter : start.after (c :: rest) = (start.after [c]).after rest :=
      (Cursor.after_append start [c] rest).symm
    rw [pieces_of_blocked nothing noQuote, ih.1, ih.2, hafter]
    exact ⟨rfl, rfl⟩
  | unterminated unclosed =>
    rw [pieces_of_open unclosed]
    exact ⟨rfl, rfl⟩

/-- What is read first of an input, which is the text and the rest together. -/
inductive Front : List Char → Shape → List Char → Prop where
  | lexeme {text rest : List Char} {shape : Shape} (found : Longest text shape (text ++ rest)) :
    Front text shape rest
  | unexpected {c : Char} {rest : List Char} (nothing : Blocked (c :: rest)) (noQuote : c ≠ '"') :
    Front [c] (.bad (.unexpectedCharacter c)) rest
  | unterminated {content : List Char} (unclosed : '"' ∉ content) :
    Front ('"' :: content) (.bad .unterminatedString) []

theorem Front.ne_nil {text rest : List Char} {shape : Shape} (h : Front text shape rest) :
    text ≠ [] := by
  cases h with
  | lexeme found => exact found.lexeme.ne_nil
  | unexpected => exact List.cons_ne_nil _ _
  | unterminated => exact List.cons_ne_nil _ _

theorem front_munch (first : Char) (input : List Char) :
    Front (first :: (munch first input).more) (munch first input).shape
      (munch first input).rest := by
  rcases munch_lexeme first input with hlexeme | ⟨rfl, hopen, hmunch⟩ | ⟨hquote, hmunch⟩
  · have hlongest := longest_munch hlexeme
    rw [← munch_append first input] at hlongest
    exact .lexeme hlongest
  · rw [hmunch]
    exact .unterminated hopen
  · have hnothing := blocked_of_bad (congrArg Match.shape hmunch)
    rw [hmunch]
    exact .unexpected hnothing hquote

/-- Every input has a reading. -/
theorem exists_reads (start : Cursor) (input : List Char) :
    ∃ tokens faults, Reads start input tokens faults := by
  fun_induction pieces start input with
  | case1 start => exact ⟨_, _, .finish⟩
  | case2 start first input found text ih =>
    obtain ⟨tokens, faults, hothers⟩ := ih
    have hfront : Front text found.shape found.rest := front_munch first input
    rw [← munch_append first input]
    change ∃ tokens faults, Reads start (text ++ found.rest) tokens faults
    generalize found.shape = shape, text = text, found.rest = rest at hfront hothers ⊢
    cases hfront with
    | @lexeme text rest shape hlongest =>
      cases shape with
      | skipped => exact ⟨_, _, .skip hlongest hothers⟩
      | token kind literal => exact ⟨_, _, .token hlongest hothers⟩
      | bad issue => exact absurd rfl (hlongest.lexeme.ne_bad issue)
    | unexpected nothing noQuote => exact ⟨_, _, .unexpected nothing noQuote hothers⟩
    | unterminated unclosed =>
      rw [List.append_nil]
      exact ⟨_, _, .unterminated unclosed⟩

end Lexicon

/-- The tokens of a source, with the mark at the end, and its faults are those of the one reading
by longest lexemes. -/
theorem Scan.reads_longest_iff (source : String) (tokens : List Token) (faults : List Fault) :
    Lexicon.Reads .origin source.toList tokens faults ↔
      tokens = (Scan.ofSource source).stream ∧ faults = (Scan.ofSource source).faults := by
  constructor
  · exact Lexicon.Reads.eq_pieces
  · rintro ⟨rfl, rfl⟩
    obtain ⟨tokens, faults, h⟩ := Lexicon.exists_reads .origin source.toList
    obtain ⟨rfl, rfl⟩ := h.eq_pieces
    exact h

end LoxLang
