import Mathlib.Data.List.Pairwise
import LoxLang.Proofs.Grammar.Consumption
import LoxLang.Proofs.Scan.Lexicon

/-!
# How a source is divided up

A source is divided without remainder among its tokens, its faults, and what is skipped between
them: runs of blanks, and comments to the end of their lines. Tokens stand in order, none of them is
empty, and each has the text of its span for a lexeme. Those that stand for a value carry it, so a
parser never misses a literal in a source that was scanned.
-/

namespace LoxLang

namespace Span

/-- One of the spans ends before the other starts. -/
def Apart (first second : Span) : Prop := first.stop ≤ second.start ∨ second.stop ≤ first.start

/-- The byte at the offset is one of the span. -/
def Covers (span : Span) (offset : Nat) : Prop := span.start ≤ offset ∧ offset < span.stop

theorem Placed.stop_le_length {source : List Char} {span : Span} (h : span.Placed source) :
    span.stop ≤ Text.byteLength source := by
  obtain ⟨text, before, rest, hsource, -, hstop, -⟩ := h
  rw [hstop, hsource, ← List.append_assoc, Text.byteLength_append _ rest]
  exact Nat.le_add_right _ _

end Span

namespace Lexicon

/-- The text may stand between tokens if it is followed by the rest. -/
inductive Gap : List Char → List Char → Prop where
  | blanks {text rest : List Char} (all : ∀ c ∈ text, c ∈ blanks) : Gap text rest
  | comment {body rest : List Char} (line : '\n' ∉ body)
    (ends : rest = [] ∨ rest.head? = some '\n') : Gap ('/' :: '/' :: body) rest

open Scan

/-- A comment goes on to the end of its line. -/
theorem Longest.gap {text rest : List Char} (h : Longest text .skipped (text ++ rest)) :
    Gap text rest := by
  cases h.lexeme with
  | blank listed => exact .blanks (List.forall_mem_singleton.mpr listed)
  | @comment body line =>
    refine .comment line ?_
    cases rest with
    | nil => exact .inl rfl
    | cons c rest =>
      right
      by_contra hne
      have hline : '\n' ∉ body ++ [c] := by
        intro hmem
        rcases List.mem_append.mp hmem with hbody | hlast
        · exact line hbody
        · exact hne (congrArg some (List.mem_singleton.mp hlast).symm)
      have hfront : '/' :: '/' :: (body ++ [c]) <+: '/' :: '/' :: body ++ c :: rest :=
        ⟨rest, by simp⟩
      have hle := h.longest _ _ (Lexeme.comment hline) hfront
      simp only [List.length_cons, List.length_append, List.length_nil] at hle
      omega

end Lexicon

namespace Scan

open Lexicon

/-! ## Pieces -/

/-- A piece stands where the text before it ends, and is what is read first of what is left. -/
theorem exists_front_of_mem {start : Cursor} {input : List Char} {piece : Piece}
    (h : piece ∈ pieces start input) :
    ∃ before rest, input = before ++ (piece.text ++ rest) ∧ piece.start = start.after before ∧
      Front piece.text piece.shape rest := by
  fun_induction pieces start input with
  | case1 => cases h
  | case2 start first input found text ih =>
    have hinput : first :: input = text ++ found.rest := (munch_append first input).symm
    rcases List.mem_cons.mp h with rfl | hother
    · exact ⟨[], found.rest, hinput, rfl, front_munch first input⟩
    · obtain ⟨before, rest, hrest, hstart, hfront⟩ := ih hother
      refine ⟨text ++ before, rest, ?_, ?_, hfront⟩
      · rw [hinput, hrest, List.append_assoc]
      · rw [hstart, Cursor.after_append]

theorem Piece.start_lt_stop {start : Cursor} {input : List Char} {piece : Piece}
    (h : piece ∈ pieces start input) : piece.span.start < piece.span.stop := by
  obtain ⟨before, rest, -, -, hfront⟩ := exists_front_of_mem h
  apply Nat.lt_add_of_pos_right
  apply Nat.pos_of_ne_zero
  intro hzero
  exact hfront.ne_nil (Text.byteLength_eq_zero hzero)

theorem pieces_ordered (start : Cursor) (input : List Char) :
    (pieces start input).Pairwise fun piece other ↦ piece.span.stop ≤ other.span.start := by
  fun_induction pieces start input with
  | case1 => exact List.Pairwise.nil
  | case2 start first input found text ih =>
    refine List.pairwise_cons.mpr ⟨fun other hother ↦ ?_, ih⟩
    obtain ⟨before, rest, -, hstart, -⟩ := exists_front_of_mem hother
    change (start.after text).offset ≤ other.start.offset
    rw [hstart]
    exact (start.after text).offset_le_after before

/-- Two pieces of different shape are two pieces. -/
theorem apart_of_shape_ne {start : Cursor} {input : List Char} {piece other : Piece}
    (hpiece : piece ∈ pieces start input) (hother : other ∈ pieces start input)
    (hne : piece.shape ≠ other.shape) : piece.span.Apart other.span := by
  have hapart : (pieces start input).Pairwise fun piece other ↦ piece.span.Apart other.span :=
    (pieces_ordered start input).imp .inl
  have hsymm : Std.Symm fun piece other : Piece ↦ piece.span.Apart other.span :=
    ⟨fun _ _ ↦ Or.symm⟩
  apply hapart.forall hpiece hother
  intro heq
  exact hne (congrArg Piece.shape heq)

theorem exists_piece_covers {start : Cursor} {input : List Char} {offset : Nat}
    (hstart : start.offset ≤ offset) (hstop : offset < start.offset + Text.byteLength input) :
    ∃ piece ∈ pieces start input, piece.span.Covers offset := by
  fun_induction pieces start input with
  | case1 => exact absurd hstop (Nat.not_lt_of_le hstart)
  | case2 start first input found text ih =>
    rcases Nat.lt_or_ge offset (start.after text).offset with hlt | hge
    · exact ⟨⟨start, text, found.shape⟩, List.mem_cons_self, hstart, hlt⟩
    · have hlength : Text.byteLength (first :: input) =
          Text.byteLength text + Text.byteLength found.rest := by
        rw [← munch_append first input, Text.byteLength_append]
      have hrest : offset < (start.after text).offset + Text.byteLength found.rest := by
        rw [hlength] at hstop
        rw [Cursor.after, Nat.add_assoc]
        exact hstop
      obtain ⟨piece, hpiece, hcovers⟩ := ih hge hrest
      exact ⟨piece, List.mem_cons_of_mem _ hpiece, hcovers⟩

theorem Piece.fault?_eq_some {piece : Piece} {fault : Fault} (h : piece.fault? = some fault) :
    piece.shape = .bad fault.issue ∧ fault = .plain piece.span fault.issue := by
  unfold Piece.fault? at h
  split at h
  · next issue hshape =>
    obtain rfl := Option.some.inj h
    exact ⟨hshape, rfl⟩
  · cases h

/-! ## Literals -/

end Scan

/-- A number carries the value of its digits, a string the characters between its quotes, and no
other token a literal. -/
def Token.Carries (token : Token) : Prop :=
  match token.kind with
  | .number => ∃ whole fraction : List Char, whole ≠ [] ∧ (∀ c ∈ whole, c ∈ Lexicon.digits) ∧
      (∀ c ∈ fraction, c ∈ Lexicon.digits) ∧
      token.lexeme.toList = whole ++ (if fraction = [] then [] else '.' :: fraction) ∧
      token.literal = some (.number (Decimal.read whole fraction))
  | .string => ∃ content : List Char, '"' ∉ content ∧
      token.lexeme.toList = '"' :: (content ++ ['"']) ∧
      token.literal = some (.string (String.ofList content))
  | _ => token.literal = none

theorem Token.Carries.fits {token : Token} (h : token.Carries) : token.Fits := by
  obtain ⟨kind, lexeme, literal, span⟩ := token
  cases kind with
  | number =>
    obtain ⟨whole, fraction, -, -, -, -, rfl⟩ := h
    trivial
  | string =>
    obtain ⟨content, -, -, rfl⟩ := h
    trivial
  | _ => trivial

namespace Lexicon

open Scan

/-- The punctuation, the operators and the keywords have no kind that carries a literal. -/
theorem bare_of_listed :
    (∀ entry ∈ symbols, entry.2 ≠ .number ∧ entry.2 ≠ .string) ∧
    (∀ entry ∈ compounds, entry.2 ≠ .number ∧ entry.2 ≠ .string) ∧
    (∀ entry ∈ keywords, entry.2 ≠ .number ∧ entry.2 ≠ .string) := by
  decide

theorem carries_of_bare {kind : Token.Kind} (h : kind ≠ .number ∧ kind ≠ .string) (lexeme : String)
    (span : Span) : Token.Carries ⟨kind, lexeme, none, span⟩ := by
  cases kind with
  | number => exact absurd rfl h.1
  | string => exact absurd rfl h.2
  | _ => rfl

theorem Lexeme.carries {text : List Char} {kind : Token.Kind} {literal : Option Literal}
    (h : Lexeme text (.token kind literal)) (span : Span) :
    Token.Carries ⟨kind, String.ofList text, literal, span⟩ := by
  obtain ⟨hsymbols, hcompounds, hkeywords⟩ := bare_of_listed
  cases h with
  | symbol listed => exact carries_of_bare (hsymbols _ listed) _ span
  | compound listed => exact carries_of_bare (hcompounds _ listed) _ span
  | keyword listed => exact carries_of_bare (hkeywords _ listed) _ span
  | identifier => rfl
  | whole nonempty all =>
    exact ⟨text, [], nonempty, all, List.forall_mem_nil _, by simp, rfl⟩
  | @decimal whole fraction nonempty all behind allBehind =>
    exact ⟨whole, fraction, nonempty, all, allBehind, by simp [behind], rfl⟩
  | @string content closed => exact ⟨content, closed, String.toList_ofList, rfl⟩

theorem Front.carries {text rest : List Char} {kind : Token.Kind} {literal : Option Literal}
    (h : Front text (.token kind literal) rest) (span : Span) :
    Token.Carries ⟨kind, String.ofList text, literal, span⟩ := by
  cases h with
  | lexeme found => exact found.lexeme.carries span

theorem Front.gap {text rest : List Char} (h : Front text .skipped rest) : Gap text rest := by
  cases h with
  | lexeme found => exact found.gap

theorem Front.message {text rest : List Char} {issue : Issue} (h : Front text (.bad issue) rest) :
    issue.message = "Unexpected character." ∨ issue.message = "Unterminated string." := by
  cases h with
  | lexeme found => exact absurd rfl (found.lexeme.ne_bad issue)
  | unexpected => exact .inl rfl
  | unterminated => exact .inr rfl

end Lexicon

/-! ## Sources -/

namespace Scan

open Lexicon

/-- A source is divided up among tokens, faults, and what may stand between them. -/
structure Partitions (source : List Char) (scan : Scan) : Prop where
  endMark : scan.stream = scan.tokens ++ [⟨.eof, "", none,
    ⟨Text.byteLength source, Text.byteLength source, 1 + source.count '\n'⟩⟩]
  proper : ∀ token ∈ scan.tokens, token.kind ≠ .eof ∧ token.span.start < token.span.stop
  marks : ∀ token ∈ scan.stream, token.span.Marks source token.lexeme.toList
  ordered : scan.stream.Pairwise fun token other ↦ token.span.stop ≤ other.span.start
  placed : ∀ fault ∈ scan.faults, fault.span.Placed source
  apart : ∀ fault ∈ scan.faults, ∀ token ∈ scan.stream, fault.span.Apart token.span
  gaps : ∀ offset < Text.byteLength source,
    (∀ token ∈ scan.tokens, ¬token.span.Covers offset) →
    (∀ fault ∈ scan.faults, ¬fault.span.Covers offset) →
    ∃ before text rest, source = before ++ (text ++ rest) ∧ Gap text rest ∧
      ∃ span, span = (Cursor.origin.after before).spanOf text ∧ span.Covers offset ∧
        (∀ token ∈ scan.tokens, span.Apart token.span) ∧
        (∀ fault ∈ scan.faults, span.Apart fault.span)
  carries : ∀ token ∈ scan.stream, token.Carries
  messages : ∀ fault ∈ scan.faults,
    fault.message = "Unexpected character." ∨ fault.message = "Unterminated string."

variable {source : String}

theorem exists_piece_of_token {token : Token} (h : token ∈ (ofSource source).tokens) :
    ∃ piece ∈ pieces .origin source.toList, ∃ literal, piece.shape = .token token.kind literal ∧
      token = ⟨token.kind, String.ofList piece.text, literal, piece.span⟩ := by
  obtain ⟨piece, hpiece, hsome⟩ := List.mem_filterMap.mp h
  exact ⟨piece, hpiece, Piece.token?_eq_some hsome⟩

theorem exists_piece_of_fault {fault : Fault} (h : fault ∈ (ofSource source).faults) :
    ∃ piece ∈ pieces .origin source.toList, piece.shape = .bad fault.issue ∧
      fault = .plain piece.span fault.issue := by
  obtain ⟨piece, hpiece, hsome⟩ := List.mem_filterMap.mp h
  exact ⟨piece, hpiece, Piece.fault?_eq_some hsome⟩

theorem token_mem {piece : Piece} {kind : Token.Kind} {literal : Option Literal}
    (h : piece ∈ pieces .origin source.toList) (hshape : piece.shape = .token kind literal) :
    ⟨kind, String.ofList piece.text, literal, piece.span⟩ ∈ (ofSource source).tokens := by
  apply List.mem_filterMap.mpr ⟨piece, h, ?_⟩
  rw [Piece.token?, hshape]

theorem fault_mem {piece : Piece} {issue : Issue} (h : piece ∈ pieces .origin source.toList)
    (hshape : piece.shape = .bad issue) : .plain piece.span issue ∈ (ofSource source).faults := by
  apply List.mem_filterMap.mpr ⟨piece, h, ?_⟩
  rw [Piece.fault?, hshape]

theorem marks_stream {token : Token} (h : token ∈ (ofSource source).stream) :
    token.span.Marks source.toList token.lexeme.toList := by
  rcases List.mem_append.mp h with htoken | hmark
  · exact (stands_ofSource source).marks token htoken
  · rw [List.mem_singleton.mp hmark]
    exact marks_endMark source

theorem placed_fault {fault : Fault} (h : fault ∈ (ofSource source).faults) :
    fault.span.Placed source.toList := by
  obtain ⟨span, issue, rfl, hplaced⟩ := mem_faults h
  exact hplaced

theorem endMark_start (source : String) :
    (ofSource source).endMark.span.start = Text.byteLength source.toList :=
  Nat.zero_add _

theorem start_lt_stop {token : Token} (h : token ∈ (ofSource source).tokens) :
    token.span.start < token.span.stop := by
  obtain ⟨piece, hpiece, literal, -, heq⟩ := exists_piece_of_token h
  rw [heq]
  exact Piece.start_lt_stop hpiece

theorem stream_ordered (source : String) :
    (ofSource source).stream.Pairwise fun token other ↦ token.span.stop ≤ other.span.start := by
  refine List.pairwise_append.mpr ⟨?_, List.pairwise_singleton _ _, ?_⟩
  · refine List.pairwise_filterMap.mpr ((pieces_ordered .origin source.toList).imp ?_)
    intro piece other hle token htoken otherToken hother
    obtain ⟨literal, -, heq⟩ := Piece.token?_eq_some htoken
    obtain ⟨otherLiteral, -, hotherEq⟩ := Piece.token?_eq_some hother
    rw [heq, hotherEq]
    exact hle
  · intro token htoken mark hmark
    rw [List.mem_singleton.mp hmark, endMark_start]
    exact ((stands_ofSource source).placed htoken).stop_le_length

theorem apart_token {piece : Piece} {token : Token} (h : piece ∈ pieces .origin source.toList)
    (hshape : ∀ kind literal, piece.shape ≠ .token kind literal)
    (htoken : token ∈ (ofSource source).tokens) : piece.span.Apart token.span := by
  obtain ⟨other, hother, literal, hotherShape, heq⟩ := exists_piece_of_token htoken
  rw [heq]
  apply apart_of_shape_ne h hother
  rw [hotherShape]
  exact hshape token.kind literal

theorem fault_apart {fault : Fault} {token : Token} (hfault : fault ∈ (ofSource source).faults)
    (htoken : token ∈ (ofSource source).stream) : fault.span.Apart token.span := by
  rcases List.mem_append.mp htoken with hproper | hmark
  · obtain ⟨piece, hpiece, hshape, heq⟩ := exists_piece_of_fault hfault
    rw [heq]
    exact apart_token hpiece (by rw [hshape]; exact nofun) hproper
  · left
    rw [List.mem_singleton.mp hmark, endMark_start]
    exact (placed_fault hfault).stop_le_length

/-- A byte of no token and no fault is one of a skipped piece. -/
theorem exists_gap {offset : Nat} (h : offset < Text.byteLength source.toList)
    (htokens : ∀ token ∈ (ofSource source).tokens, ¬token.span.Covers offset)
    (hfaults : ∀ fault ∈ (ofSource source).faults, ¬fault.span.Covers offset) :
    ∃ before text rest, source.toList = before ++ (text ++ rest) ∧ Gap text rest ∧
      ∃ span, span = (Cursor.origin.after before).spanOf text ∧ span.Covers offset ∧
        (∀ token ∈ (ofSource source).tokens, span.Apart token.span) ∧
        (∀ fault ∈ (ofSource source).faults, span.Apart fault.span) := by
  have hstop : offset < Cursor.origin.offset + Text.byteLength source.toList := by
    rwa [Cursor.origin, Nat.zero_add]
  obtain ⟨piece, hpiece, hcovers⟩ := exists_piece_covers (Nat.zero_le offset) hstop
  obtain ⟨before, rest, hsource, hstart, hfront⟩ := exists_front_of_mem hpiece
  cases hshape : piece.shape with
  | token kind literal => exact absurd hcovers (htokens _ (token_mem hpiece hshape))
  | bad issue => exact absurd hcovers (hfaults _ (fault_mem hpiece hshape))
  | skipped =>
    rw [hshape] at hfront
    refine ⟨before, piece.text, rest, hsource, hfront.gap, piece.span, ?_, hcovers, ?_, ?_⟩
    · rw [Piece.span, hstart]
    · intro token htoken
      exact apart_token hpiece (by simp [hshape]) htoken
    · intro fault hfault
      obtain ⟨other, hother, hotherShape, hotherEq⟩ := exists_piece_of_fault hfault
      rw [hotherEq]
      apply apart_of_shape_ne hpiece hother
      simp [hshape, hotherShape]

theorem carries_stream {token : Token} (h : token ∈ (ofSource source).stream) : token.Carries := by
  rcases List.mem_append.mp h with htoken | hmark
  · obtain ⟨piece, hpiece, literal, hshape, heq⟩ := exists_piece_of_token htoken
    obtain ⟨before, rest, -, -, hfront⟩ := exists_front_of_mem hpiece
    rw [hshape] at hfront
    rw [heq]
    exact hfront.carries piece.span
  · rw [List.mem_singleton.mp hmark]
    rfl

theorem message_fault {fault : Fault} (h : fault ∈ (ofSource source).faults) :
    fault.message = "Unexpected character." ∨ fault.message = "Unterminated string." := by
  obtain ⟨piece, hpiece, hshape, -⟩ := exists_piece_of_fault h
  obtain ⟨before, rest, -, -, hfront⟩ := exists_front_of_mem hpiece
  rw [hshape] at hfront
  exact hfront.message

theorem partitions_ofSource (source : String) : Partitions source.toList (ofSource source) where
  endMark := by
    rw [stream, endMark, Token.endMark]
    simp [Cursor.spanOf, ofSource, ofChars, Cursor.after, Cursor.origin]
  proper := fun _ htoken ↦ ⟨kind_ne_eof htoken, start_lt_stop htoken⟩
  marks := fun _ ↦ marks_stream
  ordered := stream_ordered source
  placed := fun _ ↦ placed_fault
  apart := fun _ hfault _ htoken ↦ fault_apart hfault htoken
  gaps := fun _ ↦ exists_gap
  carries := fun _ ↦ carries_stream
  messages := fun _ ↦ message_fault

end Scan

theorem Issue.message_of_isStructural {issue : Issue} (h : issue.isStructural) :
    issue.message ≠ "Invalid number literal" ∧ issue.message ≠ "Invalid string literal" := by
  have hexpected : emptyParens.message ≠ "Invalid number literal" ∧
      emptyParens.message ≠ "Invalid string literal" := by decide
  cases issue with
  | noExpression found => exact hexpected
  | badNumberLiteral | badStringLiteral | unexpectedCharacter | unterminatedString
  | undefinedVariable | undefinedTarget | badNegation | badAddition | badOperands | outputFailed
  | other => cases h
  | _ => decide

/-- Scanning divides a source up, and a parser finds a fitting literal wherever it wants one. -/
theorem Scan.partitions_and_literals_fit (source : String) :
    Scan.Partitions source.toList (Scan.ofSource source) ∧
    ∀ mode, ∀ fault ∈ (Program.parse mode (Scan.ofSource source).stream).faults,
      fault.message ≠ "Invalid number literal" ∧ fault.message ≠ "Invalid string literal" := by
  refine ⟨partitions_ofSource source, fun mode fault hfault ↦ ?_⟩
  obtain ⟨hgrammatical, hmisfit⟩ := Program.arises_parse mode _ fault hfault
  have hfits : fault.issue.isMisfit = false := by
    apply Bool.eq_false_iff.mpr
    intro hwrong
    obtain ⟨token, htoken, hunfit⟩ := hmisfit hwrong
    exact hunfit (carries_stream htoken).fits
  apply Issue.message_of_isStructural
  rw [Issue.isStructural, hgrammatical, hfits]
  rfl

/-- A number, a string over a line break, a fault between them and a comment at the end. -/
theorem Scan.partitions_and_literals_fit_mixed :
    let scan := Scan.ofSource "1.5@\"\u00e9\n\" // x"
    scan.stream.map (fun token ↦ (token.kind, token.span)) =
        [(.number, ⟨0, 3, 1⟩), (.string, ⟨4, 9, 1⟩), (.eof, ⟨14, 14, 2⟩)] ∧
      scan.faults = [.plain ⟨3, 4, 1⟩ (.unexpectedCharacter '@')] ∧
      (Program.parse .script scan.stream).faults =
        [⟨⟨4, 9, 1⟩, .atLexeme "\"\u00e9\n\"", .noSemicolonAfterExpression⟩] ∧
      Partitions "1.5@\"\u00e9\n\" // x".toList scan ∧
      ∀ fault ∈ (Program.parse .script scan.stream).faults,
        fault.message ≠ "Invalid number literal" ∧ fault.message ≠ "Invalid string literal" := by
  obtain ⟨hpartitions, hliterals⟩ := partitions_and_literals_fit "1.5@\"\u00e9\n\" // x"
  exact ⟨by decide +kernel, by decide +kernel, by decide +kernel, hpartitions, hliterals .script⟩

end LoxLang
