import LoxLang.Proofs.Decimal.Doubles
import LoxLang.Proofs.Decimal.ReadBack
import LoxLang.Proofs.Grammar.Completeness
import LoxLang.Proofs.Run.Semantics
import LoxLang.Proofs.Run.Session
import LoxLang.Proofs.Scan.Spacing

/-!
# Printed values in a source

What is printed of a value can be put into a source, strings between quotes, and is read as the
same value there: as a literal, or as the negation of one if it is a number with a sign. The
exceptions are the numbers that are not finite and the strings that hold a quote.
-/

namespace LoxLang

open Lexicon Scan
open Grammar (Word Phrase Passage PrefixOperator)

/-! ## Values as source text -/

namespace Value

/-- The text of a value in a source: what is printed of it, but a string stands between quotes. -/
def literal : Value → String
  | string s => "\"" ++ s ++ "\""
  | value => value.text

/-- There is a text to read the value from. -/
def Readable : Value → Prop
  | number x => x.isFinite
  | string s => '"' ∉ s.toList
  | _ => True

instance : DecidablePred Readable
  | nil => inferInstanceAs (Decidable True)
  | bool _ => inferInstanceAs (Decidable True)
  | number x => inferInstanceAs (Decidable (x.isFinite = true))
  | string s => inferInstanceAs (Decidable ('"' ∉ s.toList))

end Value

/-- The text stands for the value as a literal, or as a number behind a minus sign. -/
inductive Spells : List Char → Value → Prop where
  | literal {text : List Char} {kind : Token.Kind} {literal : Option Literal} {value : Value}
    (lexeme : Lexeme text (.token kind literal))
    (stands : ∀ span, Token.value? ⟨kind, String.ofList text, literal, span⟩ = some value) :
    Spells text value
  | negated {text : List Char} {x : Float}
    (lexeme : Lexeme text (.token .number (some (.number x)))) :
    Spells ('-' :: text) (.number (-x))

/-! ## Numbers -/

/-- The text of a decimal is the lexeme of a number. -/
theorem lexeme_positional (d : Decimal.Scaled) :
    Lexeme (Decimal.positional d).toList
      (.token .number (some (.number (Float.ofBits (UInt64.ofNat d.bits))))) := by
  have hne := Decimal.layout_fst_ne_nil d
  have hdigits (c : Char) (hc : c ∈ (Decimal.layout d).1 ++ (Decimal.layout d).2) : c ∈ digits :=
    isDigit_iff.mp (Decimal.isDigit_of_mem_layout hc)
  rw [← Decimal.readBits_layout]
  unfold Decimal.positional
  generalize Decimal.layout d = parts at hne hdigits ⊢
  obtain ⟨whole, fraction⟩ := parts
  obtain ⟨hwhole, hfraction⟩ := List.forall_mem_append.mp hdigits
  cases fraction with
  | nil =>
    rw [String.toList_ofList]
    exact .whole hne hwhole
  | cons digit others =>
    rw [String.toList_ofList]
    exact .decimal hne hwhole (List.cons_ne_nil _ _) hfraction

theorem spells_number {x : Float} (h : x.isFinite) :
    Spells (Value.number x).text.toList (.number x) := by
  have hlexeme := lexeme_positional (Decimal.shortest (Decimal.unsignedBits x))
  rw [Decimal.bits_shortest (Decimal.unsignedBits_lt h)] at hlexeme
  rw [Value.text, Decimal.text_of_isFinite _ h]
  rcases Decimal.eq_ofBits_or_neg h with ⟨hsign, hvalue⟩ | ⟨hsign, hvalue⟩
  · rw [hvalue] at hlexeme
    rw [if_pos hsign, String.empty_append]
    exact .literal hlexeme fun _ ↦ rfl
  · have hnegated := Spells.negated hlexeme
    rw [hvalue] at hnegated
    rw [if_neg hsign, String.toList_append]
    exact hnegated

theorem spells_string {s : String} (h : '"' ∉ s.toList) :
    Spells (Value.string s).literal.toList (.string s) := by
  have hquoted : (Value.string s).literal.toList = '"' :: (s.toList ++ ['"']) := by
    rw [Value.literal, String.toList_append, String.toList_append]
    rfl
  have hlexeme := Lexeme.string h
  rw [String.ofList_toList, ← hquoted] at hlexeme
  exact .literal hlexeme fun _ ↦ rfl

theorem spells_keyword {word : String} {kind : Token.Kind} {value : Value}
    (listed : (word, kind) ∈ keywords)
    (stands : ∀ lexeme span, Token.value? ⟨kind, lexeme, none, span⟩ = some value) :
    Spells word.toList value :=
  .literal (.keyword listed) (stands _)

theorem spells_literal {value : Value} (h : value.Readable) :
    Spells value.literal.toList value := by
  cases value with
  | nil =>
    have hlisted : ("nil", Token.Kind.kwNil) ∈ keywords := by decide
    exact spells_keyword hlisted fun _ _ ↦ rfl
  | bool b =>
    have htrue : ("true", Token.Kind.kwTrue) ∈ keywords := by decide
    have hfalse : ("false", Token.Kind.kwFalse) ∈ keywords := by decide
    cases b with
    | false => exact spells_keyword hfalse fun _ _ ↦ rfl
    | true => exact spells_keyword htrue fun _ _ ↦ rfl
  | number x => exact spells_number h
  | string s => exact spells_string h

/-! ## Reading -/

namespace Grammar

/-- An operand as a whole expression. -/
def Phrase.ofUnary (operand : Phrase .unary) : Phrase .expression :=
  .expression (.simple (.first (.first (.first (.first (.first (.first operand)))))))

/-- A program that prints the value of an operand. -/
def Passage.printing (keyword : Word .kwPrint) (operand : Phrase .unary)
    (closing : Word .semicolon) : Passage .sequence :=
  .more (.statement (.print keyword operand.ofUnary closing)) .empty

theorem Passage.tokens_printing (keyword : Word .kwPrint) (operand : Phrase .unary)
    (closing : Word .semicolon) :
    (printing keyword operand closing).tokens = keyword.val :: (operand.tokens ++ [closing.val]) :=
  List.append_nil _

theorem Passage.nearest_printing (keyword : Word .kwPrint) (operand : Phrase .unary)
    (closing : Word .semicolon) : (printing keyword operand closing).Nearest :=
  ⟨trivial, trivial⟩

theorem Passage.peak_printing (keyword : Word .kwPrint) (operand : Phrase .unary)
    (closing : Word .semicolon) : (printing keyword operand closing).peak 0 = operand.peak 2 :=
  Nat.max_eq_left (Nat.zero_le _)

end Grammar

/-- A text that stands for a value is read as an operand with this value. -/
theorem Spells.exists_reads {text : List Char} {value : Value} (h : Spells text value)
    {start : Cursor} {rest : List Char} {tokens : List Token} {faults : List Fault}
    (hrest : Reads (start.after text) (';' :: rest) tokens faults) :
    ∃ operand : Phrase .unary,
      Reads start (text ++ ';' :: rest) (operand.tokens ++ tokens) faults ∧
      (∀ env, operand.tree.eval env = (.ok value, env)) ∧
      ∀ counter, operand.peak counter ≤ counter + 1 := by
  cases h with
  | @literal kind literal _ _ lexeme stands =>
    have hlongest := lexeme.longest_before_separator (by decide : ';' ∈ separators) rest
    exact ⟨.primary (.literal _ value (stands (start.spanOf text))), .token hlongest hrest,
      fun _ ↦ rfl, fun counter ↦ Nat.le_succ counter⟩
  | @negated text x lexeme =>
    have hafter : start.after ('-' :: text) = (start.after ['-']).after text :=
      (Cursor.after_append start ['-'] text).symm
    rw [hafter] at hrest
    have hsign : Longest ['-'] (.token .minus none) (['-'] ++ (text ++ ';' :: rest)) :=
      longest_munch (.symbol (by decide))
    have hnumber := lexeme.longest_before_separator (by decide : ';' ∈ separators) rest
    let sign : PrefixOperator := ⟨⟨.minus, String.ofList ['-'], none, start.spanOf ['-']⟩, .negate,
      (by decide : (Token.Kind.minus, UnaryOp.negate) ∈ Grammar.prefixOperators)⟩
    let number : Token :=
      ⟨.number, String.ofList text, some (.number x), (start.after ['-']).spanOf text⟩
    exact ⟨.signed sign (.primary (.literal number (.number x) rfl)),
      .token hsign (.token hnumber hrest), fun _ ↦ rfl, fun counter ↦ Nat.le_refl _⟩

/-- The source that prints a value. -/
def Value.printing (value : Value) : String := "print " ++ value.literal ++ ";"

theorem exists_reads_printing {value : Value} (h : value.Readable) :
    ∃ (keyword : Word .kwPrint) (operand : Phrase .unary) (closing : Word .semicolon)
        (mark : Token),
      Reads .origin value.printing.toList
        ((Passage.printing keyword operand closing).tokens ++ [mark]) [] ∧
      (∀ env, operand.tree.eval env = (.ok value, env)) ∧
      ∀ counter, operand.peak counter ≤ counter + 1 := by
  have hkeyword : Lexeme "print".toList (.token .kwPrint none) := .keyword (by decide)
  have hsemicolon : Lexeme [';'] (.token .semicolon none) := .symbol (by decide)
  have hsource : value.printing.toList =
      "print".toList ++ ' ' :: (value.literal.toList ++ [';']) := by
    rw [Value.printing, String.toList_append, String.toList_append]
    rfl
  let middle := (Cursor.origin.after "print".toList).after [' ']
  let stop := middle.after value.literal.toList
  let keyword : Word .kwPrint :=
    ⟨⟨.kwPrint, String.ofList "print".toList, none, Cursor.origin.spanOf "print".toList⟩, rfl⟩
  let closing : Word .semicolon :=
    ⟨⟨.semicolon, String.ofList [';'], none, stop.spanOf [';']⟩, rfl⟩
  let mark : Token := .endMark ((stop.after [';']).spanOf [])
  have hclosing : Reads stop [';'] [closing.val, mark] [] :=
    .token hsemicolon.longest_at_end .finish
  obtain ⟨operand, hoperand, heval, hpeak⟩ := (spells_literal h).exists_reads hclosing
  refine ⟨keyword, operand, closing, mark, ?_, heval, hpeak⟩
  rw [hsource, Passage.tokens_printing, List.cons_append, List.append_assoc]
  exact .token (hkeyword.longest_before_separator (by decide) _) (.skip (longest_blank _) hoperand)

theorem ofSource_printing {value : Value} (h : value.Readable) :
    ∃ expr span, Program.ofSource .script value.printing = ⟨[.print expr span], []⟩ ∧
      ∀ env, expr.eval env = (.ok value, env) := by
  obtain ⟨keyword, operand, closing, mark, hreads, heval, hpeak⟩ := exists_reads_printing h
  obtain ⟨hstream, hfaults⟩ := hreads.eq_pieces
  obtain ⟨htokens, hmark⟩ := List.append_inj' hstream rfl
  have hkinds : ∀ token ∈ (Passage.printing keyword operand closing).tokens, token.kind ≠ .eof := by
    intro token htoken
    rw [htokens] at htoken
    exact Scan.kind_ne_eof htoken
  have heof : mark.kind = .eof := by
    rw [(List.cons.inj hmark).1]
    rfl
  have hlimit : (Passage.printing keyword operand closing).peak 0 ≤ nestingLimit := by
    rw [Passage.peak_printing]
    exact Nat.le_trans (hpeak 2) (by decide)
  have hparse :=
    Program.parse_eq_tree (Passage.nearest_printing keyword operand closing) hkinds heof hlimit
  have hscan : Program.parse .script (Scan.ofSource value.printing).stream = _ :=
    (congrArg (Program.parse .script) hstream.symm).trans hparse
  have hclean : (Scan.ofSource value.printing).faults = [] := hfaults.symm
  refine ⟨operand.tree, keyword.val.span.cover closing.val.span, ?_, heval⟩
  rw [Program.ofSource, hscan, hclean]
  rfl

/-! ## Running -/

/-- An expression without effects is printed on a sink that takes everything. -/
theorem execAll_print {expr : Expr} {value : Value}
    (heval : ∀ env, expr.eval env = (.ok value, env)) (rounds : Nat) (span : Span)
    {machine : Machine} (hfree : machine.sink.Free) :
    ∃ after, Stmt.execAll rounds [.print expr span] machine = some (.ok (), after) ∧
      after.evaluator =
        ⟨machine.environment, machine.sink.add (Text.Utf8.encode (value.text ++ "\n"))⟩ := by
  have hsaid := hfree.say (value.text ++ "\n")
  refine ⟨{ machine.log (.executing .print) with
    sink := machine.sink.add (Text.Utf8.encode (value.text ++ "\n")) }, ?_, ?_⟩
  · simp only [Stmt.execAll, Stmt.exec, Execution.andThen, Execution.logging,
      Execution.evaluating, heval, Execution.writing, Machine.sink_log, hsaid]
    rfl
  · simp [Machine.evaluator]

theorem run_print {source : String} {expr : Expr} {span : Span} {value : Value}
    (hprogram : Program.ofSource .script source = ⟨[.print expr span], []⟩)
    (heval : ∀ env, expr.eval env = (.ok value, env)) (rounds : Nat) {machine : Machine}
    (hfree : machine.sink.Free) :
    ∃ after, run rounds source [] machine = some ([], after) ∧
      after.evaluator =
        ⟨machine.environment, machine.sink.add (Text.Utf8.encode (value.text ++ "\n"))⟩ := by
  let ready := (machine.read .script source).2.log (.evaluating 1)
  have hready : ready.evaluator = machine.evaluator := by
    rw [Machine.evaluator_log, Machine.evaluator_read]
  have hsink : ready.sink = machine.sink := congrArg Evaluator.sink hready
  have henvironment : ready.environment = machine.environment :=
    congrArg Evaluator.environment hready
  rw [← hsink] at hfree
  obtain ⟨after, hexec, hafter⟩ := execAll_print heval rounds span hfree
  rw [hsink, henvironment] at hafter
  refine ⟨after, ?_, hafter⟩
  rw [run_eq, hprogram]
  exact congrArg (collectFaults []) hexec

/-- A source that prints the text of a value, a string between quotes, has no fault. What it prints
is an expression that evaluates to that very value, a number to the same bits, and the line that it
writes is the text again. -/
theorem printed_value_reads_back (value : Value) (h : value.Readable) (rounds : Nat)
    (machine : Machine) (hfree : machine.sink.Free) :
    ∃ expr span after,
      Program.ofSource .script value.printing = ⟨[.print expr span], []⟩ ∧
      (∀ env, expr.eval env = (.ok value, env)) ∧
      run rounds value.printing [] machine = some ([], after) ∧
      after.environment = machine.environment ∧
      after.sink = machine.sink.add (Text.Utf8.encode (value.text ++ "\n")) := by
  obtain ⟨expr, span, hprogram, heval⟩ := ofSource_printing h
  obtain ⟨after, hrun, hafter⟩ := run_print hprogram heval rounds hfree
  exact ⟨expr, span, after, hprogram, heval, hrun, congrArg Evaluator.environment hafter,
    congrArg Evaluator.sink hafter⟩

theorem printed_value_reads_back_negativeZero :
    (Value.number (Float.ofBits 0x8000000000000000)).Readable ∧
      (∃ expr span after, Program.ofSource .script "print -0;" = ⟨[.print expr span], []⟩ ∧
        expr.eval .globals = (.ok (.number (Float.ofBits 0x8000000000000000)), .globals) ∧
        run 0 "print -0;" [] {} = some ([], after) ∧
        after.sink.written.toList = Text.Utf8.encode "-0\n") ∧
    (Value.string "é\n//").Readable ∧
      ∃ after, run 0 "print \"é\n//\";" [] {} = some ([], after) ∧
        after.sink.written.toList = Text.Utf8.encode "é\n//\n" := by
  have hzero : (Value.number (Float.ofBits 0x8000000000000000)).Readable := by decide +kernel
  have hzeroSource : (Value.number (Float.ofBits 0x8000000000000000)).printing = "print -0;" := by
    decide +kernel
  have hstring : (Value.string "é\n//").Readable := by decide +kernel
  have hstringSource : (Value.string "é\n//").printing = "print \"é\n//\";" := by decide +kernel
  obtain ⟨expr, span, after, hprogram, heval, hrun, -, hsink⟩ :=
    printed_value_reads_back _ hzero 0 {} ⟨rfl, rfl⟩
  obtain ⟨-, -, stringAfter, -, -, hstringRun, -, hstringSink⟩ :=
    printed_value_reads_back _ hstring 0 {} ⟨rfl, rfl⟩
  rw [hzeroSource] at hprogram hrun
  rw [hstringSource] at hstringRun
  refine ⟨hzero, ⟨expr, span, after, hprogram, heval _, hrun, ?_⟩, hstring, stringAfter,
    hstringRun, ?_⟩
  · rw [hsink]
    decide +kernel
  · rw [hstringSink]
    decide +kernel

end LoxLang
