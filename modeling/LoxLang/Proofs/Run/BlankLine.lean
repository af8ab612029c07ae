import LoxLang.Proofs.Run.Semantics
import LoxLang.Proofs.Run.Session
import LoxLang.Proofs.Scan.Lexicon

/-!
# Lines that a session passes over

A session passes over a line of nothing but white space, that is, of characters with the property
`White_Space`. Scanning skips four of these characters and takes each of the others for a fault. So
to pass over a line and to run it is the same for the evaluator, but not for the reports: the
session does not tell of the faults at those other characters, which a script of the same text has.
-/

namespace LoxLang

open Lexicon (blanks)

/-! ## Scanning white space -/

namespace Scan

/-- A white space character is skipped, or it is a fault by itself. -/
theorem munch_isBlankChar {c : Char} (h : Text.isBlankChar c) (input : List Char) :
    munch c input =
      ⟨if c ∈ blanks then .skipped else .bad (.unexpectedCharacter c), [], input⟩ := by
  obtain ⟨hrest, hshape⟩ := munch_blank h input
  have hmore : (munch c input).more = [] := by
    have hparts := munch_partition c input
    rw [hrest] at hparts
    exact List.append_left_eq_self.mp hparts
  by_cases hskipped : c ∈ blanks
  · have hproper := (covers_blank input c hskipped).proper
    rw [if_pos hskipped]
    generalize munch c input = found at *
    obtain ⟨shape, more, rest⟩ := found
    obtain rfl : more = [] := hmore
    obtain rfl : rest = input := hrest
    cases shape with
    | skipped => rfl
    | token kind literal => exact absurd rfl (hshape kind literal)
    | bad issue => exact absurd rfl (hproper issue)
  · rw [if_neg hskipped]
    rcases munch_lexeme c input with hlexeme | ⟨rfl, -⟩ | ⟨-, hbad⟩
    · rw [hmore] at hlexeme
      generalize (munch c input).shape = shape at hlexeme hshape
      generalize htext : [c] = text at hlexeme
      cases hlexeme with
      | blank listed =>
        cases htext
        exact absurd listed hskipped
      | comment line => cases htext
      | _ => exact absurd rfl (hshape _ _)
    · exact absurd h (by decide)
    · exact hbad

theorem issues_of_isBlank {input : List Char} (start : Cursor) (h : Text.isBlank input) :
    ((pieces start input).filterMap Piece.fault?).map Fault.issue =
      (input.filter fun c ↦ c ∉ blanks).map .unexpectedCharacter := by
  induction input generalizing start with
  | nil =>
    rw [pieces]
    rfl
  | cons c input ih =>
    obtain ⟨hc, hinput⟩ := List.forall_mem_cons.mp (List.all_eq_true.mp h)
    have hothers := ih (start.after [c]) (List.all_eq_true.mpr hinput)
    rw [pieces, munch_isBlankChar hc]
    by_cases hskipped : c ∈ blanks
    · have hnone : Piece.fault? ⟨start, [c], .skipped⟩ = none := rfl
      rw [if_pos hskipped, List.filterMap_cons_none hnone, List.filter_cons_of_neg (by simpa)]
      exact hothers
    · have hsome : Piece.fault? ⟨start, [c], .bad (.unexpectedCharacter c)⟩ =
          some (.plain (start.spanOf [c]) (.unexpectedCharacter c)) := rfl
      rw [if_neg hskipped, List.filterMap_cons_some hsome, List.filter_cons_of_pos (by simpa),
        List.map_cons, List.map_cons, hothers]
      rfl

end Scan

/-! ## Running white space -/

theorem Machine.evaluator_execProgram_nil (machine : Machine) (rounds : Nat)
    (faults : List Fault) :
    ∃ after, collectFaults faults (machine.execProgram rounds []) = some (faults, after) ∧
      after.evaluator = machine.evaluator :=
  ⟨_, rfl, evaluator_log machine _⟩

section

variable {source : String} (h : Text.isBlank source.toList) (rounds : Nat) (machine : Machine)

include h

theorem runLine_of_isBlank :
    ∃ after, runLine rounds source machine = some ((Scan.ofSource source).faults, after) ∧
      after.evaluator = machine.evaluator := by
  rw [runLine_eq, Program.ofSource_of_isBlank h, ← machine.evaluator_read .interactive source]
  dsimp only
  split
  · exact ⟨_, rfl, rfl⟩
  · exact Machine.evaluator_execProgram_nil _ rounds _

theorem run_of_isBlank :
    ∃ after, run rounds source [] machine = some ((Scan.ofSource source).faults, after) ∧
      after.evaluator = machine.evaluator := by
  rw [run_eq, Program.ofSource_of_isBlank h, ← machine.evaluator_read .script source]
  dsimp only
  split
  · exact ⟨_, rfl, Machine.evaluator_log _ _⟩
  · exact Machine.evaluator_execProgram_nil _ rounds _

end

theorem Machine.evaluator_decodeSource (bytes : List UInt8) (machine : Machine) :
    (decodeSource bytes machine).2.evaluator = machine.evaluator := by
  unfold decodeSource
  split
  · rfl
  · exact evaluator_log machine _

/-- The text of a line that comes in. -/
def Session.lineText (line : List UInt8) : String :=
  String.ofList (chomp (Text.Utf8.decode line).toList)

open Session (lineText typed)

/-- A session passes over a blank line and stays as it is. If it ran the line instead, the
evaluator would be the same, and so it would be behind a script of the same text. But both report
each white space character that scanning does not skip, so that nothing is reported only if there
is none. -/
theorem blank_line_conceals_faults (rounds : Nat) (config : Config) (line : List UInt8)
    (machine : Machine) (h : Text.isBlank (lineText line).toList) :
    ∃ passed after script faults,
      Session.step rounds config line machine = some (.ok (), passed) ∧
      runLine rounds (lineText line) passed = some (faults, after) ∧
      run rounds (lineText line) [] passed = some (faults, script) ∧
      passed.evaluator = machine.evaluator ∧ after.evaluator = machine.evaluator ∧
      script.evaluator = machine.evaluator ∧
      faults.map Fault.issue =
        ((lineText line).toList.filter fun c ↦ c ∉ blanks).map .unexpectedCharacter ∧
      (faults = [] ↔ ∀ c ∈ (lineText line).toList, c ∈ blanks) := by
  have hpassed := machine.evaluator_decodeSource line
  obtain ⟨after, hafter, hafterSame⟩ := runLine_of_isBlank h rounds (decodeSource line machine).2
  obtain ⟨script, hscript, hscriptSame⟩ := run_of_isBlank h rounds (decodeSource line machine).2
  have hissues : (Scan.ofSource (lineText line)).faults.map Fault.issue = _ :=
    Scan.issues_of_isBlank .origin h
  refine ⟨_, after, script, _, ?_, hafter, hscript, hpassed, hafterSame.trans hpassed,
    hscriptSame.trans hpassed, hissues, ?_⟩
  · rw [lineText, String.toList_ofList] at h
    exact if_pos h
  · rw [← List.map_eq_nil_iff, hissues, List.map_eq_nil_iff, List.filter_eq_nil_iff]
    simp

theorem blank_line_conceals_faults_formFeed :
    Text.isBlank (lineText (typed " \u00a0\t\u000c")).toList ∧
    ∃ passed after faults,
      Session.step 0 {} (typed " \u00a0\t\u000c") {} = some (.ok (), passed) ∧
      runLine 0 (lineText (typed " \u00a0\t\u000c")) passed = some (faults, after) ∧
      faults.map Fault.issue = [.unexpectedCharacter '\u00a0', .unexpectedCharacter '\u000c'] := by
  have hblank : Text.isBlank (lineText (typed " \u00a0\t\u000c")).toList := by decide +kernel
  have hstrays : (lineText (typed " \u00a0\t\u000c")).toList.filter (fun c ↦ c ∉ blanks) =
      ['\u00a0', '\u000c'] := by decide +kernel
  obtain ⟨passed, after, -, faults, hstep, hline, -, -, -, -, hissues, -⟩ :=
    blank_line_conceals_faults 0 {} _ {} hblank
  rw [hstrays] at hissues
  exact ⟨hblank, passed, after, faults, hstep, hline, hissues⟩

/-- A line with a no-break space alone is passed over, although to run it reports a fault. -/
theorem not_forall_blank_line_clean :
    ¬∀ (line : List UInt8) (machine : Machine), Text.isBlank (lineText line).toList →
      ∃ after, runLine 0 (lineText line) machine = some ([], after) ∧
        after.evaluator = machine.evaluator := by
  intro hall
  obtain ⟨after, hafter, -⟩ := hall (typed "\u00a0") {} (by decide +kernel)
  have hfaults : (runLine 0 (lineText (typed "\u00a0")) {}).map (·.1.length) = some 1 := by
    decide +kernel
  rw [hafter] at hfaults
  cases hfaults

end LoxLang
