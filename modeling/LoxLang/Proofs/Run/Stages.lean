import LoxLang.Proofs.Run.Location
import LoxLang.Proofs.Run.Semantics
import LoxLang.Proofs.Scan.Partition

/-!
# Stages of a unit

Scanning raises faults of scanning, parsing those of the grammar, and a run ends in a fault of its
own. A unit is run only if no fault of the first two stages is known, from its source or from
before. So its faults are of the first two stages, or it has one of the third at most, and the
exit status tells which.
-/

namespace LoxLang

/-! ## Scanning and parsing -/

theorem Scan.stage_fault {source : String} {fault : Fault} (h : fault ∈ (ofSource source).faults) :
    fault.stage = .scanning := by
  obtain ⟨piece, hpiece, hshape, -⟩ := exists_piece_of_fault h
  obtain ⟨before, rest, -, -, hfront⟩ := exists_front_of_mem hpiece
  rw [hshape] at hfront
  generalize piece.text = text at hfront
  rw [Fault.stage]
  generalize fault.issue = issue at hfront
  cases hfront with
  | lexeme found => exact absurd rfl (found.lexeme.ne_bad issue)
  | unexpected => rfl
  | unterminated => rfl

theorem Issue.stage_of_isGrammatical {issue : Issue} (h : issue.isGrammatical) :
    issue.stage = .parsing := by
  cases issue with
  | other => cases h
  | _ => exact of_decide_eq_true h

theorem Program.stage_parse (mode : Grammar.Mode) (tokens : List Token) :
    ∀ fault ∈ (parse mode tokens).faults, fault.stage = .parsing :=
  fun fault hfault ↦
    Issue.stage_of_isGrammatical (arises_parse mode tokens fault hfault).grammatical

theorem Program.stage_ofSource {mode : Grammar.Mode} {source : String} {fault : Fault}
    (h : fault ∈ (ofSource mode source).faults) : fault.stage ≠ .running := by
  rcases List.mem_append.mp h with hscan | hparse
  · rw [Scan.stage_fault hscan]
    decide
  · rw [stage_parse mode _ fault hparse]
    decide

/-! ## Running -/

theorem UnaryOp.stage_of_apply {op : UnaryOp} {value : Value} {issue : Issue}
    (h : op.apply value = .error issue) : issue.stage = .running := by
  unfold apply at h
  split at h <;> cases h
  rfl

theorem stage_of_onNumbers {op : Float → Float → Value} {left right : Value} {issue : Issue}
    (h : onNumbers op left right = .error issue) : issue.stage = .running := by
  unfold onNumbers at h
  split at h <;> cases h
  rfl

theorem stage_of_addValues {left right : Value} {issue : Issue}
    (h : addValues left right = .error issue) : issue.stage = .running := by
  unfold addValues at h
  split at h <;> cases h
  rfl

theorem BinaryOp.stage_of_apply {op : BinaryOp} {left right : Value} {issue : Issue}
    (h : op.apply left right = .error issue) : issue.stage = .running := by
  cases op with
  | add => exact stage_of_addValues h
  | equal => cases h
  | notEqual => cases h
  | _ => exact stage_of_onNumbers h

theorem stage_of_located {span : Span} {result : Except Issue Value} {fault : Fault}
    (hresult : ∀ issue, result = .error issue → issue.stage = .running)
    (h : located span result = .error fault) : fault.stage = .running := by
  cases result with
  | ok value => cases h
  | error issue =>
    cases h
    exact hresult issue rfl

theorem Expr.stage_of_eval {expr : Expr} {env after : Environment} {fault : Fault}
    (h : expr.eval env = (.error fault, after)) : fault.stage = .running := by
  induction expr generalizing env after fault with
  | literal value span => cases h
  | grouping inner span ih => exact ih h
  | reference name span =>
    rw [eval] at h
    split at h <;> cases h
    rfl
  | assign name value span ih =>
    rw [eval] at h
    refine allowed_of_sequel (fun _ _ ↦ ih) (fun assigned env fault after h ↦ ?_) h
    split at h <;> cases h
    rfl
  | unary op operand span ih =>
    rw [eval] at h
    refine allowed_of_sequel (fun _ _ ↦ ih) (fun value env fault after h ↦ ?_) h
    exact stage_of_located (fun _ ↦ op.stage_of_apply) (Prod.mk.inj h).1
  | binary op left right span hleft hright =>
    rw [eval] at h
    refine allowed_of_sequel (fun _ _ ↦ hleft) (fun leftValue env fault after h ↦ ?_) h
    refine allowed_of_sequel (fun _ _ ↦ hright) (fun value env fault after h ↦ ?_) h
    exact stage_of_located (fun _ ↦ op.stage_of_apply) (Prod.mk.inj h).1
  | logical op left right span hleft hright =>
    rw [eval] at h
    refine allowed_of_sequel (fun _ _ ↦ hleft) (fun leftValue env fault after h ↦ ?_) h
    split at h
    · cases h
    · exact hright h

theorem Stmt.Runs.stage {stmts : List Stmt} {state after : Evaluator} {lines : List String}
    {fault : Fault} (h : Runs stmts state lines (.error fault) after) : fault.stage = .running := by
  generalize hended : Except.error fault = ended at h
  induction h with
  | finish => cases hended
  | fault subject evaluated =>
    cases hended
    exact Expr.stage_of_eval evaluated
  | unwritten =>
    cases hended
    rfl
  | block _ _ _ ih => exact ih hended
  | unwind _ ih => exact ih hended
  | expression _ _ ih | print _ _ _ ih | declareNil _ ih | declare _ _ ih | branch _ _ ih
  | leave _ _ _ ih | again _ _ _ ih => exact ih hended

/-! ## Units -/

/-- A fault that keeps a unit from being run was found before it, or is found in its source. -/
def Barred (before : List Fault) (source : String) : Prop :=
  (∃ fault ∈ before, fault.stage ≠ .running) ∨ (Program.ofSource .script source).faults ≠ []

theorem hadStaticFault_iff {faults : List Fault} :
    hadStaticFault faults ↔ ∃ fault ∈ faults, fault.stage ≠ .running := by
  simp [hadStaticFault]

theorem hadRuntimeFault_iff {faults : List Fault} :
    hadRuntimeFault faults ↔ ∃ fault ∈ faults, fault.stage = .running := by
  simp [hadRuntimeFault]

theorem hadStaticFault_iff_barred (before : List Fault) (source : String) :
    hadStaticFault (before ++ (Program.ofSource .script source).faults) ↔ Barred before source := by
  rw [hadStaticFault_iff]
  constructor
  · rintro ⟨fault, hfault, hstage⟩
    rcases List.mem_append.mp hfault with hbefore | hsource
    · exact .inl ⟨fault, hbefore, hstage⟩
    · exact .inr (List.ne_nil_of_mem hsource)
  · rintro (⟨fault, hfault, hstage⟩ | hne)
    · exact ⟨fault, List.mem_append_left _ hfault, hstage⟩
    · obtain ⟨fault, hfault⟩ := List.exists_mem_of_ne_nil _ hne
      exact ⟨fault, List.mem_append_right _ hfault, Program.stage_ofSource hfault⟩

section

variable {rounds : Nat} {source : String} {before faults : List Fault} {machine after : Machine}

theorem run_of_barred (hbarred : Barred before source)
    (h : run rounds source before machine = some (faults, after)) :
    faults = before ++ (Program.ofSource .script source).faults ∧
      after.evaluator = machine.evaluator := by
  simp only [run, Machine.read_fst, (hadStaticFault_iff_barred before source).mpr hbarred,
    if_true] at h
  cases h
  simp

theorem run_of_clear (hclear : ¬Barred before source)
    (h : run rounds source before machine = some (faults, after)) :
    ∃ lines ended, faults = before ++ raised ended ∧
      Stmt.Runs (Program.ofSource .script source).statements machine.evaluator lines ended
        after.evaluator := by
  have hstatic : ¬hadStaticFault (before ++ (Program.ofSource .script source).faults) :=
    fun hfault ↦ hclear ((hadStaticFault_iff_barred before source).mp hfault)
  have hsource : (Program.ofSource .script source).faults = [] :=
    Decidable.byContradiction fun hne ↦ hclear (.inr hne)
  simp only [run, Machine.read_fst, hstatic, if_false, Bool.false_eq_true] at h
  obtain ⟨ended, hended, hfaults⟩ := exists_of_collectFaults h
  rw [hsource, List.append_nil] at hfaults
  obtain ⟨lines, hlines⟩ := Stmt.follows_execAll rounds _ _ ended after hended
  rw [Machine.evaluator_log, Machine.evaluator_read] at hlines
  exact ⟨lines, ended, hfaults, hlines⟩

theorem exitCode_of_static {faults : List Fault} (hne : faults ≠ [])
    (h : ∀ fault ∈ faults, fault.stage ≠ .running) :
    exitCode faults = 65 ∧ ¬hadRuntimeFault faults := by
  obtain ⟨fault, hfault⟩ := List.exists_mem_of_ne_nil _ hne
  constructor
  · exact if_pos (hadStaticFault_iff.mpr ⟨fault, hfault, h fault hfault⟩)
  · intro hruntime
    obtain ⟨other, hother, hstage⟩ := hadRuntimeFault_iff.mp hruntime
    exact h other hother hstage

theorem exitCode_of_running {fault : Fault} (h : fault.stage = .running) :
    exitCode [fault] = 70 ∧ ¬hadStaticFault [fault] := by
  simp [exitCode, hadStaticFault, hadRuntimeFault, h]

/-- The exit status for the faults of a source that is run in an evaluator with no fault before
it. -/
structure ExitStatus (source : String) (state : Evaluator) (faults : List Fault) : Prop where
  unread : exitCode faults = 65 ↔ (Program.ofSource .script source).faults ≠ []
  failed : exitCode faults = 70 ↔ (Program.ofSource .script source).faults = [] ∧
    ∃ lines fault after,
      Stmt.Runs (Program.ofSource .script source).statements state lines (.error fault) after
  succeeded : exitCode faults = 0 ↔ (Program.ofSource .script source).faults = [] ∧
    ∃ lines after,
      Stmt.Runs (Program.ofSource .script source).statements state lines (.ok ()) after
  apart : ¬(hadStaticFault faults ∧ hadRuntimeFault faults)

theorem exitStatus_of_static (hne : (Program.ofSource .script source).faults ≠ [])
    (state : Evaluator) : ExitStatus source state (Program.ofSource .script source).faults := by
  obtain ⟨hcode, hruntime⟩ := exitCode_of_static hne fun _ ↦ Program.stage_ofSource
  constructor
  · exact iff_of_true hcode hne
  · exact iff_of_false (by rw [hcode]; decide) fun hclean ↦ hne hclean.1
  · exact iff_of_false (by rw [hcode]; decide) fun hclean ↦ hne hclean.1
  · exact fun hboth ↦ hruntime hboth.2

theorem exitStatus_of_runs {state final : Evaluator} {lines : List String}
    {ended : Except Fault Unit} (hclean : (Program.ofSource .script source).faults = [])
    (hruns : Stmt.Runs (Program.ofSource .script source).statements state lines ended final) :
    ExitStatus source state (raised ended) := by
  cases ended with
  | ok =>
    change ExitStatus source state []
    constructor
    · exact iff_of_false (by decide) fun hne ↦ hne hclean
    · apply iff_of_false (by decide)
      rintro ⟨-, otherLines, fault, other, hother⟩
      cases (hruns.unique hother).2.1
    · exact iff_of_true rfl ⟨hclean, lines, final, hruns⟩
    · decide
  | error fault =>
    obtain ⟨hcode, hstatic⟩ := exitCode_of_running hruns.stage
    rw [raised]
    constructor
    · exact iff_of_false (by rw [hcode]; decide) fun hne ↦ hne hclean
    · exact iff_of_true hcode ⟨hclean, lines, fault, final, hruns⟩
    · apply iff_of_false (by rw [hcode]; decide)
      rintro ⟨-, otherLines, other, hother⟩
      cases (hruns.unique hother).2.1
    · exact fun hboth ↦ hstatic hboth.1

theorem exitStatus_of_run (h : run rounds source [] machine = some (faults, after)) :
    ExitStatus source machine.evaluator faults := by
  by_cases hclean : (Program.ofSource .script source).faults = []
  · have hclear : ¬Barred [] source := by
      rintro (⟨fault, hfault, -⟩ | hne)
      · cases hfault
      · exact hne hclean
    obtain ⟨lines, ended, rfl, hruns⟩ := run_of_clear hclear h
    exact exitStatus_of_runs hclean hruns
  · obtain ⟨rfl, -⟩ := run_of_barred (.inr hclean) h
    exact exitStatus_of_static hclean machine.evaluator

theorem stage_of_mem_raised {stmts : List Stmt} {state final : Evaluator} {lines : List String}
    {ended : Except Fault Unit} (h : Stmt.Runs stmts state lines ended final) :
    ∀ fault ∈ raised ended, fault.stage = .running := by
  cases ended with
  | ok => exact List.forall_mem_nil _
  | error fault => exact List.forall_mem_singleton.mpr h.stage

/-- The stages of a unit. Whatever faults are known before it, a unit that is barred adds the
faults of its source, those of scanning first, and leaves the evaluator as it is. Any other unit is
run: it adds one fault of the run at most, and the lines that it prints are added to the output. -/
theorem run_stages (rounds : Nat) (source : String) (before : List Fault) (machine : Machine)
    (faults : List Fault) (after : Machine)
    (h : run rounds source before machine = some (faults, after)) :
    ∃ found, faults = before ++ found ∧
      (Barred before source →
        (∃ scanned parsed, found = scanned ++ parsed ∧
          (∀ fault ∈ scanned, fault.stage = .scanning) ∧
          ∀ fault ∈ parsed, fault.stage = .parsing) ∧
        after.evaluator = machine.evaluator) ∧
      (¬Barred before source → ∃ lines ended rest,
        Stmt.Runs (Program.ofSource .script source).statements machine.evaluator lines ended
          after.evaluator ∧
        found = raised ended ∧ (∀ fault ∈ found, fault.stage = .running) ∧
        Residue ended rest ∧ after.sink = machine.sink.add (Sink.bytesOf lines ++ rest)) ∧
      (before = [] → ExitStatus source machine.evaluator faults) := by
  have hexit (hfresh : before = []) : ExitStatus source machine.evaluator faults := by
    subst hfresh
    exact exitStatus_of_run h
  by_cases hbarred : Barred before source
  · obtain ⟨hfaults, hevaluator⟩ := run_of_barred hbarred h
    refine ⟨_, hfaults, fun _ ↦ ⟨?_, hevaluator⟩, fun hclear ↦ absurd hbarred hclear, hexit⟩
    exact ⟨_, _, rfl, fun _ ↦ Scan.stage_fault, Program.stage_parse .script _⟩
  · obtain ⟨lines, ended, hfaults, hruns⟩ := run_of_clear hbarred h
    obtain ⟨rest, hrest, houtput⟩ := hruns.output
    refine ⟨raised ended, hfaults, fun hbars ↦ absurd hbars hbarred, fun _ ↦ ?_, hexit⟩
    exact ⟨lines, ended, rest, hruns, rfl, stage_of_mem_raised hruns, hrest, houtput⟩

/-- A fault in a block ends a script behind its first line. -/
theorem run_stages_negation :
    let source := "print \"a\"; \x7b -\"b\"; \x7d print \"c\";"
    ∃ faults after, run 0 source [] {} = some (faults, after) ∧
      faults.map Fault.issue = [.badNegation .string] ∧ after.sink.written.toList = [97, 10] ∧
      ∃ lines fault rest, Stmt.Runs (Program.ofSource .script source).statements
          (Machine.evaluator {}) lines (.error fault) after.evaluator ∧
        after.sink = Sink.unlimited.add (Sink.bytesOf lines ++ rest) ∧ exitCode faults = 70 := by
  intro source
  have hrun : (run 0 source [] {}).map
      (fun unit ↦ (unit.1.map Fault.issue, unit.2.sink.written.toList)) =
        some ([.badNegation .string], [97, 10]) := by decide +kernel
  have hclear : ¬Barred [] source := by
    rw [← hadStaticFault_iff_barred]
    decide +kernel
  obtain ⟨⟨faults, after⟩, hsome, heq⟩ := Option.map_eq_some_iff.mp hrun
  obtain ⟨hissues, hwritten⟩ := Prod.mk.inj heq
  obtain ⟨found, rfl, -, hclean, hexit⟩ := run_stages 0 source [] {} faults after hsome
  obtain ⟨lines, ended, rest, hruns, rfl, -, -, houtput⟩ := hclean hclear
  cases ended with
  | ok => cases hissues
  | error fault =>
    have hcode := (hexit rfl).failed.mpr ⟨by decide +kernel, lines, fault, _, hruns⟩
    exact ⟨_, after, hsome, hissues, hwritten, lines, fault, rest, hruns, houtput, hcode⟩

end

end LoxLang
