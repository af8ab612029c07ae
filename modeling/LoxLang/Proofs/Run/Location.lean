import LoxLang.Run
import LoxLang.Proofs.Grammar.Location
import LoxLang.Proofs.Grammar.Soundness

/-!
# Locations of the faults of a run

A run ends in a fault at a node of the program, so its faults are as well placed as the
nodes. Together with the faults of scanning and parsing this gives the place of every fault
of a unit, for scripts and for lines of interactive input, and whatever the state of the
machine.
-/

namespace LoxLang

/-! ## Evaluation -/

section

variable {allowed : Fault → Prop}

theorem allowed_of_located {span : Span} {result : Except Issue Value} {fault : Fault}
    (hspan : ∀ issue, allowed (.plain span issue)) (h : located span result = .error fault) :
    allowed fault := by
  cases result with
  | ok value => cases h
  | error issue =>
    obtain rfl : Fault.plain span issue = fault := Except.error.inj h
    exact hspan issue

/-- An evaluation that goes on with the value of a part ends in a fault of the part or of what
follows. -/
theorem allowed_of_sequel {first : Except Fault Value × Environment}
    {next : Value → Environment → Except Fault Value × Environment}
    (hfirst : ∀ fault env, first = (.error fault, env) → allowed fault)
    (hnext : ∀ value env fault after, next value env = (.error fault, after) → allowed fault)
    {fault : Fault} {after : Environment}
    (h : (match first with
      | (.error fault, env) => (.error fault, env)
      | (.ok value, env) => next value env) = (.error fault, after)) : allowed fault := by
  split at h
  · cases h
    exact hfirst fault after rfl
  · exact hnext _ _ fault after h

/-- The fault in which an evaluation ends is at one of the nodes. -/
theorem Expr.allowed_of_eval {expr : Expr}
    (hspans : ∀ span ∈ expr.spans, ∀ issue, allowed (.plain span issue)) {env after : Environment}
    {fault : Fault} (h : expr.eval env = (.error fault, after)) : allowed fault := by
  induction expr generalizing env after fault with
  | literal value span => cases h
  | grouping inner span ih => exact ih (List.forall_mem_cons.mp hspans).2 h
  | reference name span =>
    rw [eval] at h
    split at h
    · cases h
    · cases h
      exact hspans span List.mem_cons_self (.undefinedVariable name)
  | assign name value span ih =>
    obtain ⟨hspan, hvalue⟩ := List.forall_mem_cons.mp hspans
    rw [eval] at h
    refine allowed_of_sequel (fun _ _ ↦ ih hvalue) (fun assigned env fault after h ↦ ?_) h
    split at h
    · cases h
    · cases h
      exact hspan (.undefinedTarget name)
  | unary op operand span ih =>
    obtain ⟨hspan, hoperand⟩ := List.forall_mem_cons.mp hspans
    rw [eval] at h
    refine allowed_of_sequel (fun _ _ ↦ ih hoperand) (fun value env fault after h ↦ ?_) h
    exact allowed_of_located hspan (Prod.mk.inj h).1
  | binary op left right span hleft hright =>
    obtain ⟨hspan, hoperands⟩ := List.forall_mem_cons.mp hspans
    obtain ⟨hleftSpans, hrightSpans⟩ := List.forall_mem_append.mp hoperands
    rw [eval] at h
    refine allowed_of_sequel (fun _ _ ↦ hleft hleftSpans) (fun leftValue env fault after h ↦ ?_) h
    refine allowed_of_sequel (fun _ _ ↦ hright hrightSpans) (fun value env fault after h ↦ ?_) h
    exact allowed_of_located hspan (Prod.mk.inj h).1
  | logical op left right span hleft hright =>
    obtain ⟨hspan, hoperands⟩ := List.forall_mem_cons.mp hspans
    obtain ⟨hleftSpans, hrightSpans⟩ := List.forall_mem_append.mp hoperands
    rw [eval] at h
    refine allowed_of_sequel (fun _ _ ↦ hleft hleftSpans) (fun leftValue env fault after h ↦ ?_) h
    split at h
    · cases h
    · exact hright hrightSpans h

end

/-! ## Execution -/

namespace Execution

variable {allowed : Fault → Prop}

/-- The execution ends in no fault but an allowed one. -/
def Raises (allowed : Fault → Prop) (execution : Execution) : Prop :=
  ∀ machine fault after, execution machine = some (.error fault, after) → allowed fault

theorem raises_finish : finish.Raises allowed := by
  intro machine fault after h
  cases h

theorem raises_defining (name : String) (value : Value) :
    (defining name value).Raises allowed := by
  intro machine fault after h
  cases h

theorem Raises.logging {next : Execution} (entry : Log.Entry) (h : next.Raises allowed) :
    (logging entry next).Raises allowed :=
  fun machine ↦ h (machine.log entry)

theorem Raises.andThen {first second : Execution} (hfirst : first.Raises allowed)
    (hsecond : second.Raises allowed) : (first.andThen second).Raises allowed := by
  intro machine fault after h
  unfold Execution.andThen at h
  split at h
  · exact hsecond _ fault after h
  · exact hfirst machine fault after h

theorem raises_evaluating {expr : Expr} {next : Value → Execution}
    (hexpr : ∀ span ∈ expr.spans, ∀ issue, allowed (.plain span issue))
    (hnext : ∀ value, (next value).Raises allowed) : (evaluating expr next).Raises allowed := by
  intro machine fault after h
  unfold evaluating at h
  split at h
  · exact hnext _ _ fault after h
  · next heval =>
    cases h
    exact Expr.allowed_of_eval hexpr heval

theorem raises_writing {span : Span} (hspan : ∀ issue, allowed (.plain span issue)) (value : Value) :
    (writing span value).Raises allowed := by
  intro machine fault after h
  unfold writing at h
  split at h
  · cases h
  · next reason sink _ =>
    cases h
    exact hspan (.outputFailed reason)

theorem Raises.inScope {inside : Execution} (h : inside.Raises allowed) :
    (inScope inside).Raises allowed := by
  intro machine fault after hscope
  unfold Execution.inScope at hscope
  obtain ⟨⟨ended, inner⟩, hended, heq⟩ := Option.map_eq_some_iff.mp hscope
  cases heq
  exact h _ fault _ hended

theorem raises_whileLoop {condition : Expr} {body : Execution}
    (hcondition : ∀ span ∈ condition.spans, ∀ issue, allowed (.plain span issue))
    (hbody : body.Raises allowed) (rounds : Nat) :
    (whileLoop condition body rounds).Raises allowed := by
  induction rounds with
  | zero =>
    intro machine fault after h
    cases h
  | succ rounds ih =>
    intro machine fault after h
    unfold whileLoop at h
    split at h
    · next heval =>
      cases h
      exact Expr.allowed_of_eval hcondition heval
    · split at h
      · split at h
        · exact ih _ fault after h
        · exact hbody _ fault after h
      · cases h

end Execution

namespace Stmt

open Execution

variable {allowed : Fault → Prop}

mutual

/-- The fault in which a statement ends is at one of its nodes. -/
theorem raises_exec (rounds : Nat) (stmt : Stmt)
    (h : ∀ span ∈ stmt.spans, ∀ issue, allowed (.plain span issue)) :
    (stmt.exec rounds).Raises allowed := by
  cases stmt with
  | expression expr span =>
    have hexpr := (List.forall_mem_cons.mp h).2
    exact (raises_evaluating hexpr fun _ ↦ raises_finish).logging _
  | print expr span =>
    obtain ⟨hspan, hexpr⟩ := List.forall_mem_cons.mp h
    exact (raises_evaluating hexpr (raises_writing hspan)).logging _
  | declare name initial span =>
    cases initial with
    | none => exact (raises_defining name .nil).logging _
    | some expr =>
      have hexpr := (List.forall_mem_cons.mp h).2
      exact (raises_evaluating hexpr (raises_defining name)).logging _
  | block body span =>
    have hbody := (List.forall_mem_cons.mp h).2
    exact (raises_execAll rounds body hbody).inScope.logging _
  | branch condition thenBranch elseBranch span =>
    cases elseBranch with
    | none =>
      have hparts := (List.forall_mem_cons.mp h).2
      obtain ⟨hcondition, hthen⟩ := List.forall_mem_append.mp hparts
      refine Raises.logging _ (raises_evaluating hcondition fun value ↦ ?_)
      split
      · exact raises_exec rounds thenBranch hthen
      · exact raises_finish
    | some elseBranch =>
      have hparts := (List.forall_mem_cons.mp h).2
      obtain ⟨hcondition, hbranches⟩ := List.forall_mem_append.mp hparts
      obtain ⟨hthen, helse⟩ := List.forall_mem_append.mp hbranches
      refine Raises.logging _ (raises_evaluating hcondition fun value ↦ ?_)
      split
      · exact raises_exec rounds thenBranch hthen
      · exact raises_exec rounds elseBranch helse
  | loop condition body span =>
    have hparts := (List.forall_mem_cons.mp h).2
    obtain ⟨hcondition, hbody⟩ := List.forall_mem_append.mp hparts
    exact (raises_whileLoop hcondition (raises_exec rounds body hbody) rounds).logging _

theorem raises_execAll (rounds : Nat) (stmts : List Stmt)
    (h : ∀ span ∈ spansOfAll stmts, ∀ issue, allowed (.plain span issue)) :
    (execAll rounds stmts).Raises allowed := by
  cases stmts with
  | nil => exact raises_finish
  | cons stmt rest =>
    obtain ⟨hstmt, hrest⟩ := List.forall_mem_append.mp h
    exact (raises_exec rounds stmt hstmt).andThen (raises_execAll rounds rest hrest)

end

end Stmt

/-! ## Units -/

theorem Scan.atEnd_endMark (source : String) :
    (Scan.ofSource source).endMark.span.AtEnd source.toList :=
  ⟨marks_endMark source, Nat.zero_add _⟩

namespace Program

theorem located_parse (mode : Grammar.Mode) (source : String) :
    (parse mode (Scan.ofSource source).stream).Located source.toList := by
  have htokens : ∀ token ∈ (Scan.ofSource source).tokens, token.kind ≠ .eof :=
    fun _ htoken ↦ Scan.kind_ne_eof htoken
  have hmark : (Scan.ofSource source).endMark.kind = .eof := rfl
  have heof := Scan.atEnd_endMark source
  simp only [parse, Scan.stream, TokenInput.ofList_append_endMark htokens hmark]
  exact located_collect heof (Grammar.locates_parts mode heof nestingLimit) _
    (Scan.stands_ofSource source)

theorem located_ofSource (mode : Grammar.Mode) (source : String) :
    (ofSource mode source).Located source.toList := by
  have hparse := located_parse mode source
  refine ⟨hparse.placed, List.forall_mem_append.mpr ⟨fun fault hfault ↦ ?_, hparse.faults⟩⟩
  obtain ⟨span, issue, rfl, hspan⟩ := Scan.mem_faults hfault
  exact Fault.located_plain issue hspan

end Program

/-- The faults of a run are added to those found before it. -/
theorem mem_of_collectFaults {before faults : List Fault} {after : Machine}
    {execution : Execution} {machine : Machine} {allowed : Fault → Prop}
    (hbefore : ∀ fault ∈ before, allowed fault) (hraises : execution.Raises allowed)
    (h : collectFaults before (execution machine) = some (faults, after)) :
    ∀ fault ∈ faults, allowed fault := by
  unfold collectFaults at h
  split at h
  · cases h
  · cases h
    exact hbefore
  · next fault _ hrun =>
    cases h
    have hfault := hraises machine fault after hrun
    exact List.forall_mem_append.mpr ⟨hbefore, List.forall_mem_singleton.mpr hfault⟩

theorem Program.Located.raises_execProgram {source : List Char} {program : Program}
    (h : program.Located source) (rounds : Nat) :
    Execution.Raises (Fault.Located source) fun machine ↦
      machine.execProgram rounds program.statements := by
  intro machine
  have hspans : ∀ span ∈ Stmt.spansOfAll program.statements, ∀ issue,
      (Fault.plain span issue).Located source :=
    fun span hspan issue ↦ Fault.located_plain issue (h.placed span hspan)
  exact Stmt.raises_execAll rounds program.statements hspans _

theorem located_of_run {rounds : Nat} {source : String} {machine after : Machine}
    {faults : List Fault} (h : run rounds source [] machine = some (faults, after)) :
    ∀ fault ∈ faults, fault.Located source.toList := by
  have hprogram := Program.located_ofSource .script source
  simp only [run] at h
  split at h
  · cases h
    exact hprogram.faults
  · exact mem_of_collectFaults hprogram.faults (hprogram.raises_execProgram rounds) h

theorem echoed?_eq_some {statements : List Stmt} {expr : Expr} {span : Span}
    (h : echoed? statements = some (expr, span)) : statements = [.expression expr span] := by
  unfold echoed? at h
  split at h
  · split at h
    · cases h
    · cases h
      rfl
  · cases h

theorem located_of_runLine {rounds : Nat} {source : String} {machine after : Machine}
    {faults : List Fault} (h : runLine rounds source machine = some (faults, after)) :
    ∀ fault ∈ faults, fault.Located source.toList := by
  have hprogram := Program.located_ofSource .interactive source
  simp only [runLine] at h
  split at h
  · cases h
    exact hprogram.faults
  · split at h
    · next expr span hechoed =>
      have hplaced : ∀ part ∈ span :: expr.spans, ∀ issue,
          (Fault.plain part issue).Located source.toList := by
        intro part hpart issue
        apply Fault.located_plain issue
        apply hprogram.placed
        rw [← Machine.read_fst machine, echoed?_eq_some hechoed]
        exact List.mem_append_left [] hpart
      obtain ⟨hspan, hexpr⟩ := List.forall_mem_cons.mp hplaced
      exact mem_of_collectFaults hprogram.faults
        (Execution.raises_evaluating hexpr (Execution.raises_writing hspan)) h
    · exact mem_of_collectFaults hprogram.faults (hprogram.raises_execProgram rounds) h

/-- Every fault of a unit points at the right place of its source. -/
theorem faults_located (rounds : Nat) (source : String) (machine : Machine) :
    (∀ faults after, run rounds source [] machine = some (faults, after) →
      ∀ fault ∈ faults, fault.Located source.toList) ∧
    (∀ faults after, runLine rounds source machine = some (faults, after) →
      ∀ fault ∈ faults, fault.Located source.toList) :=
  ⟨fun _ _ ↦ located_of_run, fun _ _ ↦ located_of_runLine⟩

theorem faults_located_negation :
    ((run 1 "// é\nprint -\"é\";" [] {}).map Prod.fst =
        some [⟨⟨12, 17, 2⟩, .unspecified, .badNegation .string⟩] ∧
      Fault.Located "// é\nprint -\"é\";".toList
        ⟨⟨12, 17, 2⟩, .unspecified, .badNegation .string⟩) ∧
    (runLine 1 "\n(" {}).map Prod.fst = some [⟨⟨2, 2, 2⟩, .atEnd, .noExpression .eof⟩] ∧
      Fault.Located "\n(".toList ⟨⟨2, 2, 2⟩, .atEnd, .noExpression .eof⟩ := by
  have hrun : (run 1 "// é\nprint -\"é\";" [] {}).map Prod.fst =
      some [⟨⟨12, 17, 2⟩, .unspecified, .badNegation .string⟩] := by decide +kernel
  have hline : (runLine 1 "\n(" {}).map Prod.fst =
      some [⟨⟨2, 2, 2⟩, .atEnd, .noExpression .eof⟩] := by decide +kernel
  obtain ⟨⟨faults, after⟩, hsome, rfl⟩ := Option.map_eq_some_iff.mp hrun
  obtain ⟨⟨lineFaults, lineAfter⟩, hlineSome, rfl⟩ := Option.map_eq_some_iff.mp hline
  refine ⟨⟨hrun, ?_⟩, hline, ?_⟩
  · exact (faults_located 1 _ {}).1 _ after hsome _ List.mem_cons_self
  · exact (faults_located 1 _ {}).2 _ lineAfter hlineSome _ List.mem_cons_self

end LoxLang
