import LoxLang.Proofs.Run.Lines
import LoxLang.Proofs.Run.Transcript
import LoxLang.Proofs.Text.Utf8
import LoxLang.Session

/-!
# Sessions and scripts

The same lines can be run as a script or typed in a session. As long as no fault arises both do
the same: a session runs line by line what a script runs as one, on an environment that persists,
and writes the same output with prompts in between. At the first fault a script ends; the session
reports the fault of that line, which is the same but for the place of the line in the script, and
goes on.

The lines are programs by themselves. None is an expression alone, whose value a session would
write.
-/

namespace LoxLang

/-! ## Lines -/

/-- A line that means the same in a script and in a session. -/
structure PlainLine (line : String) : Prop where
  noBreak : '\n' ∉ line.toList
  noReturn : line.toList.getLast? ≠ some '\r'
  clean : (Program.ofSource .script line).faults = []
  noValue : ∀ expr span,
    (Program.ofSource .script line).statements = [.expression expr span] → expr.isAssign = true

namespace PlainLine

variable {line : String}

theorem chomp (h : PlainLine line) : Session.chomp (line ++ "\n").toList = line.toList := by
  have hkept : line.toList.reverse.dropWhile (fun c ↦ c = '\n' || c = '\r') =
      line.toList.reverse := by
    have hreturn := h.noReturn
    rw [List.getLast?_eq_head?_reverse] at hreturn
    have hbreak : '\n' ∉ line.toList.reverse := fun hmem ↦ h.noBreak (List.mem_reverse.mp hmem)
    cases hreverse : line.toList.reverse with
    | nil => rfl
    | cons c rest =>
      rw [hreverse] at hreturn hbreak
      have hne : c ≠ '\n' ∧ c ≠ '\r' := by
        constructor
        · rintro rfl
          exact hbreak List.mem_cons_self
        · rintro rfl
          exact hreturn rfl
      simp [hne.1, hne.2]
  calc Session.chomp (line ++ "\n").toList
      = (('\n' :: line.toList.reverse).dropWhile fun c ↦ c = '\n' || c = '\r').reverse := by
        rw [Session.chomp, String.toList_append, List.reverse_append]
        rfl
    _ = (line.toList.reverse.dropWhile fun c ↦ c = '\n' || c = '\r').reverse := by
        rw [List.dropWhile_cons_of_pos rfl]
    _ = line.toList := by rw [hkept, List.reverse_reverse]

/-- Read in a session, the line is the same program, and nothing of it is echoed. -/
theorem ofSource_interactive (h : PlainLine line) :
    Program.ofSource .interactive line = ⟨(Program.ofSource .script line).statements, []⟩ := by
  obtain ⟨hscan, hparse⟩ := List.append_eq_nil_iff.mp h.clean
  have hsame := Program.parse_of_script hparse .interactive
  simp only [Program.ofSource, hsame, hscan, hparse]
  rfl

theorem echoed?_eq_none (h : PlainLine line) :
    echoed? (Program.ofSource .script line).statements = none := by
  have hvalue := h.noValue
  unfold echoed?
  split
  · next expr span hstatements => rw [if_pos (hvalue expr span hstatements)]
  · rfl

theorem of_echoed? (hbreak : '\n' ∉ line.toList) (hreturn : line.toList.getLast? ≠ some '\r')
    (hclean : (Program.ofSource .script line).faults = [])
    (hnone : echoed? (Program.ofSource .script line).statements = none) : PlainLine line := by
  refine ⟨hbreak, hreturn, hclean, fun expr span hstatements ↦ ?_⟩
  rw [hstatements, echoed?, ite_eq_left_iff] at hnone
  by_contra hassign
  exact Option.some_ne_none _ (hnone hassign)

instance : Decidable (PlainLine line) :=
  decidable_of_iff ('\n' ∉ line.toList ∧ line.toList.getLast? ≠ some '\r' ∧
      (Program.ofSource .script line).faults = [] ∧
      (echoed? (Program.ofSource .script line).statements).isNone)
    ⟨fun ⟨hbreak, hreturn, hclean, hnone⟩ ↦
        of_echoed? hbreak hreturn hclean (Option.isNone_iff_eq_none.mp hnone),
      fun h ↦ ⟨h.noBreak, h.noReturn, h.clean, Option.isNone_iff_eq_none.mpr h.echoed?_eq_none⟩⟩

end PlainLine

/-! ## Blank lines -/

namespace Scan

theorem toNat_of_isBlankChar {c : Char} (h : Text.isBlankChar c) :
    c.toNat ≤ 32 ∨ 133 ≤ c.toNat := by
  simp [Text.isBlankChar, Text.blankRuns] at h
  omega

theorem toNat_of_isWordChar {c : Char} (h : isWordChar c) : 48 ≤ c.toNat ∧ c.toNat ≤ 122 := by
  simp only [isWordChar, isLetter, isDigit, Bool.or_eq_true, Bool.and_eq_true, decide_eq_true_eq,
    Char.le_def, UInt32.le_iff_toNat_le] at h
  change 48 ≤ c.val.toNat ∧ c.val.toNat ≤ 122
  rcases h with ((hlower | hupper) | rfl) | hdigit
  · change 97 ≤ c.val.toNat ∧ c.val.toNat ≤ 122 at hlower
    omega
  · change 65 ≤ c.val.toNat ∧ c.val.toNat ≤ 90 at hupper
    omega
  · decide
  · change 48 ≤ c.val.toNat ∧ c.val.toNat ≤ 57 at hdigit
    omega

/-- A white space character is matched by itself, and never as a token. -/
theorem munch_blank {c : Char} (h : Text.isBlankChar c) (input : List Char) :
    (munch c input).rest = input ∧ ∀ kind literal, (munch c input).shape ≠ .token kind literal := by
  have hword : isWordChar c = false := by
    by_contra hword
    have hrange := toNat_of_isWordChar (Bool.not_eq_false _ ▸ hword)
    have hblank := toNat_of_isBlankChar h
    omega
  obtain ⟨hletter, hdigit⟩ := Bool.or_eq_false_iff.mp hword
  unfold munch
  -- Of the characters with a case of their own some are skipped and the others are not blank. The
  -- last case stays.
  split <;> first
    | exact ⟨rfl, fun _ _ ↦ Shape.noConfusion⟩
    | exact absurd h (by decide)
    | skip
  rw [if_neg (by simp [hdigit]), if_neg (by simp [hletter])]
  exact ⟨rfl, nofun⟩

theorem tokens_of_isBlank {input : List Char} (start : Cursor) (h : Text.isBlank input) :
    (pieces start input).filterMap Piece.token? = [] := by
  fun_induction pieces start input with
  | case1 => rfl
  | case2 start c input found text ih =>
    obtain ⟨hc, hinput⟩ := List.forall_mem_cons.mp (List.all_eq_true.mp h)
    obtain ⟨hrest, hshape⟩ := munch_blank hc input
    have hnone : Piece.token? ⟨start, text, found.shape⟩ = none := by
      unfold Piece.token?
      split
      · next kind literal htoken => exact absurd htoken (hshape kind literal)
      · rfl
    rw [List.filterMap_cons_none hnone]
    apply ih
    rw [hrest]
    exact List.all_eq_true.mpr hinput

end Scan

/-- Blank text is a program without statements, and all its faults are found by scanning. -/
theorem Program.ofSource_of_isBlank {source : String} (h : Text.isBlank source.toList)
    (mode : Grammar.Mode) : ofSource mode source = ⟨[], (Scan.ofSource source).faults⟩ := by
  have htokens : (Scan.ofSource source).tokens = [] := Scan.tokens_of_isBlank .origin h
  have hmark : (Scan.ofSource source).endMark.kind = .eof := rfl
  simp only [ofSource, Scan.stream, htokens, parse,
    TokenInput.ofList_append_endMark (List.forall_mem_nil _) hmark]
  exact congrArg _ (List.append_nil _)

/-! ## Handling a line -/

theorem decodeSource_encode (text : String) (machine : Machine) :
    decodeSource (Text.Utf8.encode text) machine = (text, machine) := by
  simp only [decodeSource, Text.Utf8.flaw?_encode, Text.Utf8.decode_encode]

/-- To run a source without static faults is to execute its statements. -/
theorem run_of_clean {source : String} (h : (Program.ofSource .script source).faults = [])
    (rounds : Nat) (machine : Machine) :
    ∃ started : Machine, started.environment = machine.environment ∧
      started.sink = machine.sink ∧
      run rounds source [] machine =
        (Stmt.execAll rounds (Program.ofSource .script source).statements started).map fun ended ↦
          (raised ended.1, ended.2) := by
  refine ⟨(machine.read .script source).2.log
    (.evaluating (Program.ofSource .script source).statements.length), ?_, ?_, ?_⟩
  · rw [Machine.environment_log, Machine.environment_read]
  · rw [Machine.sink_log, Machine.sink_read]
  · simp only [run_eq, h]
    exact collectFaults_eq [] _

theorem Machine.emit_nil (machine : Machine) (style : Report.Style) (source : List Char)
    (filename : Option String) : machine.emit style source filename [] = machine := by
  simp [emit]

namespace Session

/-- A line as it comes in. -/
def typed (line : String) : List UInt8 := Text.Utf8.encode (line ++ "\n")

/-- To handle a line is to execute its statements and to report the fault that ends them. -/
theorem step_typed {config : Config} {line : String} (h : PlainLine line)
    (hconfig : config.tokensOnly = false) (rounds : Nat) (machine : Machine) :
    ∃ started : Machine, started.environment = machine.environment ∧
      started.sink = machine.sink ∧ machine.Logged started ∧
      step rounds config (typed line) machine =
        (Stmt.execAll rounds (Program.ofSource .script line).statements started).map fun ended ↦
          (.ok (), ended.2.emit config.style line.toList none (raised ended.1)) := by
  simp only [step, typed, decodeSource_encode, h.chomp, hconfig]
  by_cases hblank : Text.isBlank line.toList
  · refine ⟨machine, rfl, rfl, .refl machine, ?_⟩
    rw [if_pos hblank, Program.ofSource_of_isBlank hblank]
    simp [Stmt.execAll, Execution.finish, raised, Machine.emit_nil]
  · refine ⟨(machine.read .interactive line).2.log
      (.evaluating (Program.ofSource .script line).statements.length), ?_, ?_, ?_, ?_⟩
    · rw [Machine.environment_log, Machine.environment_read]
    · rw [Machine.sink_log, Machine.sink_read]
    · exact (machine.logged_read .interactive line).trans (Machine.logged_log _ _)
    · rw [if_neg hblank, if_neg (by simp), String.ofList_toList, runLine_eq, h.ofSource_interactive]
      simp only [h.echoed?_eq_none, hadStaticFault, List.any_nil, Bool.false_eq_true, if_false,
        collectFaults_eq, List.nil_append, Machine.execProgram]
      generalize Stmt.execAll rounds _ _ = run
      cases run with
      | none => rfl
      | some ended => rfl

theorem splitLines_append_lineFeed {bytes : List UInt8} (hbytes : (10 : UInt8) ∉ bytes)
    (rest : List UInt8) :
    splitLines (bytes ++ 10 :: rest) = (bytes ++ [10]) :: splitLines rest := by
  induction bytes with
  | nil => rw [List.nil_append, splitLines, if_pos rfl, List.nil_append]
  | cons byte bytes ih =>
    obtain ⟨hbyte, hothers⟩ := not_or.mp (List.mem_cons.not.mp hbytes)
    rw [List.cons_append, splitLines, if_neg (Ne.symm hbyte), ih hothers]
    rfl

/-- The input is cut where lines end, since no other character has that byte. -/
theorem splitLines_typed {lines : List String} (h : ∀ line ∈ lines, '\n' ∉ line.toList) :
    splitLines (lines.flatMap typed) = lines.map typed := by
  induction lines with
  | nil => rfl
  | cons line rest ih =>
    obtain ⟨hline, hrest⟩ := List.forall_mem_cons.mp h
    have htyped : typed line = Text.Utf8.encode line ++ [10] := Text.Utf8.encode_append line "\n"
    rw [List.flatMap_cons, List.map_cons, htyped, List.append_assoc, List.singleton_append,
      splitLines_append_lineFeed (Text.Utf8.lineFeed_not_mem_encode hline), ih hrest]

end Session

/-! ## Sinks that never fail -/

/-- The sink takes everything. -/
structure Sink.Free (sink : Sink) : Prop where
  limit : sink.limit = none
  flush : sink.flushComplaint = none

theorem Sink.Free.say {sink : Sink} (h : sink.Free) (text : String) :
    sink.say text = (.ok (), { sink with written := sink.written ++ Text.Utf8.encode text }) := by
  simp only [Sink.say, Sink.write, Sink.flush, h.limit, h.flush]

namespace Simulation

/-- A line of a session beside the same line of a script, at another place and with another
output before it. -/
def lineOfScript (offset lines : Nat) (session script : List UInt8) : Simulation :=
  { identical (Span.Shifted offset lines) with
    sinks := fun sink other => sink.Free ∧ other.Free ∧ ∃ output,
      sink.written.toList = session ++ output ∧ other.written.toList = script ++ output
    say := by
      rintro sink other ⟨hsink, hother, output, hsession, hscript⟩ text
      rw [hsink.say, hother.say]
      refine ⟨rfl, ⟨hsink.limit, hsink.flush⟩, ⟨hother.limit, hother.flush⟩,
        output ++ Text.Utf8.encode text, ?_, ?_⟩
      · rw [Array.toList_appendList, hsession, List.append_assoc]
      · rw [Array.toList_appendList, hscript, List.append_assoc] }

end Simulation

/-! ## Turns -/

def Event.report? : Event → Option Report
  | .report found => some found
  | _ => none

namespace Session

/-- The handling of one line: the machine when the line has come in, behind the prompt, and when
the line is done. -/
structure Turn where
  before : Machine
  after : Machine

namespace Turn

/-- What is written in a turn. -/
def output (turn : Turn) : List UInt8 :=
  turn.after.sink.written.toList.drop turn.before.sink.written.size

/-- What is reported in a turn. -/
def reports (turn : Turn) : List Report :=
  (turn.after.transcript.toList.drop turn.before.transcript.size).filterMap Event.report?

theorem output_eq {turn : Turn} {output : List UInt8}
    (h : turn.after.sink.written.toList = turn.before.sink.written.toList ++ output) :
    turn.output = output := by
  rw [Turn.output, h, ← Array.length_toList, List.drop_left]

theorem reports_eq {before ran : Machine} (h : before.Logged ran) (style : Report.Style)
    (source : List Char) (filename : Option String) (faults : List Fault) :
    reports ⟨before, ran.emit style source filename faults⟩ =
      faults.map (Report.ofFault style source filename) := by
  obtain ⟨entries, hentries⟩ := h
  have hentry : (entries.map Event.entry).filterMap Event.report? = [] := by
    rw [List.filterMap_map]
    exact List.filterMap_eq_nil_iff.mpr fun _ _ ↦ rfl
  have hreport : (faults.map fun fault ↦
      Event.report (.ofFault style source filename fault)).filterMap Event.report? =
        faults.map (Report.ofFault style source filename) := by
    rw [List.filterMap_map, ← List.filterMap_eq_map]
    rfl
  calc reports ⟨before, ran.emit style source filename faults⟩
      = (entries.map Event.entry ++ faults.map fun fault ↦
          Event.report (.ofFault style source filename fault)).filterMap Event.report? := by
        rw [reports, Machine.emit, Array.toList_appendList, hentries, ← Array.length_toList,
          List.append_assoc, List.drop_left]
    _ = faults.map (Report.ofFault style source filename) := by
        rw [List.filterMap_append, hentry, hreport, List.nil_append]

end Turn

/-- The turns of a session, up to one that does not end or at which the output fails. -/
def turns (rounds : Nat) (config : Config) : List (List UInt8) → Machine → List Turn
  | [], _ => []
  | line :: rest, machine =>
    match ask machine with
    | (.error _, _) => []
    | (.ok (), before) =>
      match step rounds config line before with
      | some (.ok (), after) => ⟨before, after⟩ :: turns rounds config rest after
      | _ => []

/-- The machine behind a prompt. -/
def prompted (machine : Machine) : Machine :=
  { machine with
    sink := { machine.sink with written := machine.sink.written ++ Text.Utf8.encode prompt } }

theorem ask_eq {machine : Machine} (h : machine.sink.Free) :
    ask machine = (.ok (), prompted machine) := by
  simp only [ask, h.say, prompted]

theorem written_prompted (machine : Machine) :
    (prompted machine).sink.written.toList =
      machine.sink.written.toList ++ Text.Utf8.encode prompt :=
  Array.toList_appendList

theorem free_prompted {machine : Machine} (h : machine.sink.Free) : (prompted machine).sink.Free :=
  ⟨h.limit, h.flush⟩

section

variable {rounds : Nat} {config : Config} {line : String} {machine after : Machine}
  (h : machine.sink.Free) (rest : List String)

include h

theorem turns_cons
    (hstep : step rounds config (typed line) (prompted machine) = some (.ok (), after)) :
    turns rounds config ((line :: rest).map typed) machine =
      ⟨prompted machine, after⟩ :: turns rounds config (rest.map typed) after := by
  simp only [List.map_cons, turns, ask_eq h, hstep]

theorem runLines_cons
    (hstep : step rounds config (typed line) (prompted machine) = some (.ok (), after)) :
    runLines rounds config ((line :: rest).map typed) machine =
      runLines rounds config (rest.map typed) after := by
  rw [List.map_cons, runLines.eq_def]
  simp only [ask_eq h, hstep]

theorem runLines_cons_none (hstep : step rounds config (typed line) (prompted machine) = none) :
    runLines rounds config ((line :: rest).map typed) machine = none := by
  rw [List.map_cons, runLines.eq_def]
  simp only [ask_eq h, hstep]

end

/-- A turn of a session ends as the line does in a script that starts with the same environment. -/
structure Turn.Follows (turn : Turn) (config : Config) (line : String) (offset count : Nat)
    (ended : Except Fault Unit) (script : Machine) (other : Except Fault Unit × Machine) :
    Prop where
  result : EndsAlike (Span.Shifted offset count) ended other.1
  environment : turn.after.environment = other.2.environment
  free : turn.after.sink.Free
  otherFree : other.2.sink.Free
  written : turn.after.sink.written.toList = turn.before.sink.written.toList ++ turn.output
  otherWritten : other.2.sink.written.toList = script.sink.written.toList ++ turn.output
  reports : turn.reports = (raised ended).map (Report.ofFault config.style line.toList none)

variable {rounds : Nat} {config : Config}

theorem follows_or_none {line : String} {offset count : Nat} {statements : List Stmt}
    {before script : Machine} (hline : PlainLine line) (hconfig : config.tokensOnly = false)
    (hstatements : Stmt.AllAlike (Span.Shifted offset count)
      (Program.ofSource .script line).statements statements)
    (henvironment : before.environment = script.environment) (hbefore : before.sink.Free)
    (hscript : script.sink.Free) :
    (step rounds config (typed line) before = none ∧ Stmt.execAll rounds statements script = none) ∨
    ∃ ended after other, step rounds config (typed line) before = some (.ok (), after) ∧
      Stmt.execAll rounds statements script = some other ∧
      Turn.Follows ⟨before, after⟩ config line offset count ended script other := by
  obtain ⟨started, hstartedEnv, hstartedSink, hlogged, hstep⟩ :=
    step_typed hline hconfig rounds before
  let sim := Simulation.lineOfScript offset count before.sink.written.toList
    script.sink.written.toList
  -- The environments are equal, so declarations are harmless at any level but zero.
  have hmachines : sim.Machines 1 started script := by
    constructor
    · exact hstartedEnv.trans henvironment
    · rw [hstartedSink]
      exact ⟨hbefore, hscript, [], (List.append_nil _).symm, (List.append_nil _).symm⟩
  have hmatches : sim.Matches 1 (Stmt.execAll rounds (Program.ofSource .script line).statements)
      (Stmt.execAll rounds statements) :=
    Simulation.matches_execAll hstatements rounds fun hlevel ↦ absurd hlevel Nat.one_ne_zero
  have hended := hmatches started script hmachines
  have hlogs := Stmt.onlyLogs_execAll rounds (Program.ofSource .script line).statements started
  rw [hstep]
  generalize Stmt.execAll rounds (Program.ofSource .script line).statements started = first at *
  generalize Stmt.execAll rounds statements script = second at *
  cases hended with
  | none => exact .inl ⟨rfl, rfl⟩
  | @some ended other hended =>
    obtain ⟨result, ran⟩ := ended
    obtain ⟨hresult, henv, hran, hother, output, hwritten, hotherWritten⟩ := hended
    have hturn : Turn.output ⟨before, ran.emit config.style line.toList none (raised result)⟩ =
        output := Turn.output_eq hwritten
    refine .inr ⟨result, _, other, rfl, rfl, hresult, henv, hran, hother, ?_, ?_, ?_⟩
    · rw [hturn]
      exact hwritten
    · rw [hturn]
      exact hotherWritten
    · exact Turn.reports_eq (hlogged.trans (hlogs _ _ rfl)) _ _ _ _

end Session

/-! ## Agreement -/

namespace Execution

theorem finish_andThen (execution : Execution) : finish.andThen execution = execution := rfl

theorem andThen_assoc (first second third : Execution) :
    (first.andThen second).andThen third = first.andThen (second.andThen third) := by
  funext machine
  simp only [andThen]
  rcases first machine with _ | ⟨_ | _, middle⟩ <;> rfl

end Execution

theorem Stmt.execAll_append (rounds : Nat) (first second : List Stmt) :
    execAll rounds (first ++ second) = (execAll rounds first).andThen (execAll rounds second) := by
  induction first with
  | nil => exact (Execution.finish_andThen _).symm
  | cons stmt rest ih => rw [List.cons_append, execAll, execAll, ih, Execution.andThen_assoc]

namespace Session

section

variable (rounds : Nat) (config : Config) (lines : List String) (session : Machine)
  (written : List UInt8)

/-- The session has handled all lines and reported nothing. What the lines wrote, put together, is
what the script wrote behind its former output; in the output of the session a prompt stands before
each of them and behind the last. Both leave the same environment. -/
structure Completed (script : Machine) : Prop where
  handled : (turns rounds config (lines.map typed) session).length = lines.length
  quiet : ∀ turn ∈ turns rounds config (lines.map typed) session, turn.reports = []
  output : script.sink.written.toList =
    written ++ (turns rounds config (lines.map typed) session).flatMap Turn.output
  ends : ∃ after, runLines rounds config (lines.map typed) session = some (.ok (), after) ∧
    after.environment = script.environment ∧
    after.sink.written.toList = session.sink.written.toList ++
      ((turns rounds config (lines.map typed) session).flatMap fun turn ↦
        Text.Utf8.encode prompt ++ turn.output) ++ Text.Utf8.encode prompt

/-- In the line of the given index the session reports the fault, which is the first, and goes on.
What the lines wrote up to and with that one is what the script wrote behind its former output. -/
structure Stopped (index : Nat) (fault : Fault) (script : Machine) : Prop where
  quiet : ∀ turn ∈ (turns rounds config (lines.map typed) session).take index, turn.reports = []
  report : ∃ line turn, lines[index]? = some line ∧
    (turns rounds config (lines.map typed) session)[index]? = some turn ∧
    turn.reports = [Report.ofFault config.style line.toList none fault] ∧
    runLines rounds config (lines.map typed) session =
      runLines rounds config ((lines.drop (index + 1)).map typed) turn.after
  output : script.sink.written.toList = written ++
    ((turns rounds config (lines.map typed) session).take (index + 1)).flatMap Turn.output

/-- How a session goes beside a script of the same lines, which stand behind the given numbers of
bytes and lines. -/
inductive Agrees (offset count : Nat) : Option (Except Fault Unit × Machine) → Prop where
  | unfinished (h : runLines rounds config (lines.map typed) session = none) :
    Agrees offset count none
  | completed {script : Machine} (h : Completed rounds config lines session written script) :
    Agrees offset count (some (.ok (), script))
  | stopped {script : Machine} (index : Nat) (fault : Fault)
    (h : Stopped rounds config lines session written index fault script) :
    Agrees offset count
      (some (.error (fault.shift (offset + lengthOfLines (lines.take index)) (count + index)),
        script))

end

variable {rounds : Nat} {config : Config} {line : String} {rest : List String}
  {session after middle : Machine} {written : List UInt8} {offset count : Nat}
  {other : Option (Except Fault Unit × Machine)}

/-- A line without a fault goes before lines on which session and script agree. -/
theorem Agrees.cons (hfree : session.sink.Free)
    (hstep : step rounds config (typed line) (prompted session) = some (.ok (), after))
    (hwritten : after.sink.written.toList =
      (prompted session).sink.written.toList ++ Turn.output ⟨prompted session, after⟩)
    (hquiet : Turn.reports ⟨prompted session, after⟩ = [])
    (h : Agrees rounds config rest after (written ++ Turn.output ⟨prompted session, after⟩)
      (offset + (Text.byteLength line.toList + 1)) (count + 1) other) :
    Agrees rounds config (line :: rest) session written offset count other := by
  have hturns := turns_cons hfree rest hstep
  have hrun := runLines_cons hfree rest hstep
  cases h with
  | unfinished h => exact .unfinished (hrun.trans h)
  | completed h =>
    obtain ⟨hhandled, hothers, houtput, final, hfinal, henvironment, hfinalWritten⟩ := h
    refine .completed ⟨?_, ?_, ?_, final, hrun.trans hfinal, henvironment, ?_⟩
    · rw [hturns, List.length_cons, List.length_cons, hhandled]
    · rw [hturns]
      exact List.forall_mem_cons.mpr ⟨hquiet, hothers⟩
    · rw [hturns, List.flatMap_cons, houtput, List.append_assoc]
    · calc final.sink.written.toList
          = session.sink.written.toList ++ Text.Utf8.encode prompt ++
              Turn.output ⟨prompted session, after⟩ ++
              ((turns rounds config (rest.map typed) after).flatMap fun turn ↦
                Text.Utf8.encode prompt ++ turn.output) ++ Text.Utf8.encode prompt := by
            rw [hfinalWritten, hwritten, written_prompted]
        _ = session.sink.written.toList ++
              ((turns rounds config ((line :: rest).map typed) session).flatMap fun turn ↦
                Text.Utf8.encode prompt ++ turn.output) ++ Text.Utf8.encode prompt := by
            rw [hturns, List.flatMap_cons, List.append_assoc _ _ (Turn.output _),
              List.append_assoc session.sink.written.toList]
  | @stopped script index fault h =>
    obtain ⟨hothers, ⟨faulty, turn, hfaulty, hturn, hreport, hgoesOn⟩, houtput⟩ := h
    have hstopped :
        Stopped rounds config (line :: rest) session written (index + 1) fault script := by
      refine ⟨?_, ⟨faulty, turn, hfaulty, ?_, hreport, hrun.trans hgoesOn⟩, ?_⟩
      · rw [hturns, List.take_succ_cons]
        exact List.forall_mem_cons.mpr ⟨hquiet, hothers⟩
      · rw [hturns]
        exact hturn
      · rw [hturns, List.take_succ_cons, List.flatMap_cons, houtput, List.append_assoc]
    have hoffset : offset + (Text.byteLength line.toList + 1) + lengthOfLines (rest.take index) =
        offset + lengthOfLines ((line :: rest).take (index + 1)) := by
      rw [List.take_succ_cons, lengthOfLines, Nat.add_assoc]
    rw [hoffset, Nat.add_assoc, Nat.add_comm 1]
    exact .stopped (index + 1) fault hstopped

/-- Session and script agree from one line to the next. -/
theorem agrees_of_spread {lines : List String} {statements : List Stmt} {script : Machine}
    (hconfig : config.tokensOnly = false) (hspread : Spread offset count lines statements)
    (hlines : ∀ line ∈ lines, PlainLine line)
    (henvironment : session.environment = script.environment) (hsession : session.sink.Free)
    (hscript : script.sink.Free) :
    Agrees rounds config lines session script.sink.written.toList offset count
      (Stmt.execAll rounds statements script) := by
  induction hspread generalizing session script with
  | nil =>
    have hruns : runLines rounds config [] session =
        some (.ok (), (prompted session).log .endOfInput) := by
      rw [runLines.eq_def]
      simp only [ask_eq hsession]
    refine .completed ⟨rfl, List.forall_mem_nil _, (List.append_nil _).symm, _, hruns, ?_, ?_⟩
    · rw [Machine.environment_log]
      exact henvironment
    · rw [Machine.sink_log, written_prompted]
      simp [turns]
  | @cons offset count line rest first others hfirst hothers ih =>
    obtain ⟨hline, hrest⟩ := List.forall_mem_cons.mp hlines
    rw [Stmt.execAll_append, Execution.andThen]
    have hprompted : (prompted session).environment = script.environment := henvironment
    rcases follows_or_none hline hconfig hfirst hprompted (free_prompted hsession) hscript with
      ⟨hstep, hexec⟩ | ⟨ended, after, other, hstep, hexec, hfollows⟩
    · rw [hexec]
      exact .unfinished (runLines_cons_none hsession _ hstep)
    · rw [hexec]
      obtain ⟨otherEnded, middle⟩ := other
      obtain ⟨hresult, hafter, hfree, hmiddle, hwritten, hotherWritten, hreports⟩ := hfollows
      cases hresult with
      | ok =>
        have hagrees := ih hrest hafter hfree hmiddle
        rw [hotherWritten] at hagrees
        exact hagrees.cons hsession hstep hwritten hreports
      | @error fault _ hfault =>
        -- The script has ended. What follows in the session has no counterpart.
        obtain rfl := hfault.eq_shift
        have hturns := turns_cons hsession rest hstep
        have hrun := runLines_cons hsession rest hstep
        refine .stopped 0 fault ⟨nofun, ⟨line, ⟨_, after⟩, rfl, ?_, hreports, hrun⟩, ?_⟩
        · rw [hturns]
          rfl
        · rw [hturns, hotherWritten]
          simp

end Session

end LoxLang
