import LoxLang.Proofs.Run.Semantics
import LoxLang.Proofs.Run.Session

/-!
# Sinks that fill up

A program is run twice, on a sink that takes everything and on one that has room for so many bytes
and no more. As long as what is printed fits, the two runs are the same. The first line that does
not fit is cut where the room ends, and the run ends there with a fault at its print statement:
nothing behind that statement is executed, and the scopes that are open are closed.

The place where the run is cut is told by the run on the sink that takes everything. Its
statements come to a print statement when all statements before have been executed; where that is
inside of a block, the environment in which the run ends is the one at the print statement without
the scopes of the blocks around it.
-/

namespace LoxLang

/-! ## Coming to a print statement -/

namespace Stmt

/-- Run in order in an evaluator, the statements print the lines and then come to a print statement
with the span, which has the text to write. The environment is the one in which it would write,
without the scopes that were opened on the way. -/
inductive Arrives : List Stmt → Evaluator → List String → Span → String → Environment → Prop where
  | here {expr : Expr} {span : Span} {rest : List Stmt} {state : Evaluator} {value : Value}
    {env : Environment} (evaluated : expr.eval state.environment = (.ok value, env)) :
    Arrives (.print expr span :: rest) state [] span value.text env
  | past {stmts others : List Stmt} {state middle : Evaluator} {lines more : List String}
    {span : Span} {text : String} {env : Environment}
    (first : Runs stmts state lines (.ok ()) middle)
    (rest : Arrives others middle more span text env) :
    Arrives (stmts ++ others) state (lines ++ more) span text env
  | block {body : List Stmt} {place : Span} {rest : List Stmt} {state : Evaluator}
    {lines : List String} {span : Span} {text : String} {env : Environment}
    (inside : Arrives body ⟨state.environment.push, state.sink⟩ lines span text env) :
    Arrives (.block body place :: rest) state lines span text env.pop
  | branch {condition : Expr} {thenBranch : Stmt} {elseBranch : Option Stmt} {place : Span}
    {rest : List Stmt} {state : Evaluator} {value : Value} {middle : Environment}
    {lines : List String} {span : Span} {text : String} {env : Environment}
    (evaluated : condition.eval state.environment = (.ok value, middle))
    (inside : Arrives (chosen thenBranch elseBranch value) ⟨middle, state.sink⟩ lines span text
      env) :
    Arrives (.branch condition thenBranch elseBranch place :: rest) state lines span text env
  | loop {condition : Expr} {body : Stmt} {place : Span} {rest : List Stmt} {state : Evaluator}
    {value : Value} {middle : Environment} {lines : List String} {span : Span} {text : String}
    {env : Environment} (evaluated : condition.eval state.environment = (.ok value, middle))
    (holds : value.truthy = true)
    (inside : Arrives [body, .loop condition body place] ⟨middle, state.sink⟩ lines span text
      env) :
    Arrives (.loop condition body place :: rest) state lines span text env

namespace Arrives

variable {stmts : List Stmt} {state : Evaluator} {lines : List String} {span : Span}
  {text : String} {env : Environment}

theorem ne_nil (h : Arrives stmts state lines span text env) : stmts ≠ [] := by
  induction h with
  | past _ _ ih => exact List.append_ne_nil_of_right_ne_nil _ ih
  | here | block | branch | loop => exact List.cons_ne_nil _ _

/-- What follows the print statement does not matter. -/
theorem append (h : Arrives stmts state lines span text env) (others : List Stmt) :
    Arrives (stmts ++ others) state lines span text env := by
  induction h with
  | here evaluated => exact .here evaluated
  | past first _ ih =>
    rw [List.append_assoc]
    exact .past first ih
  | block inside => exact .block inside
  | branch evaluated inside => exact .branch evaluated inside
  | loop evaluated holds inside => exact .loop evaluated holds inside

end Arrives

/-- The statements come to a print statement with the span, and its line is the first that does
not fit where there is room for so many bytes in all. -/
inductive Overruns (stmts : List Stmt) (state : Evaluator) (room : Nat) (span : Span)
    (env : Environment) : Prop where
  | intro {lines : List String} {text : String} (arrives : Arrives stmts state lines span text env)
    (fits : state.sink.written.size + (Sink.bytesOf lines).length ≤ room)
    (exceeds : room < state.sink.written.size + (Sink.bytesOf (lines ++ [text])).length)

end Stmt

/-! ## Limits on sinks -/

namespace Sink

variable {sink : Sink}

/-- The sink with a limit on what it holds. -/
def capped (sink : Sink) (limit : Limit) : Sink := { sink with limit := some limit }

/-- The sink with no more than the first bytes on it. -/
def truncated (sink : Sink) (room : Nat) : Sink :=
  { sink with written := (sink.written.toList.take room).toArray }

theorem size_add (sink : Sink) (bytes : List UInt8) :
    (sink.add bytes).written.size = sink.written.size + bytes.length := by
  rw [← Array.length_toList, ← Array.length_toList, add, Array.toList_appendList,
    List.length_append]

theorem Free.add (h : sink.Free) (bytes : List UInt8) : (sink.add bytes).Free :=
  ⟨h.limit, h.flush⟩

theorem bytesOf_append (lines more : List String) :
    bytesOf (lines ++ more) = bytesOf lines ++ bytesOf more :=
  List.flatMap_append

theorem truncated_add (sink : Sink) (bytes : List UInt8) (count : Nat) :
    (sink.add bytes).truncated (sink.written.size + count) = sink.add (bytes.take count) := by
  simp only [truncated, add, mk.injEq, and_true]
  apply Array.ext'
  rw [Array.toList_appendList, Array.toList_appendList, ← Array.length_toList,
    List.take_length_add_append]

theorem truncated_add_of_le {room : Nat} (h : room ≤ sink.written.size) (bytes : List UInt8) :
    (sink.add bytes).truncated room = sink.truncated room := by
  simp only [truncated, add, mk.injEq, and_true]
  rw [Array.toList_appendList, List.take_append_of_le_length (by simpa using h)]

theorem write_capped (sink : Sink) (limit : Limit) (bytes : List UInt8) :
    (sink.capped limit).write bytes =
      if bytes.length ≤ limit.room - sink.written.size then (.ok (), (sink.add bytes).capped limit)
      else (.error limit.complaint,
        (sink.add (bytes.take (limit.room - sink.written.size))).capped limit) :=
  rfl

theorem Free.say_capped {limit : Limit} {text : String} (h : sink.Free)
    (hfits : sink.written.size + (Text.Utf8.encode text).length ≤ limit.room) :
    (sink.capped limit).say text = (.ok (), (sink.add (Text.Utf8.encode text)).capped limit) := by
  have hflush : ((sink.add (Text.Utf8.encode text)).capped limit).flush = .ok () := by
    rw [Sink.flush, show ((sink.add _).capped limit).flushComplaint = none from h.flush]
  rw [Sink.say, write_capped, if_pos (by omega)]
  dsimp only
  rw [hflush]

theorem say_capped_of_lt {limit : Limit} {text : String} (hroom : sink.written.size ≤ limit.room)
    (hexceeds : limit.room < sink.written.size + (Text.Utf8.encode text).length) :
    (sink.capped limit).say text = (.error limit.complaint,
      ((sink.add (Text.Utf8.encode text)).truncated limit.room).capped limit) := by
  have hcut := sink.truncated_add (Text.Utf8.encode text) (limit.room - sink.written.size)
  rw [Nat.add_sub_cancel' hroom] at hcut
  rw [hcut, say, write_capped, if_neg (by omega)]

end Sink

namespace Machine

/-- The machine with a limit on its sink. -/
def capped (machine : Machine) (limit : Sink.Limit) : Machine :=
  { machine with sink := machine.sink.capped limit }

theorem log_capped (machine : Machine) (limit : Sink.Limit) (entry : Log.Entry) :
    (machine.capped limit).log entry = (machine.log entry).capped limit := by
  unfold log capped
  split <;> rfl

theorem pushScope_capped (machine : Machine) (limit : Sink.Limit) :
    (machine.capped limit).pushScope = machine.pushScope.capped limit :=
  log_capped { machine with environment := machine.environment.push } limit _

theorem popScope_capped (machine : Machine) (limit : Sink.Limit) :
    (machine.capped limit).popScope = machine.popScope.capped limit := by
  have hpopped := log_capped { machine with environment := machine.environment.pop } limit
  unfold popScope
  rw [show (machine.capped limit).environment = machine.environment from rfl]
  split
  · exact hpopped _
  · rfl

end Machine

/-! ## Two runs -/

/-- How a run of the statements with a limit ends, beside the same run without it. -/
inductive Capped (stmts : List Stmt) (state : Evaluator) (limit : Sink.Limit) :
    Except Fault Unit × Machine → Option (Except Fault Unit × Machine) → Prop where
  | fits {ended : Except Fault Unit} {after : Machine}
    (size : after.sink.written.size ≤ limit.room) :
    Capped stmts state limit (ended, after) (some (ended, after.capped limit))
  | cut {ended : Except Fault Unit} {after stopped : Machine} {span : Span}
    (size : limit.room < after.sink.written.size)
    (overruns : Stmt.Overruns stmts state limit.room span stopped.environment)
    (sink : stopped.sink = (after.sink.truncated limit.room).capped limit) :
    Capped stmts state limit (ended, after)
      (some (.error (.plain span (.outputFailed limit.complaint)), stopped))

/-- The same run as one of other statements. -/
theorem Capped.lift {stmts others : List Stmt} {state other : Evaluator} {limit : Sink.Limit}
    {free : Except Fault Unit × Machine} {limited : Option (Except Fault Unit × Machine)}
    (h : Capped stmts state limit free limited)
    (hoverruns : ∀ span env, Stmt.Overruns stmts state limit.room span env →
      Stmt.Overruns others other limit.room span env) :
    Capped others other limit free limited := by
  cases h with
  | fits size => exact .fits size
  | cut size overruns sink => exact .cut size (hoverruns _ _ overruns) sink

namespace Stmt.Overruns

variable {stmts others : List Stmt} {state : Evaluator} {room : Nat} {span : Span}
  {env : Environment}

theorem append (h : Overruns stmts state room span env) (others : List Stmt) :
    Overruns (stmts ++ others) state room span env := by
  obtain ⟨arrives, fits, exceeds⟩ := h
  exact ⟨arrives.append others, fits, exceeds⟩

/-- What was printed on the way counts. -/
theorem past {middle : Evaluator} {lines : List String} (h : Overruns others middle room span env)
    (hruns : Runs stmts state lines (.ok ()) middle)
    (hsink : middle.sink = state.sink.add (Sink.bytesOf lines)) :
    Overruns (stmts ++ others) state room span env := by
  obtain ⟨arrives, fits, exceeds⟩ := h
  rw [hsink, Sink.size_add] at fits exceeds
  refine ⟨.past hruns arrives, ?_, ?_⟩
  · rw [Sink.bytesOf_append, List.length_append]
    omega
  · rw [List.append_assoc, Sink.bytesOf_append, List.length_append]
    omega

/-- A print statement that the first statements come to is one that the others come to. -/
theorem of_arrives {other : Evaluator} (h : Overruns stmts state room span env)
    (hsink : other.sink = state.sink)
    (harrives : ∀ lines text, Arrives stmts state lines span text env →
      Arrives others other lines span text env) :
    Overruns others other room span env := by
  obtain ⟨arrives, fits, exceeds⟩ := h
  rw [← hsink] at fits exceeds
  exact ⟨harrives _ _ arrives, fits, exceeds⟩

end Stmt.Overruns

/-- What a run adds to a sink that takes everything are the lines it prints. -/
theorem Stmt.Runs.sink_eq {stmts : List Stmt} {state after : Evaluator} {lines : List String}
    (h : Runs stmts state lines (.ok ()) after) :
    after.sink = state.sink.add (Sink.bytesOf lines) := by
  obtain ⟨rest, hrest, hsink⟩ := h.output
  cases hrest
  rw [hsink, List.append_nil]

namespace Execution

/-- Whatever the execution does on a sink that takes everything, it does the same on one with a
limit, up to the first line that does not fit. -/
def Caps (stmts : List Stmt) (execution : Execution) : Prop :=
  ∀ (machine : Machine) (limit : Sink.Limit), machine.sink.Free →
    machine.sink.written.size ≤ limit.room →
    ∀ free, execution machine = some free →
      Capped stmts machine.evaluator limit free (execution (machine.capped limit))

theorem Follows.exists_add {stmts : List Stmt} {execution : Execution}
    (h : execution.Follows stmts) {machine after : Machine} {ended : Except Fault Unit}
    (hrun : execution machine = some (ended, after)) :
    ∃ bytes, after.sink = machine.sink.add bytes := by
  obtain ⟨lines, hlines⟩ := h machine ended after hrun
  obtain ⟨rest, -, hsink⟩ := hlines.output
  exact ⟨_, hsink⟩

theorem caps_finish {stmts : List Stmt} : finish.Caps stmts := by
  rintro machine limit - hroom _ ⟨⟩
  exact .fits hroom

theorem caps_defining {stmts : List Stmt} (name : String) (value : Value) :
    (defining name value).Caps stmts := by
  rintro machine limit - hroom _ ⟨⟩
  exact .fits hroom

theorem Caps.logging {stmts : List Stmt} {next : Execution} (h : next.Caps stmts)
    (entry : Log.Entry) : (logging entry next).Caps stmts := by
  intro machine limit hfree hroom free hnext
  have hcapped := h (machine.log entry) limit (by rwa [Machine.sink_log])
    (by rwa [Machine.sink_log]) free hnext
  rw [Machine.evaluator_log, ← Machine.log_capped] at hcapped
  exact hcapped

theorem Caps.andThen {stmts others : List Stmt} {first second : Execution}
    (hfirst : first.Caps stmts) (hsecond : second.Caps others)
    (hstmts : first.Follows stmts) (hothers : second.Follows others) :
    (first.andThen second).Caps (stmts ++ others) := by
  rintro machine limit hfree hroom ⟨ended, after⟩ h
  rcases andThen_eq_some h with ⟨middle, hmiddle, hrest⟩ | ⟨fault, rfl, hfault⟩
  · obtain ⟨lines, hruns⟩ := hstmts machine _ middle hmiddle
    have hsink : middle.sink = machine.sink.add (Sink.bytesOf lines) := hruns.sink_eq
    have hcapped := hfirst machine limit hfree hroom _ hmiddle
    unfold Execution.andThen
    generalize first (machine.capped limit) = ran at hcapped ⊢
    cases hcapped with
    | fits size =>
      have hmiddleFree : middle.sink.Free := by
        rw [hsink]
        exact hfree.add _
      refine (hsecond middle limit hmiddleFree size _ hrest).lift fun span env hoverruns ↦ ?_
      exact hoverruns.past hruns hsink
    | cut size overruns sink =>
      obtain ⟨bytes, hbytes⟩ := hothers.exists_add hrest
      refine .cut ?_ (overruns.append others) ?_
      · rw [hbytes, Sink.size_add]
        omega
      · rw [sink, hbytes, Sink.truncated_add_of_le (Nat.le_of_lt size)]
  · have hcapped := hfirst machine limit hfree hroom _ hfault
    unfold Execution.andThen
    generalize first (machine.capped limit) = ran at hcapped ⊢
    cases hcapped with
    | fits size => exact .fits size
    | cut size overruns sink => exact .cut size (overruns.append others) sink

/-- A statement that starts with an expression goes on as other statements do. -/
theorem caps_evaluating {stmt : Stmt} {expr : Expr} {next : Value → Execution}
    (others : Value → List Stmt) (hnext : ∀ value, (next value).Caps (others value))
    (harrives : ∀ (state : Evaluator) value middle,
      expr.eval state.environment = (.ok value, middle) → ∀ lines span text env,
        Stmt.Arrives (others value) ⟨middle, state.sink⟩ lines span text env →
          Stmt.Arrives [stmt] state lines span text env) :
    (evaluating expr next).Caps [stmt] := by
  intro machine limit hfree hroom free h
  unfold evaluating at h ⊢
  rw [show (machine.capped limit).environment = machine.environment from rfl]
  split at h
  · next value middle heval =>
    have hcapped := hnext value { machine with environment := middle } limit hfree hroom free h
    refine hcapped.lift fun span env hoverruns ↦ hoverruns.of_arrives rfl fun lines text ↦ ?_
    exact harrives machine.evaluator value middle heval lines span text env
  · next fault middle heval =>
    cases h
    exact .fits hroom

theorem caps_print (expr : Expr) (span : Span) :
    (evaluating expr (writing span)).Caps [.print expr span] := by
  intro machine limit hfree hroom free h
  unfold evaluating at h ⊢
  rw [show (machine.capped limit).environment = machine.environment from rfl]
  split at h
  · next value env heval =>
    have hline : Sink.bytesOf [value.text] = Text.Utf8.encode (value.text ++ "\n") :=
      List.flatMap_singleton _ _
    have hsay := hfree.say (value.text ++ "\n")
    simp only [writing, hsay] at h
    cases h
    by_cases hfits : machine.sink.written.size + (Sink.bytesOf [value.text]).length ≤ limit.room
    · rw [hline] at hfits
      have hcapped := hfree.say_capped hfits
      simp only [writing, Machine.capped, hcapped]
      refine .fits ?_
      rw [← Sink.size_add] at hfits
      exact hfits
    · have hexceeds := Nat.lt_of_not_le hfits
      have hoverruns : Stmt.Overruns [.print expr span] machine.evaluator limit.room span env :=
        ⟨.here heval, hroom, hexceeds⟩
      rw [hline] at hexceeds
      have hcapped := Sink.say_capped_of_lt hroom hexceeds
      simp only [writing, Machine.capped, hcapped]
      refine .cut ?_ hoverruns rfl
      rw [← Sink.size_add] at hexceeds
      exact hexceeds
  · next fault env heval =>
    cases h
    exact .fits hroom

theorem Caps.inScope {body : List Stmt} {inside : Execution} (h : inside.Caps body)
    (place : Span) : (inScope inside).Caps [.block body place] := by
  intro machine limit hfree hroom free hscope
  obtain ⟨⟨ended, inner⟩, hinside, rfl⟩ := Option.map_eq_some_iff.mp hscope
  have hcapped := h machine.pushScope limit (by rwa [Machine.sink_pushScope])
    (by rwa [Machine.sink_pushScope]) _ hinside
  rw [Machine.evaluator_pushScope, ← Machine.pushScope_capped] at hcapped
  unfold Execution.inScope
  generalize inside (machine.capped limit).pushScope = ran at hcapped ⊢
  cases hcapped with
  | fits size =>
    change Capped _ _ limit (ended, inner.popScope) (some (ended, (inner.capped limit).popScope))
    rw [Machine.popScope_capped]
    exact .fits (by rwa [Machine.sink_popScope])
  | @cut _ _ stopped span size overruns sink =>
    refine .cut (by rwa [Machine.sink_popScope]) ?_ ?_
    · rw [Machine.environment_popScope]
      obtain ⟨arrives, fits, exceeds⟩ := overruns
      exact ⟨.block arrives, fits, exceeds⟩
    · rw [Machine.sink_popScope, Machine.sink_popScope]
      exact sink

theorem caps_whileLoop {condition : Expr} {body : Stmt} {inside : Execution}
    (h : inside.Caps [body]) (hfollows : inside.Follows [body]) (place : Span) (rounds : Nat) :
    (whileLoop condition inside rounds).Caps [.loop condition body place] := by
  induction rounds with
  | zero =>
    intro machine limit hfree hroom free hnone
    cases hnone
  | succ rounds ih =>
    rw [whileLoop_succ]
    refine caps_evaluating
      (fun value ↦ if value.truthy then [body, .loop condition body place] else [])
      (fun value ↦ ?_) ?_
    · split
      · exact h.andThen ih hfollows (follows_loop hfollows place rounds)
      · exact caps_finish
    · intro state value middle heval lines span text env harrives
      split at harrives
      · next hholds => exact .loop heval hholds harrives
      · exact absurd rfl harrives.ne_nil

end Execution

namespace Stmt

open Execution

mutual

theorem caps_exec (rounds : Nat) (stmt : Stmt) : (stmt.exec rounds).Caps [stmt] := by
  cases stmt with
  | expression expr span =>
    refine (caps_evaluating (fun _ ↦ []) (fun _ ↦ caps_finish) ?_).logging _
    exact fun _ _ _ _ _ _ _ _ harrives ↦ absurd rfl harrives.ne_nil
  | print expr span => exact (caps_print expr span).logging _
  | declare name initial span =>
    cases initial with
    | none => exact (caps_defining name .nil).logging _
    | some initial =>
      refine (caps_evaluating (fun _ ↦ []) (caps_defining name) ?_).logging _
      exact fun _ _ _ _ _ _ _ _ harrives ↦ absurd rfl harrives.ne_nil
  | block body span => exact ((caps_execAll rounds body).inScope span).logging _
  | branch condition thenBranch elseBranch span =>
    cases elseBranch with
    | none =>
      refine (caps_evaluating (chosen thenBranch none) (fun value ↦ ?_) ?_).logging _
      · unfold chosen
        split
        · exact caps_exec rounds thenBranch
        · exact caps_finish
      · exact fun _ _ _ heval _ _ _ _ harrives ↦ .branch heval harrives
    | some elseBranch =>
      refine (caps_evaluating (chosen thenBranch (some elseBranch)) (fun value ↦ ?_) ?_).logging _
      · unfold chosen
        split
        · exact caps_exec rounds thenBranch
        · exact caps_exec rounds elseBranch
      · exact fun _ _ _ heval _ _ _ _ harrives ↦ .branch heval harrives
  | loop condition body span =>
    exact (caps_whileLoop (caps_exec rounds body) (follows_exec rounds body) span rounds).logging _

theorem caps_execAll (rounds : Nat) (stmts : List Stmt) : (execAll rounds stmts).Caps stmts := by
  cases stmts with
  | nil => exact caps_finish
  | cons stmt rest =>
    exact (caps_exec rounds stmt).andThen (caps_execAll rounds rest) (follows_exec rounds stmt)
      (follows_execAll rounds rest)

end

end Stmt

/-! ## Programs -/

theorem Machine.caps_execProgram {machine : Machine} {limit : Sink.Limit} {rounds : Nat}
    {statements : List Stmt} {free : Except Fault Unit × Machine} (hfree : machine.sink.Free)
    (hroom : machine.sink.written.size ≤ limit.room)
    (h : machine.execProgram rounds statements = some free) :
    Capped statements machine.evaluator limit free
      ((machine.capped limit).execProgram rounds statements) :=
  (Stmt.caps_execAll rounds statements).logging _ machine limit hfree hroom free h

theorem Machine.depth_execProgram {machine after : Machine} {rounds : Nat} {statements : List Stmt}
    {ended : Except Fault Unit} (hdepth : 0 < machine.environment.depth)
    (h : machine.execProgram rounds statements = some (ended, after)) :
    after.environment.depth = machine.environment.depth := by
  have hframes := (Stmt.frames_execAll rounds statements).keeps_depth hdepth
  refine hframes _ ended after ?_ h
  rw [Machine.environment_log]

/-- A program that ends on a sink that takes everything has some output there. On a sink with room
for so many bytes more it ends in the same way if its output fits. If not, it writes the bytes for
which there is room and ends in a fault at the print statement whose line is the first that does
not fit. It ends in the environment that it has come to at that statement, with the scopes around
it closed. -/
theorem limited_sink_truncates (rounds : Nat) (statements : List Stmt) (machine after : Machine)
    (ended : Except Fault Unit) (hfree : machine.sink.Free)
    (hdepth : 0 < machine.environment.depth)
    (h : machine.execProgram rounds statements = some (ended, after)) :
    ∃ output, after.sink = machine.sink.add output ∧ ∀ (count : Nat) (complaint : String),
      let limited := machine.capped ⟨machine.sink.written.size + count, complaint⟩
      (output.length ≤ count → ∃ same,
        limited.execProgram rounds statements = some (ended, same) ∧
        same.environment = after.environment ∧ same.sink = limited.sink.add output) ∧
      (count < output.length → ∃ lines span text fault stopped,
        limited.execProgram rounds statements = some (.error fault, stopped) ∧
        fault.stage = .running ∧ fault.message = "Failed to write output: " ++ complaint ∧
        fault.span = span ∧
        Stmt.Arrives statements machine.evaluator lines span text stopped.environment ∧
        (Sink.bytesOf lines).length ≤ count ∧ count < (Sink.bytesOf (lines ++ [text])).length ∧
        stopped.sink = limited.sink.add (output.take count) ∧
        stopped.environment.depth = machine.environment.depth) := by
  obtain ⟨output, houtput⟩ := ((Stmt.follows_execAll rounds statements).logging _).exists_add h
  refine ⟨output, houtput, fun count complaint ↦ ?_⟩
  have hsize : after.sink.written.size = machine.sink.written.size + output.length := by
    rw [houtput, Sink.size_add]
  intro limited
  have hcapped : Capped statements machine.evaluator ⟨machine.sink.written.size + count, complaint⟩
      (ended, after) (limited.execProgram rounds statements) :=
    Machine.caps_execProgram hfree (Nat.le_add_right _ _) h
  have hlimitedDepth : ∀ result stopped,
      limited.execProgram rounds statements = some (result, stopped) →
        stopped.environment.depth = machine.environment.depth := by
    intro result stopped hstopped
    have hpos : 0 < limited.environment.depth := hdepth
    exact (Machine.depth_execProgram hpos hstopped :)
  generalize limited.execProgram rounds statements = ran at hcapped hlimitedDepth ⊢
  cases hcapped with
  | fits size =>
    dsimp only at size
    refine ⟨fun _ ↦ ⟨_, rfl, rfl, ?_⟩, fun hlong ↦ by omega⟩
    rw [Machine.capped, houtput]
    rfl
  | @cut _ _ stopped span size overruns sink =>
    dsimp only at size overruns sink
    refine ⟨fun hshort ↦ by omega, fun _ ↦ ?_⟩
    obtain ⟨arrives, fits, exceeds⟩ := overruns
    refine ⟨_, span, _, _, stopped, rfl, rfl, rfl, rfl, arrives, ?_, ?_, ?_, ?_⟩
    · exact Nat.le_of_add_le_add_left fits
    · exact Nat.lt_of_add_lt_add_left exceeds
    · rw [sink, houtput, Sink.truncated_add]
      rfl
    · exact hlimitedDepth _ _ rfl

/-- The second line is cut behind its first byte, inside of two blocks. -/
theorem limited_sink_truncates_nested :
    let source := "\x7b var a = \"x\"; print a; \x7b print \"yz\"; a = \"w\"; \x7d \x7d print \"v\";"
    let statements := (Program.ofSource .script source).statements
    ∃ lines span text fault stopped,
      (Machine.capped {} ⟨3, "full"⟩).execProgram 0 statements = some (.error fault, stopped) ∧
      fault.message = "Failed to write output: full" ∧ fault.span = span ∧
      Stmt.Arrives statements (Machine.evaluator {}) lines span text stopped.environment ∧
      stopped.sink.written.toList = [120, 10, 121] ∧ stopped.environment.depth = 1 := by
  intro source statements
  have hrun : (Machine.execProgram {} 0 statements).map (·.2.sink.written.toList) =
      some [120, 10, 121, 122, 10, 118, 10] := by decide +kernel
  obtain ⟨⟨ended, after⟩, hafter, hwritten⟩ := Option.map_eq_some_iff.mp hrun
  obtain ⟨output, houtput, hcut⟩ :=
    limited_sink_truncates 0 statements {} after ended ⟨rfl, rfl⟩ Nat.one_pos hafter
  have hbytes : output = [120, 10, 121, 122, 10, 118, 10] := by
    rw [houtput, Sink.add, Array.toList_appendList] at hwritten
    exact hwritten
  subst hbytes
  obtain ⟨lines, span, text, fault, stopped, hstopped, -, hmessage, hspan, harrives, -, -, hsink,
    hdepth⟩ := (hcut 3 "full").2 (by decide)
  exact ⟨lines, span, text, fault, stopped, hstopped, hmessage, hspan, harrives, by rw [hsink]; rfl,
    hdepth⟩

end LoxLang
