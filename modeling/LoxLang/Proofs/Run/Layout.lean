import LoxLang.Proofs.Run.Location
import LoxLang.Proofs.Run.Simulation

/-!
# Layout

White space, comments and line breaks are there to tell tokens apart. Two sources that are
scanned without a fault to the same tokens, but for their spans, are the same to whoever runs
them: they end alike, with faults that differ in their spans alone, and leave the same
environment and the same output.
-/

namespace LoxLang

/-! ## Units side by side -/

theorem stages_eq {related : Span → Span → Prop} {faults others : List Fault}
    (h : List.Forall₂ (Fault.Alike related) faults others) :
    faults.map Fault.stage = others.map Fault.stage := by
  induction h with
  | nil => rfl
  | cons hfault _ ih => rw [List.map_cons, List.map_cons, ih, Fault.stage, hfault.issue, Fault.stage]

theorem hadStaticFault_eq {faults others : List Fault}
    (h : faults.map Fault.stage = others.map Fault.stage) :
    hadStaticFault faults = hadStaticFault others := by
  have hany (list : List Fault) :
      hadStaticFault list = (list.map Fault.stage).any (· ≠ .running) := by
    rw [hadStaticFault, List.any_map]
    rfl
  rw [hany, hany, h]

theorem exitCode_eq {faults others : List Fault}
    (h : faults.map Fault.stage = others.map Fault.stage) : exitCode faults = exitCode others := by
  have hany (list : List Fault) :
      hadRuntimeFault list = (list.map Fault.stage).any (· = .running) := by
    rw [hadRuntimeFault, List.any_map]
    rfl
  rw [exitCode, exitCode, hadStaticFault_eq h, hany, hany, h]

theorem echoed?_alike {related : Span → Span → Prop} {statements others : List Stmt}
    (h : Stmt.AllAlike related statements others) :
    Option.Rel (fun first second ↦ first.1.Alike related second.1 ∧ related first.2 second.2)
      (echoed? statements) (echoed? others) := by
  cases h with
  | nil => exact .none
  | cons hstmt hrest =>
    cases hrest with
    | cons => cases hstmt <;> exact .none
    | nil =>
      cases hstmt with
      | expression hexpr hspan =>
        rw [echoed?, echoed?, hexpr.isAssign]
        split
        · exact .none
        · exact .some ⟨hexpr, hspan⟩
      | _ => exact .none

namespace Simulation

variable {sim : Simulation} {level : Nat}

/-- What two units leave: alike faults and related machines. -/
structure Units (sim : Simulation) (level : Nat) (first second : List Fault × Machine) : Prop where
  faults : List.Forall₂ (Fault.Alike sim.spans) first.1 second.1
  machines : sim.Machines level first.2 second.2

theorem units_collectFaults {before others : List Fault}
    {first second : Option (Except Fault Unit × Machine)}
    (hbefore : List.Forall₂ (Fault.Alike sim.spans) before others)
    (h : Option.Rel (sim.Ends level) first second) :
    Option.Rel (sim.Units level) (collectFaults before first) (collectFaults others second) := by
  cases h with
  | none => exact .none
  | @some ended otherEnded hended =>
    obtain ⟨result, machine⟩ := ended
    obtain ⟨otherResult, other⟩ := otherEnded
    obtain ⟨hresult, hmachines⟩ := hended
    cases hresult with
    | ok => exact .some ⟨hbefore, hmachines⟩
    | error hfault => exact .some ⟨List.rel_append hbefore (.cons hfault .nil), hmachines⟩

theorem Machines.of_eq {machine other after last : Machine} (h : sim.Machines level machine other)
    (hafter : after.environment = machine.environment ∧ after.sink = machine.sink)
    (hlast : last.environment = other.environment ∧ last.sink = other.sink) :
    sim.Machines level after last := by
  constructor
  · rw [hafter.1, hlast.1]
    exact h.environment
  · rw [hafter.2, hlast.2]
    exact h.sink

theorem Machines.read {machine other : Machine} (h : sim.Machines level machine other)
    (mode : Grammar.Mode) (source text : String) :
    sim.Machines level (machine.read mode source).2 (other.read mode text).2 :=
  h.of_eq ⟨machine.environment_read mode source, machine.sink_read mode source⟩
    ⟨other.environment_read mode text, other.sink_read mode text⟩

theorem Machines.log {machine other : Machine} (h : sim.Machines level machine other)
    (entry last : Log.Entry) : sim.Machines level (machine.log entry) (other.log last) :=
  h.of_eq ⟨machine.environment_log entry, machine.sink_log entry⟩
    ⟨other.environment_log last, other.sink_log last⟩

theorem Machines.execProgram {machine other : Machine} {statements others : List Stmt}
    (h : sim.Machines (level + 1) machine other)
    (hstatements : Stmt.AllAlike sim.spans statements others) (rounds : Nat) :
    Option.Rel (sim.Ends (level + 1)) (machine.execProgram rounds statements)
      (other.execProgram rounds others) :=
  matches_execAll hstatements rounds (fun hlevel ↦ absurd hlevel (Nat.succ_ne_zero level)) _ _
    (h.log _ _)

variable {source text : String} {machine other : Machine}

theorem units_run (hmachines : sim.Machines (level + 1) machine other)
    (hprogram : (Program.ofSource .script source).Alike sim.spans (.ofSource .script text))
    (rounds : Nat) :
    Option.Rel (sim.Units (level + 1)) (run rounds source [] machine) (run rounds text [] other) := by
  have hread := hmachines.read .script source text
  have hstatic := hadStaticFault_eq (stages_eq hprogram.faults)
  rw [run_eq, run_eq]
  by_cases hfault : hadStaticFault (Program.ofSource .script text).faults
  · rw [if_pos hfault, if_pos (hstatic.trans hfault)]
    exact .some ⟨hprogram.faults, hread.log _ _⟩
  · rw [if_neg hfault, if_neg (hstatic ▸ hfault)]
    exact units_collectFaults hprogram.faults (hread.execProgram hprogram.statements rounds)

theorem units_runLine (hmachines : sim.Machines (level + 1) machine other)
    (hprogram : (Program.ofSource .interactive source).Alike sim.spans (.ofSource .interactive text))
    (rounds : Nat) :
    Option.Rel (sim.Units (level + 1)) (runLine rounds source machine) (runLine rounds text other) := by
  have hread := hmachines.read .interactive source text
  have hstatic := hadStaticFault_eq (stages_eq hprogram.faults)
  have hechoed := echoed?_alike hprogram.statements
  rw [runLine_eq, runLine_eq]
  by_cases hfault : hadStaticFault (Program.ofSource .interactive text).faults
  · rw [if_pos hfault, if_pos (hstatic.trans hfault)]
    exact .some ⟨hprogram.faults, hread⟩
  · rw [if_neg hfault, if_neg (hstatic ▸ hfault)]
    generalize echoed? (Program.ofSource .interactive source).statements = echo at hechoed ⊢
    generalize echoed? (Program.ofSource .interactive text).statements = otherEcho at hechoed ⊢
    cases hechoed with
    | none =>
      exact units_collectFaults hprogram.faults (hread.execProgram hprogram.statements rounds)
    | some hecho =>
      obtain ⟨hexpr, hspan⟩ := hecho
      exact units_collectFaults hprogram.faults
        (matches_evaluating hexpr (matches_writing hspan) _ _ hread)

end Simulation

/-! ## Sources with the same tokens -/

/-- A token without its place. -/
structure Token.Content where
  kind : Token.Kind
  lexeme : String
  literal : Option Literal

def Token.content (token : Token) : Token.Content := ⟨token.kind, token.lexeme, token.literal⟩

theorem Token.alike_of_content_eq {token other : Token} (h : token.content = other.content) :
    token.Alike (fun _ _ ↦ True) other :=
  ⟨congrArg Content.kind h, congrArg Content.lexeme h, congrArg Content.literal h, trivial⟩

theorem Token.allAlike_of_content_eq {tokens others : List Token}
    (h : tokens.map content = others.map content) :
    Token.AllAlike (fun _ _ ↦ True) tokens others := by
  have hcontents : List.Forall₂ (fun token other ↦ token.content = other.content) tokens others := by
    rw [← List.forall₂_map_right_iff, ← List.forall₂_map_left_iff, List.forall₂_eq_eq_eq]
    exact h
  exact hcontents.imp fun _ _ ↦ alike_of_content_eq

/-- The sources are scanned without a fault, to the same tokens but for their spans. -/
structure SameTokens (source other : String) : Prop where
  clean : (Scan.ofSource source).faults = []
  otherClean : (Scan.ofSource other).faults = []
  contents : (Scan.ofSource source).tokens.map Token.content =
    (Scan.ofSource other).tokens.map Token.content

theorem SameTokens.alike {source other : String} (h : SameTokens source other)
    (mode : Grammar.Mode) :
    (Program.ofSource mode source).Alike (fun _ _ ↦ True) (.ofSource mode other) := by
  have hmarks : (Scan.ofSource source).endMark.Alike (fun _ _ ↦ True)
      (Scan.ofSource other).endMark :=
    ⟨rfl, rfl, rfl, trivial⟩
  have hparse := Program.alike_parse (fun _ _ _ _ _ _ ↦ trivial) rfl (fun _ ↦ Scan.kind_ne_eof)
    (Token.allAlike_of_content_eq h.contents) hmarks mode
  refine ⟨hparse.statements, ?_⟩
  simp only [Program.ofSource]
  rw [h.clean, h.otherClean]
  exact hparse.faults

/-! ## What can be observed -/

/-- A fault without its place in the source. -/
structure Fault.Content where
  stage : Stage
  locus : Locus
  message : String
  help : Option String
deriving DecidableEq

def Fault.content (fault : Fault) : Fault.Content :=
  ⟨fault.stage, fault.locus, fault.message, fault.help⟩

/-- What a unit leaves, but for the places of its faults and the log. -/
structure Effect where
  exitCode : Nat
  faults : List Fault.Content
  environment : Environment
  sink : Sink

def Effect.ofUnit (ended : List Fault × Machine) : Effect :=
  ⟨LoxLang.exitCode ended.1, ended.1.map Fault.content, ended.2.environment, ended.2.sink⟩

theorem contents_eq {related : Span → Span → Prop} {faults others : List Fault}
    (h : List.Forall₂ (Fault.Alike related) faults others) :
    faults.map Fault.content = others.map Fault.content := by
  induction h with
  | nil => rfl
  | @cons fault other _ _ hfault _ ih =>
    have hcontent : fault.content = other.content := by
      simp only [Fault.content, Fault.stage, Fault.message, Fault.help, hfault.locus, hfault.issue]
    rw [List.map_cons, List.map_cons, ih, hcontent]

theorem effects_eq {related : Span → Span → Prop} {level : Nat} {first second : UnitRun}
    (h : Option.Rel ((Simulation.identical related).Units level) first second) :
    first.map Effect.ofUnit = second.map Effect.ofUnit := by
  cases h with
  | none => rfl
  | @some ended other hended =>
    obtain ⟨hfaults, henvironment, hsink⟩ := hended
    have heffect : Effect.ofUnit ended = Effect.ofUnit other := by
      rw [Effect.ofUnit, Effect.ofUnit, exitCode_eq (stages_eq hfaults), contents_eq hfaults,
        henvironment, hsink]
    rw [Option.map_some, Option.map_some, heffect]

/-- Sources with the same tokens have the same effect on every machine, as scripts and as lines
of interactive input. If one of them does not end, then neither does the other. -/
theorem effect_of_sameTokens (rounds : Nat) (source other : String) (machine : Machine)
    (h : SameTokens source other) :
    (run rounds source [] machine).map Effect.ofUnit =
      (run rounds other [] machine).map Effect.ofUnit ∧
    (runLine rounds source machine).map Effect.ofUnit =
      (runLine rounds other machine).map Effect.ofUnit := by
  have hmachines : (Simulation.identical fun _ _ ↦ True).Machines 1 machine machine := ⟨rfl, rfl⟩
  constructor
  · exact effects_eq (Simulation.units_run hmachines (h.alike .script) rounds)
  · exact effects_eq (Simulation.units_runLine hmachines (h.alike .interactive) rounds)

/-- Tokens without literals are told apart by their kinds and lexemes. -/
theorem Token.map_content_eq {tokens : List Token} (h : ∀ token ∈ tokens, token.literal = none) :
    tokens.map content =
      (tokens.map fun token ↦ (token.kind, token.lexeme)).map fun pair ↦ ⟨pair.1, pair.2, none⟩ := by
  rw [List.map_map]
  apply List.map_congr_left
  intro token htoken
  rw [content, h token htoken]
  rfl

theorem effect_of_sameTokens_spread :
    let source := "\x7bvar a;print a;b;\x7d"
    let other := "\x7b // a scope\n var a ;\r\n\tprint a;\n b ; \x7d"
    SameTokens source other ∧
    (run 0 source [] {}).map (·.1.map (·.span.line)) = some [1] ∧
    (run 0 other [] {}).map (·.1.map (·.span.line)) = some [4] ∧
    (run 0 source [] {}).map Effect.ofUnit = (run 0 other [] {}).map Effect.ofUnit ∧
    (runLine 0 source {}).map Effect.ofUnit = (runLine 0 other {}).map Effect.ofUnit := by
  intro source other
  have hplain : ∀ text ∈ [source, other], ∀ token ∈ (Scan.ofSource text).tokens,
      token.literal = none := by
    simp only [← Option.isNone_iff_eq_none]
    decide +kernel
  have hsame : SameTokens source other := by
    refine ⟨by decide +kernel, by decide +kernel, ?_⟩
    rw [Token.map_content_eq (hplain source (by simp)), Token.map_content_eq (hplain other (by simp))]
    congr 1
    decide +kernel
  exact ⟨hsame, by decide +kernel, by decide +kernel, effect_of_sameTokens 0 source other {} hsame⟩

end LoxLang
