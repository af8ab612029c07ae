import LoxLang.Proofs.Grammar.Tape
import Mathlib.Data.List.TakeWhile

/-!
# Parsing any token list

A reader by index never crashes, whatever the tokens are, and gives the program that the rules
give. Every call in a circle comes behind a token that was taken, so the number of tokens bounds
how deep calls nest.
-/

namespace LoxLang.Indexed

open Indexed.Action

namespace Tape

variable {tape : Tape} {α : Type} {start final : Nat} {input rest : List Token} {token : Token}

/-! ## Expressions -/

theorem follows_taking (expr : Expr) :
    tape.Follows start start (token :: rest) (taking expr) (Rule.done expr rest) :=
  follows_advance.andThen (follows_pure expr)

section

variable (parts : Grammar.Parts) {count : Nat}

theorem peek_accepts (input : List Token) : Rule.peek.Accepts input (nextKind input) input :=
  Rule.accepts_peek.mpr ⟨rfl, rfl⟩

theorem remaining_accepts (input : List Token) : Rule.remaining.Accepts input input input :=
  Rule.accepts_remaining.mpr ⟨rfl, rfl⟩

theorem items_of_closing (h : token.kind = .rightBrace) :
    parts.items (count + 1) (token :: rest) = Rule.done [] (token :: rest) := by
  rw [Grammar.Parts.items, (peek_accepts _).bind_eq, nextKind_cons, h]
  rfl

theorem items_cons (h : token.kind ≠ .rightBrace) :
    parts.items (count + 1) (token :: rest) = (do
      let first ← parts.item
      let others ← parts.items count
      return first.toList ++ others : Rule (List Stmt)) (token :: rest) := by
  rw [Grammar.Parts.items, (peek_accepts _).bind_eq, nextKind_cons]
  generalize token.kind = kind at h
  cases kind with
  | rightBrace => exact absurd rfl h
  | _ => rfl

end

theorem stopped_items {calls : Calls} {mode : Grammar.Mode} {state : State}
    (h : tape.Aborted state) : items calls mode tape.tokens state = .ok (.ok [], state) := by
  rw [items, bind_ok (h.check .rightBrace)]
  exact bind_ok h.atEnd

variable (tape) in
/-- On inputs that are shorter than the bound the actions do what the rules do. -/
structure Simulates (mode : Grammar.Mode) (bound : Nat) (calls : Calls) : Prop where
  expression : ∀ budget input, input.length < bound →
    tape.Follows budget budget input calls.expression (Grammar.expression budget input)
  assignment : ∀ budget input, input.length < bound →
    tape.Follows budget budget input calls.assignment ((Grammar.level budget).assignment input)
  unary : ∀ budget input, input.length < bound →
    tape.Follows budget budget input calls.unary ((Grammar.level budget).unary input)
  operand : ∀ tiers budget input, input.length < bound →
    tape.Follows budget budget input (calls.operand tiers)
      ((Grammar.level budget).operand tiers input)
  chain : ∀ tier tighter left start final input, final ≤ nestingLimit → input.length < bound →
    tape.Follows start final input (calls.chain (nestingLimit - final) tier tighter left)
      ((Grammar.level start).chain tier tighter left input)
  statement : ∀ budget input, input.length < bound →
    tape.Follows budget budget input calls.statement
      ((Grammar.parts mode tape.mark.span budget).statement input)
  items : ∀ budget count input, input.length ≤ count → input.length < bound →
    tape.Recovers (fun _ ↦ True) budget input calls.items
      ((Grammar.parts mode tape.mark.span budget).items count input)
  skip : ∀ budget token rest, token :: rest <:+ tape.front → rest.length < bound →
    tape.Follows budget budget rest calls.skip (Rule.done () (Grammar.synchronize (token :: rest)))
  stopped : 0 < bound → ∀ state, tape.Aborted state →
    calls.items tape.tokens state = .ok (.ok [], state)

section

variable {mode : Grammar.Mode} {bound : Nat} {calls : Calls}
  (hcalls : tape.Simulates mode bound calls)

include hcalls

theorem follows_group (budget : Nat) (opening : Span) (h : input.length < bound) :
    tape.Follows budget budget input (group calls opening)
      (Grammar.group (Grammar.below budget) opening input) := by
  rw [Grammar.group, (peek_accepts input).bind_eq]
  refine Follows.check (fun hkind ↦ ?_) fun hkind ↦ ?_
  · rw [if_pos hkind]
    exact follows_peek.andThen (follows_fail .emptyParens)
  · rw [if_neg hkind, ← Grammar.expression_eq_deeper]
    apply (hcalls.expression budget input h).bind
    intro inner rest hrest
    apply (follows_consume .rightParen .noParenAfterExpression).bind
    intro closing rest hrest
    exact follows_pure _

theorem follows_primary (budget : Nat) (h : input.length ≤ bound) :
    tape.Follows budget budget input (primary calls)
      (Grammar.primary (Grammar.below budget) input) := by
  apply follows_peek.andThen
  cases input with
  | nil =>
    have hmark : tape.mark.kind = .eof := tape.mark_kind
    simp only [List.headD_nil, hmark]
    exact follows_fail (.noExpression .eof)
  | cons token rest =>
    have hgroup (opening : Span) : tape.Follows budget budget rest (group calls opening)
        (Grammar.group (Grammar.below budget) opening rest) :=
      follows_group hcalls budget opening h
    obtain ⟨kind, lexeme, literal, span⟩ := token
    rcases literal with - | x | s <;> cases kind <;> first
      | exact follows_taking _
      | exact follows_advance.andThen (hgroup span)
      | exact follows_fail _

theorem follows_unary (budget : Nat) (h : input.length ≤ bound) :
    tape.Follows budget budget input (unary calls)
      (Grammar.unary (Grammar.below budget) input) := by
  refine Follows.operator (fun _ _ ↦ Grammar.ofKind?_eq_some_iff) ?_ ?_
  · rintro token rest op rfl hop hplace
    apply (follows_previous hplace).andThen
    simp only [hop, Grammar.unary]
    apply (follows_deeper (fun less ↦ hcalls.unary less rest h) budget).bind
    intro operand left hleft
    exact follows_pure _
  · intro hnone
    have hprimary : Grammar.unary (Grammar.below budget) input =
        Grammar.primary (Grammar.below budget) input := by
      cases input with
      | nil => rfl
      | cons token rest => simp only [Grammar.unary, hnone token rest rfl]
    rw [hprimary]
    exact follows_primary hcalls budget h

theorem follows_chain (tier : Tier) (tighter : List Tier) (left : Expr)
    (hfinal : final ≤ nestingLimit) (h : input.length ≤ bound) :
    tape.Follows start final input (chain calls (nestingLimit - final) tier tighter left)
      (Grammar.chain (Grammar.below start) tier tighter left input) := by
  refine Follows.operator (fun _ _ ↦ Tier.connective?_eq_some_iff) ?_ ?_
  · rintro token rest connective rfl hconnective hplace
    simp only [Grammar.chain, hconnective]
    cases start with
    | zero => exact (follows_deepen_zero 0).exceeds
    | succ less =>
      apply follows_deepen.andThen
      apply (follows_previous hplace).andThen
      simp only [hconnective]
      apply (hcalls.operand tighter less rest h).bind
      intro right after hafter
      exact hcalls.chain tier tighter _ less final after hfinal
        (Nat.lt_of_le_of_lt hafter.length_le h)
  · intro hnone
    have hdone : Grammar.chain (Grammar.below start) tier tighter left input =
        Rule.done left input := by
      cases input with
      | nil => rfl
      | cons token rest => simp only [Grammar.chain, hnone token rest rfl]
    rw [hdone]
    exact (follows_restore hfinal).andThen (follows_pure left)

theorem follows_operand (tiers : List Tier) (budget : Nat) (h : input.length ≤ bound) :
    tape.Follows budget budget input (operand calls tiers)
      (Grammar.operand (Grammar.below budget) tiers input) := by
  induction tiers with
  | nil => exact follows_unary hcalls budget h
  | cons tier tighter ih =>
    apply Follows.of_budget
    intro hbudget
    apply follows_level.andThen
    apply ih.bind
    intro left rest hrest
    exact follows_chain hcalls tier tighter left hbudget (Nat.le_trans hrest.length_le h)

theorem follows_assignment (budget : Nat) (h : input.length ≤ bound) :
    tape.Follows budget budget input (assignment calls)
      (Grammar.assignment (Grammar.below budget) input) := by
  apply (follows_operand hcalls Tier.all budget h).bind
  intro target left hleft
  refine Follows.accept ?_ (follows_pure target)
  rintro equals rest rfl hplace
  have hrest : rest.length < bound := Nat.lt_of_succ_le (Nat.le_trans hleft.length_le h)
  have herror : errorAt equals .badAssignmentTarget = .atToken equals .badAssignmentTarget :=
    if_neg (kind_ne_eof hplace)
  apply (follows_previous hplace).andThen
  apply (follows_deeper (fun less ↦ hcalls.assignment less rest hrest) budget).bind
  intro value after hafter
  rw [herror]
  cases target with
  | reference name span => exact follows_pure _
  | _ => exact (follows_record _).bind fun _ _ _ ↦ follows_pure _

theorem follows_expression (budget : Nat) (h : input.length ≤ bound) :
    tape.Follows budget budget input (expression calls) (Grammar.expression budget input) := by
  rw [Grammar.expression_eq_deeper]
  apply follows_deeper
  intro less
  rw [Grammar.level_eq_above]
  exact follows_assignment hcalls less h

/-! ## Statements -/

theorem follows_varDeclaration (budget : Nat) (hplace : token :: rest <:+ tape.front)
    (h : rest.length ≤ bound) :
    tape.Follows budget budget rest (varDeclaration calls)
      ((Grammar.parts mode tape.mark.span budget).declaration token.span rest) := by
  apply (follows_previous hplace).andThen
  apply (follows_consume .identifier .noVariableName).bind
  intro name input hinput
  have hlength : input.length ≤ bound := Nat.le_trans hinput.length_le h
  have hclosing (initial : Option Expr) {input : List Token} :
      tape.Follows budget budget input
        (consume .semicolon .noSemicolonAfterDeclaration >>= fun closing ↦
          pure (Stmt.declare name.lexeme initial (token.span.cover closing.span)))
        ((Rule.expect .semicolon .noSemicolonAfterDeclaration >>= fun closing ↦
          pure (Stmt.declare name.lexeme initial (token.span.cover closing.span))) input) :=
    (follows_consume .semicolon .noSemicolonAfterDeclaration).bind fun _ _ _ ↦ follows_pure _
  refine Follows.accept (fun equals left hleft _ ↦ ?_) (hclosing none)
  rw [Grammar.parts_expression]
  have hvalue : left.length ≤ bound := by
    rw [hleft] at hlength
    exact Nat.le_of_succ_le hlength
  apply ((follows_expression hcalls budget hvalue).map some).bind
  intro initial rest hrest
  exact hclosing initial

theorem follows_print (budget : Nat) (hplace : token :: rest <:+ tape.front)
    (h : rest.length ≤ bound) :
    tape.Follows budget budget rest (print calls)
      ((Grammar.parts mode tape.mark.span budget).print token.span rest) := by
  apply (follows_previous hplace).andThen
  rw [Grammar.Parts.print, Grammar.parts_expression]
  apply (follows_expression hcalls budget h).bind
  intro expr left hleft
  apply (follows_consume .semicolon .noSemicolonAfterValue).bind
  intro closing left hleft
  exact follows_pure _

/-- A condition in parentheses, and what goes on behind it. -/
theorem Follows.condition {next : Expr → Rule α} {second : Expr → Action α} {budget : Nat}
    (noOpening noClosing : Issue) (h : input.length < bound)
    (hnext : ∀ condition rest, rest.length < bound →
      tape.Follows budget budget rest (second condition) (next condition rest)) :
    tape.Follows budget budget input
      (do
        let _ ← consume .leftParen noOpening
        let condition ← expression calls
        let _ ← consume .rightParen noClosing
        second condition)
      ((do
        let _ ← Rule.expect .leftParen noOpening
        let condition ← Grammar.expression budget
        let _ ← Rule.expect .rightParen noClosing
        next condition : Rule α) input) := by
  apply (follows_consume .leftParen noOpening).bind
  intro _ left hleft
  have hlength : left.length < bound := Nat.lt_of_le_of_lt hleft.length_le h
  apply (follows_expression hcalls budget (Nat.le_of_lt hlength)).bind
  intro condition behind hbehind
  apply (follows_consume .rightParen noClosing).bind
  intro _ rest hrest
  exact hnext condition rest (Nat.lt_of_le_of_lt (hrest.trans hbehind).length_le hlength)

theorem follows_branch (budget : Nat) (hplace : token :: rest <:+ tape.front)
    (h : rest.length < bound) :
    tape.Follows budget budget rest (branch calls)
      ((Grammar.parts mode tape.mark.span budget).branch token.span rest) := by
  apply (follows_previous hplace).andThen
  rw [Grammar.Parts.branch, Grammar.parts_expression]
  apply Follows.condition hcalls .noParenAfterIf .noParenAfterIfCondition h
  intro condition input hinput
  apply (hcalls.statement budget input hinput).bind
  intro thenBranch behind hbehind
  refine Follows.accept (fun _ other hother _ ↦ ?_) (follows_pure _)
  have hshorter : other.length < bound := by
    rw [hother] at hbehind
    exact Nat.lt_trans hbehind.length_le hinput
  apply (hcalls.statement budget other hshorter).bind
  intro elseBranch last hlast
  exact follows_pure _

theorem follows_loop (budget : Nat) (hplace : token :: rest <:+ tape.front)
    (h : rest.length < bound) :
    tape.Follows budget budget rest (loop calls)
      ((Grammar.parts mode tape.mark.span budget).loop token.span rest) := by
  apply (follows_previous hplace).andThen
  rw [Grammar.Parts.loop, Grammar.parts_expression]
  apply Follows.condition hcalls .noParenAfterWhile .noParenAfterWhileCondition h
  intro condition input hinput
  apply (hcalls.statement budget input hinput).bind
  intro body last hlast
  exact follows_pure _

/-- At the end of interactive input the last token closes a statement. -/
theorem follows_expressionStatement (budget : Nat) (h : input.length ≤ bound) :
    tape.Follows budget budget input (expressionStatement calls mode)
      ((Grammar.parts mode tape.mark.span budget).expressionStatement input) := by
  apply Follows.of_suffix
  intro hinput
  have hopening : (input.headD tape.mark).span = Grammar.firstSpan tape.mark.span input := by
    cases input <;> rfl
  rw [Grammar.Parts.expressionStatement, (remaining_accepts input).bind_eq]
  apply follows_peek.andThen
  rw [hopening, Grammar.parts_expression, Grammar.parts_eof, Grammar.parts_mode]
  apply (follows_expression hcalls budget h).bind_done
  intro expr left houtcome hleft
  rw [(peek_accepts left).bind_eq]
  apply follows_atEnd.andThen
  by_cases hend : mode = .interactive ∧ left = []
  · obtain ⟨hmode, rfl⟩ := hend
    -- The token before the index is one of the input, as an expression takes one at least.
    have hne : input ≠ [] := by
      rintro rfl
      have htaken := (Grammar.consumes_expression budget []).outcome
      rw [houtcome] at htaken
      exact Nat.not_succ_le_zero _ htaken.2
    have hclosing : Grammar.lastSpan tape.mark.span input = (input.getLast hne).span := by
      rw [Grammar.lastSpan, List.getLast?_eq_some_getLast hne]
      rfl
    have hplace : [input.getLast hne] <:+ tape.front :=
      List.IsSuffix.trans ⟨input.dropLast, List.dropLast_concat_getLast hne⟩ hinput
    rw [if_pos ⟨hmode, rfl⟩, if_pos ⟨hmode, rfl⟩, hclosing]
    exact (follows_previous hplace).andThen (follows_pure _)
  · have hnext : ¬(mode = .interactive ∧ nextKind left = none) := by
      simpa [nextKind] using hend
    have hnotEmpty : ¬(mode = .interactive ∧ left.isEmpty) := by
      simpa using hend
    rw [if_neg hnotEmpty, if_neg hnext]
    apply (follows_consume .semicolon .noSemicolonAfterExpression).bind
    intro closing rest hrest
    exact follows_pure _

theorem follows_forInitial (budget : Nat) (h : input.length ≤ bound) :
    tape.Follows budget budget input (forInitial calls mode)
      ((Grammar.parts mode tape.mark.span budget).forInitial input) := by
  refine Follows.accept (fun _ _ _ _ ↦ follows_pure none) ?_
  refine Follows.accept (fun token rest hinput hplace ↦ ?_) ?_
  · have hrest : rest.length ≤ bound := by
      rw [hinput] at h
      exact Nat.le_of_succ_le h
    exact (follows_varDeclaration hcalls budget hplace hrest).map some
  · exact (follows_expressionStatement hcalls budget h).map some

theorem follows_expressionUnless (budget : Nat) (stop : Token.Kind) (h : input.length ≤ bound) :
    tape.Follows budget budget input (expressionUnless calls stop)
      ((Grammar.parts mode tape.mark.span budget).expressionUnless stop input) := by
  rw [Grammar.Parts.expressionUnless, (peek_accepts input).bind_eq, Grammar.parts_expression]
  refine Follows.check (fun hkind ↦ ?_) fun hkind ↦ ?_
  · rw [if_pos hkind]
    exact follows_pure none
  · rw [if_neg hkind]
    exact (follows_expression hcalls budget h).map some

theorem follows_forClauses (budget : Nat) (h : input.length ≤ bound) :
    tape.Follows budget budget input (forClauses calls mode)
      ((Grammar.parts mode tape.mark.span budget).forClauses input) := by
  apply (follows_consume .leftParen .noParenAfterFor).bind
  intro _ first hfirst
  have hlength : first.length ≤ bound := Nat.le_trans hfirst.length_le h
  apply (follows_forInitial hcalls budget hlength).bind
  intro initial second hsecond
  have hcondition : second.length ≤ bound := Nat.le_trans hsecond.length_le hlength
  apply (follows_expressionUnless hcalls budget .semicolon hcondition).bind
  intro condition third hthird
  apply (follows_consume .semicolon .noSemicolonAfterCondition).bind
  intro separator last hlast
  have hincrement : last.length ≤ bound :=
    Nat.le_trans (hlast.trans hthird).length_le hcondition
  apply (follows_expressionUnless hcalls budget .rightParen hincrement).bind
  intro increment behind hbehind
  apply (follows_consume .rightParen .noParenAfterForClauses).bind
  intro _ rest hrest
  exact follows_pure _

theorem follows_forLoop (budget : Nat) (hplace : token :: rest <:+ tape.front)
    (h : rest.length < bound) :
    tape.Follows budget budget rest (forLoop calls mode)
      ((Grammar.parts mode tape.mark.span budget).forLoop token.span rest) := by
  apply (follows_previous hplace).andThen
  apply (follows_forClauses hcalls budget (Nat.le_of_lt h)).bind
  intro clauses input hinput
  apply (hcalls.statement budget input (Nat.lt_of_le_of_lt hinput.length_le h)).bind
  intro body last hlast
  exact follows_pure _

theorem follows_block (budget : Nat) (hplace : token :: rest <:+ tape.front)
    (h : rest.length < bound) :
    tape.Follows budget budget rest (block calls)
      ((Grammar.parts mode tape.mark.span budget).block token.span rest) := by
  apply (follows_previous hplace).andThen
  rw [Grammar.Parts.block, (remaining_accepts rest).bind_eq]
  apply (hcalls.items budget rest.length rest (Nat.le_refl _) h).bind
  · intro body left hleft
    apply Follows.of_suffix
    intro hinput
    apply (follows_consume .rightBrace .noBraceAfterBlock).bind_done
    intro closing behind houtcome _
    rw [eq_cons_of_expect houtcome] at hinput
    exact (follows_previous hinput).andThen (follows_pure _)
  · intro body state haborted
    obtain ⟨fault, hfault⟩ := haborted.consume .rightBrace .noBraceAfterBlock
    exact ⟨fault, bind_error hfault⟩

theorem follows_body (budget : Nat) (h : input.length ≤ bound) :
    tape.Follows budget budget input (body calls mode)
      ((Grammar.parts mode tape.mark.span budget).body input) := by
  have hshorter {rest : List Token} (hrest : rest.length < input.length) : rest.length < bound :=
    Nat.lt_of_lt_of_le hrest h
  refine Follows.keyword (fun _ _ hkind ↦ by simp only [Grammar.Parts.body, hkind])
    (fun _ _ hplace hrest ↦ follows_print hcalls budget hplace (Nat.le_of_lt (hshorter hrest)))
    fun hprint ↦ ?_
  refine Follows.keyword (fun _ _ hkind ↦ by simp only [Grammar.Parts.body, hkind])
    (fun _ _ hplace hrest ↦ follows_block hcalls budget hplace (hshorter hrest)) fun hbrace ↦ ?_
  refine Follows.keyword (fun _ _ hkind ↦ by simp only [Grammar.Parts.body, hkind])
    (fun _ _ hplace hrest ↦ follows_branch hcalls budget hplace (hshorter hrest)) fun hif ↦ ?_
  refine Follows.keyword (fun _ _ hkind ↦ by simp only [Grammar.Parts.body, hkind])
    (fun _ _ hplace hrest ↦ follows_loop hcalls budget hplace (hshorter hrest)) fun hwhile ↦ ?_
  refine Follows.keyword (fun _ _ hkind ↦ by simp only [Grammar.Parts.body, hkind])
    (fun _ _ hplace hrest ↦ follows_forLoop hcalls budget hplace (hshorter hrest)) fun hfor ↦ ?_
  have hbody : (Grammar.parts mode tape.mark.span budget).body input =
      (Grammar.parts mode tape.mark.span budget).expressionStatement input := by
    cases input with
    | nil => rfl
    | cons token rest =>
      simp only [Grammar.Parts.body]
      split <;> simp_all
  rw [hbody]
  exact follows_expressionStatement hcalls budget h

theorem follows_statement (budget : Nat) (h : input.length ≤ bound) :
    tape.Follows budget budget input (statement calls mode)
      ((Grammar.parts mode tape.mark.span budget).statement input) := by
  cases budget with
  | zero => exact follows_nested_zero _
  | succ less => exact follows_nested (follows_body hcalls less h)

theorem follows_skip (budget : Nat) (hplace : token :: rest <:+ tape.front)
    (h : rest.length ≤ bound) :
    tape.Follows budget budget rest (skip calls)
      (Rule.done () (Grammar.synchronize (token :: rest))) := by
  apply follows_atEnd.andThen
  cases rest with
  | nil =>
    have hnone : Grammar.synchronize [token] = [] := by
      simp [Grammar.synchronize]
    rw [hnone]
    exact follows_pure ()
  | cons next others =>
    apply (follows_previous hplace).andThen
    by_cases hsemicolon : token.kind = .semicolon
    · rw [if_pos hsemicolon, Grammar.synchronize, if_pos (.inl hsemicolon)]
      exact follows_pure ()
    · rw [if_neg hsemicolon]
      apply follows_peek.andThen
      by_cases hstarts : Grammar.startsStatement next.kind
      · rw [List.headD_cons, if_pos hstarts, Grammar.synchronize, if_pos (.inr hstarts)]
        exact follows_pure ()
      · have hstay : ¬(token.kind = .semicolon ∨
            (next :: others).head?.any fun next ↦ Grammar.startsStatement next.kind) := by
          rintro (heq | hnext)
          · exact hsemicolon heq
          · exact hstarts hnext
        rw [List.headD_cons, if_neg hstarts, Grammar.synchronize, if_neg hstay]
        apply follows_advance.andThen
        exact hcalls.skip budget next others ((List.suffix_cons _ _).trans hplace) h

theorem follows_synchronize (budget : Nat) (h : input.length ≤ bound) :
    tape.Follows budget budget input (synchronize calls)
      (Rule.done () (Grammar.synchronize input)) := by
  apply Follows.of_suffix
  intro hinput
  cases input with
  | nil =>
    have hadvance : ∃ token, tape.Follows budget budget [] advance (Rule.done token []) :=
      exists_follows_advance
    obtain ⟨token, hadvance⟩ := hadvance
    apply hadvance.andThen
    exact follows_atEnd.andThen (follows_pure ())
  | cons token rest =>
    exact follows_advance.andThen (follows_skip hcalls budget hinput (Nat.le_of_succ_le h))

theorem follows_declarationOrStatement (budget : Nat) (h : input.length ≤ bound) :
    tape.Follows budget budget input (declarationOrStatement calls mode)
      ((Grammar.parts mode tape.mark.span budget).declarationOrStatement input) := by
  refine Follows.accept (fun token rest hinput hplace ↦ ?_) (follows_statement hcalls budget h)
  subst hinput
  exact follows_varDeclaration hcalls budget hplace (Nat.le_of_succ_le h)

theorem follows_recording (budget : Nat) (fault : Fault) (h : input.length ≤ bound) :
    tape.Follows budget budget input
      (do
        record fault
        synchronize calls
        return none : Action (Option Stmt))
      ⟨[fault], .done none (Grammar.synchronize input)⟩ := by
  have hrecord : tape.Follows budget budget input
      (record fault >>= fun _ ↦ synchronize calls >>= fun _ ↦ (pure none : Action (Option Stmt)))
      ((Rule.note fault >>= fun _ rest ↦ ⟨[], .done none (Grammar.synchronize rest)⟩) input) := by
    apply (follows_record fault).bind
    intro _ rest hrest
    apply (follows_synchronize hcalls budget (Nat.le_trans hrest.length_le h)).andThen
    exact follows_pure none
  exact hrecord

/-- A declaration is read, or given up and passed over, or reading is given up. -/
theorem recovers_catching (budget : Nat) (h : input.length ≤ bound) :
    tape.Recovers (· = none) budget input
      (catching (levelled (declarationOrStatement calls mode)) (synchronize calls))
      ((Grammar.parts mode tape.mark.span budget).item input) := by
  intro state hready
  obtain ⟨⟨result, after⟩, hrun, hends⟩ :=
    follows_declarationOrStatement hcalls budget h state hready
  have hlevelled : levelled (declarationOrStatement calls mode) tape.tokens state =
      .ok (result, { after with depth := state.depth }) := by
    simp only [levelled, hrun]
  simp only [catching, hlevelled, Grammar.Parts.item, Grammar.recovering, Grammar.parts_eof]
  generalize (Grammar.parts mode tape.mark.span budget).declarationOrStatement input = reading
    at hends
  cases hends with
  | done suffix ready recorded =>
    exact ⟨_, rfl, .done suffix (ready.withDepth hready.depth) recorded⟩
  | @failed faults issue rest _ suffix placed recorded =>
    have hrest : rest.length ≤ bound := Nat.le_trans suffix.length_le h
    obtain ⟨last, hlast, hrecorded⟩ := follows_recording hcalls budget
      (.atNext tape.mark.span issue rest) hrest _ (placed.withDepth hready.depth)
    dsimp only
    rw [if_neg (ne_true_of_eq_false placed.running)]
    refine ⟨last, hlast, ?_⟩
    cases hrecorded with
    | done behind ready records =>
      refine .done (behind.trans suffix) ready ?_
      rw [records, recorded, List.append_assoc]
  | tooDeep aborted recorded =>
    dsimp only
    rw [if_pos aborted.aborted]
    exact ⟨_, rfl, .tooDeep rfl ⟨aborted.current, aborted.aborted⟩ recorded⟩

/-- A declaration that is tried before the end takes a token. -/
theorem recovers_declaration (budget : Nat) (h : (token :: rest).length ≤ bound) :
    tape.Recovers (· = none) budget (token :: rest) (declaration calls mode)
      ((Grammar.parts mode tape.mark.span budget).item (token :: rest)) := by
  intro state hready
  obtain ⟨⟨result, after⟩, hrun, hsettles⟩ := recovers_catching hcalls budget h state hready
  -- The rule takes a token, and the last token, where reading is given up, is behind all input.
  have hmoves : state.current < after.current := by
    have hcurrent := hready.current
    rw [List.length_cons] at hcurrent
    generalize hitem : (Grammar.parts mode tape.mark.span budget).item (token :: rest) = reading
      at hsettles
    cases hsettles with
    | done suffix ready recorded =>
      have hleft := (Grammar.item_suffix hitem).length_le
      have hafter := ready.current
      omega
    | tooDeep nothing aborted recorded =>
      have hlength : tape.tokens.length = tape.front.length + (tape.tail.length + 1) := by
        rw [tokens, List.length_append, List.length_cons]
      rw [aborted.current, hlength]
      omega
  refine ⟨(result, after), ?_, hsettles⟩
  have hstay : ¬((tape.tokens[state.current]?.any (·.kind ≠ .eof)) ∧
      after.current ≤ state.current) :=
    fun hstuck ↦ Nat.not_lt_of_le hstuck.2 hmoves
  simp only [declaration, moving, hrun]
  rw [if_neg hstay]

theorem recovers_items (budget count : Nat) (hcount : input.length ≤ count)
    (h : input.length ≤ bound) :
    tape.Recovers (fun _ ↦ True) budget input (items calls mode)
      ((Grammar.parts mode tape.mark.span budget).items count input) := by
  apply (follows_check .rightBrace).andRecovers
  cases input with
  | nil =>
    have hitems : (Grammar.parts mode tape.mark.span budget).items count [] = Rule.done [] [] := by
      cases count <;> rfl
    rw [hitems]
    exact follows_atEnd.andRecovers (recovers_pure budget [])
  | cons token rest =>
    cases count with
    | zero => exact absurd hcount (Nat.not_succ_le_zero _)
    | succ count =>
      rw [nextKind_cons]
      by_cases hkind : token.kind = .rightBrace
      · rw [items_of_closing _ hkind, hkind]
        exact recovers_pure budget []
      · have hnext : decide (some token.kind = some .rightBrace) = false := by
          simpa using hkind
        rw [items_cons _ hkind, hnext]
        apply follows_atEnd.andRecovers
        apply (recovers_declaration hcalls budget h).andThen
        · intro first faults left hitem
          have hleft := (Grammar.item_suffix hitem).length_le
          have hitems := hcalls.items budget count left
            (Nat.le_trans hleft (Nat.le_of_succ_le_succ hcount)) (Nat.lt_of_le_of_lt hleft h)
          apply hitems.andThen
          · intro others _ last _
            exact recovers_pure budget _
          · intro others state _ _
            exact ⟨_, trivial, rfl⟩
        · intro first state _ haborted
          have hstopped := hcalls.stopped (Nat.lt_of_lt_of_le (Nat.succ_pos _) h) state haborted
          exact ⟨_, trivial, bind_ok hstopped⟩

end

/-- The number of nested calls is a bound on the input. -/
theorem simulates_callsWithin (mode : Grammar.Mode) (bound : Nat) :
    tape.Simulates mode bound (callsWithin mode bound) := by
  induction bound with
  | zero =>
    constructor
    case stopped => exact fun hpos ↦ absurd hpos (Nat.lt_irrefl 0)
    all_goals
      intros
      exact absurd ‹_ < 0› (Nat.not_lt_zero _)
  | succ bound ih =>
    constructor
    case expression => exact fun budget _ h ↦ follows_expression ih budget (Nat.le_of_lt_succ h)
    case assignment =>
      intro budget input h
      rw [Grammar.level_eq_above]
      exact follows_assignment ih budget (Nat.le_of_lt_succ h)
    case unary =>
      intro budget input h
      rw [Grammar.level_eq_above]
      exact follows_unary ih budget (Nat.le_of_lt_succ h)
    case operand =>
      intro tiers budget input h
      rw [Grammar.level_eq_above]
      exact follows_operand ih tiers budget (Nat.le_of_lt_succ h)
    case chain =>
      intro tier tighter left start final input hfinal h
      rw [Grammar.level_eq_above]
      exact follows_chain ih tier tighter left hfinal (Nat.le_of_lt_succ h)
    case statement => exact fun budget _ h ↦ follows_statement ih budget (Nat.le_of_lt_succ h)
    case items =>
      exact fun budget count _ hcount h ↦
        recovers_items ih budget count hcount (Nat.le_of_lt_succ h)
    case skip =>
      exact fun budget _ _ hplace h ↦ follows_skip ih budget hplace (Nat.le_of_lt_succ h)
    case stopped => exact fun _ _ ↦ stopped_items

/-! ## Programs -/

theorem stopped_declarations {mode : Grammar.Mode} {bound : Nat} {state : State}
    (h : tape.Aborted state) :
    declarations mode (bound + 1) tape.tokens state = .ok (.ok [], state) := by
  rw [declarations]
  exact bind_ok h.atEnd

/-- Declarations are collected one by one, up to the end. -/
theorem exists_declarations (mode : Grammar.Mode) {bound count : Nat} {state : State}
    (hcount : input.length ≤ count) (h : input.length < bound)
    (hready : tape.Ready input nestingLimit state) :
    ∃ after, declarations mode bound tape.tokens state =
        .ok (.ok (Program.collect tape.mark.span
          (Grammar.parts mode tape.mark.span nestingLimit).item count input).statements, after) ∧
      after.faults = state.faults ++ (Program.collect tape.mark.span
        (Grammar.parts mode tape.mark.span nestingLimit).item count input).faults := by
  induction bound generalizing count input state with
  | zero => exact absurd h (Nat.not_lt_zero _)
  | succ bound ih =>
    obtain ⟨result, hatEnd, hends⟩ := follows_atEnd state hready
    cases hends with
    | @done _ _ _ middle _ ready recorded =>
      rw [declarations, bind_ok hatEnd]
      cases input with
      | nil =>
        have hcollect : Program.collect tape.mark.span
            (Grammar.parts mode tape.mark.span nestingLimit).item count [] = ⟨[], []⟩ := by
          cases count <;> rfl
        rw [hcollect]
        exact ⟨middle, rfl, recorded⟩
      | cons token rest =>
        cases count with
        | zero => exact absurd hcount (Nat.not_succ_le_zero _)
        | succ count =>
          have hlength : rest.length < bound := Nat.lt_of_succ_lt_succ h
          obtain ⟨⟨first, after⟩, hfirst, hsettles⟩ := recovers_declaration
            (simulates_callsWithin mode bound) nestingLimit hlength middle ready
          generalize hitem : (Grammar.parts mode tape.mark.span nestingLimit).item (token :: rest) =
            reading at hsettles
          simp only [Program.collect, hitem]
          cases hsettles with
          | done suffix readyAfter recordedAfter =>
            have hleft := (Grammar.item_suffix hitem).length_le
            obtain ⟨last, hlast, hfaults⟩ := ih (Nat.le_trans hleft (Nat.le_of_succ_le_succ hcount))
              (Nat.lt_of_le_of_lt hleft hlength) readyAfter
            refine ⟨last, (bind_ok hfirst).trans (bind_ok hlast), ?_⟩
            rw [hfaults, recordedAfter, recorded, List.append_nil, List.append_assoc]
          | tooDeep nothing aborted recordedAfter =>
            cases bound with
            | zero => exact absurd hlength (Nat.not_lt_zero _)
            | succ bound =>
              -- The index is at a mark now, so the round that follows is the last.
              obtain rfl := nothing
              refine ⟨after, (bind_ok hfirst).trans (bind_ok (stopped_declarations aborted)), ?_⟩
              rw [recordedAfter, recorded, List.append_nil]

end Tape

/-! ## Token lists -/

/-- The tokens up to the first mark, and the mark. -/
def upToMark : List Token → List Token
  | [] => []
  | token :: rest => if token.kind = .eof then [token] else token :: upToMark rest

theorem upToMark_append {front tail : List Token} {mark : Token}
    (hfront : ∀ token ∈ front, token.kind ≠ .eof) (hmark : mark.kind = .eof) :
    upToMark (front ++ mark :: tail) = front ++ [mark] := by
  induction front with
  | nil => exact if_pos hmark
  | cons token front ih =>
    obtain ⟨htoken, hothers⟩ := List.forall_mem_cons.mp hfront
    rw [List.cons_append, upToMark, if_neg htoken, ih hothers, List.cons_append]

theorem upToMark_of_forall {tokens : List Token} (h : ∀ token ∈ tokens, token.kind ≠ .eof) :
    upToMark tokens = tokens := by
  induction tokens with
  | nil => rfl
  | cons token rest ih =>
    obtain ⟨htoken, hrest⟩ := List.forall_mem_cons.mp h
    rw [upToMark, if_neg htoken, ih hrest]

/-- A list has no mark, or a first one. -/
theorem unmarked_or_marked (tokens : List Token) :
    (∀ token ∈ tokens, token.kind ≠ .eof) ∨
      ∃ front mark tail, (∀ token ∈ front, token.kind ≠ .eof) ∧ mark.kind = .eof ∧
        tokens = front ++ mark :: tail := by
  induction tokens with
  | nil => exact .inl (List.forall_mem_nil _)
  | cons token rest ih =>
    by_cases htoken : token.kind = .eof
    · exact .inr ⟨[], token, rest, List.forall_mem_nil _, htoken, rfl⟩
    obtain hrest | ⟨front, mark, tail, hfront, hmark, rfl⟩ := ih
    · exact .inl (List.forall_mem_cons.mpr ⟨htoken, hrest⟩)
    · exact .inr ⟨token :: front, mark, tail, List.forall_mem_cons.mpr ⟨htoken, hfront⟩, hmark, rfl⟩

theorem length_upToMark_le (tokens : List Token) : (upToMark tokens).length ≤ tokens.length := by
  obtain hnone | ⟨front, mark, tail, hfront, hmark, rfl⟩ := unmarked_or_marked tokens
  · exact Nat.le_of_eq (congrArg List.length (upToMark_of_forall hnone))
  · rw [upToMark_append hfront hmark]
    simp

theorem ofList_upToMark (tokens : List Token) :
    TokenInput.ofList (upToMark tokens) = TokenInput.ofList tokens := by
  obtain hnone | ⟨front, mark, tail, hfront, hmark, rfl⟩ := unmarked_or_marked tokens
  · rw [upToMark_of_forall hnone]
  · rw [upToMark_append hfront hmark, TokenInput.ofList_append_endMark hfront hmark,
      TokenInput.ofList_append_endMark hfront hmark]

theorem exists_tape_of_marked {front : List Token} {mark : Token} (tail : List Token)
    (hfront : ∀ token ∈ front, token.kind ≠ .eof) (hmark : mark.kind = .eof) :
    ∃ tape : Tape, tape.tokens = load (front ++ mark :: tail) ∧ tape.front = front ∧
      tape.mark = mark := by
  have hlast : (front ++ mark :: tail).getLast? =
      some ((mark :: tail).getLast (List.cons_ne_nil mark tail)) := by
    rw [List.getLast?_append, List.getLast?_eq_some_getLast (List.cons_ne_nil _ _), Option.some_or]
  by_cases heof : ((mark :: tail).getLast (List.cons_ne_nil mark tail)).kind = .eof
  · refine ⟨⟨front, mark, tail, hfront, hmark, heof⟩, ?_, rfl, rfl⟩
    simp only [load, hlast, if_pos heof, Tape.tokens]
  · let closing := Token.endMark ((mark :: tail).getLast (List.cons_ne_nil mark tail)).span.after
    have hclosing : ((mark :: tail ++ [closing]).getLast (List.cons_ne_nil _ _)).kind = .eof := by
      rw [List.getLast_concat]
      rfl
    refine ⟨⟨front, mark, tail ++ [closing], hfront, hmark, hclosing⟩, ?_, rfl, rfl⟩
    simp only [load, hlast, if_neg heof, Tape.tokens, List.append_assoc, List.cons_append, closing]

theorem exists_mark_of_unmarked {tokens : List Token}
    (h : ∀ token ∈ tokens, token.kind ≠ .eof) :
    ∃ mark : Token, mark.kind = .eof ∧ load tokens = tokens ++ [mark] ∧
      TokenInput.ofList tokens = ⟨tokens, mark.span⟩ := by
  have htake : tokens.takeWhile (·.kind ≠ .eof) = tokens :=
    List.takeWhile_eq_self_iff.mpr fun token htoken ↦ decide_eq_true (h token htoken)
  have hdrop : tokens.dropWhile (·.kind ≠ .eof) = [] :=
    List.dropWhile_eq_nil_iff.mpr fun token htoken ↦ decide_eq_true (h token htoken)
  cases hlast : tokens.getLast? with
  | none =>
    obtain rfl := List.getLast?_eq_none_iff.mp hlast
    exact ⟨.endMark ⟨0, 0, 1⟩, rfl, rfl, rfl⟩
  | some last =>
    refine ⟨.endMark last.span.after, rfl, ?_, ?_⟩
    · simp only [load, hlast, if_neg (h last (List.mem_of_getLast? hlast))]
    · simp only [TokenInput.ofList, htake, hdrop, hlast]
      rfl

/-- Any list is a tape once it is loaded, and the input is what is before the mark. -/
theorem exists_tape (tokens : List Token) :
    ∃ tape : Tape, tape.tokens = load tokens ∧
      TokenInput.ofList tokens = ⟨tape.front, tape.mark.span⟩ := by
  obtain hnone | ⟨front, mark, tail, hfront, hmark, rfl⟩ := unmarked_or_marked tokens
  · obtain ⟨mark, hmark, hload, hinput⟩ := exists_mark_of_unmarked hnone
    exact ⟨⟨tokens, mark, [], hnone, hmark, hmark⟩, hload.symm, hinput⟩
  · obtain ⟨tape, htokens, rfl, rfl⟩ := exists_tape_of_marked tail hfront hmark
    exact ⟨tape, htokens, TokenInput.ofList_append_endMark hfront hmark⟩

/-- Whatever the tokens are, a reader by index reads the program that the rules read, if as many
calls may be nested as there are tokens, and one more. -/
theorem parse_eq (mode : Grammar.Mode) {bound : Nat} {tokens : List Token}
    (h : tokens.length < bound) : parse mode bound tokens = .ok (Program.parse mode tokens) := by
  obtain ⟨tape, htokens, hinput⟩ := exists_tape tokens
  have hlength : tape.front.length ≤ tokens.length := by
    calc tape.front.length
        = (TokenInput.ofList tokens).tokens.length := by rw [hinput]
      _ = (tokens.takeWhile (·.kind ≠ .eof)).length := by rw [TokenInput.tokens_ofList]
      _ ≤ tokens.length := (List.takeWhile_sublist _).length_le
  have hready : tape.Ready tape.front nestingLimit {} :=
    ⟨⟨List.suffix_refl _, Nat.zero_add _, rfl⟩, Nat.zero_add _⟩
  obtain ⟨after, hrun, hfaults⟩ := Tape.exists_declarations mode (Nat.le_refl _)
    (Nat.lt_of_le_of_lt hlength h) hready
  simp only [parse, ← htokens, hrun, hfaults, Program.parse, hinput]
  rfl

/-- On any token list a reader by index stops, without reading outside of the list, without
reaching a case that was taken to be impossible, and with every declaration that it tries before
the end taking a token. It reads the same program from the tokens up to the first mark. -/
theorem parse_robust (mode : Grammar.Mode) (tokens : List Token) (more : Nat) :
    parse mode (tokens.length + 1 + more) tokens = .ok (Program.parse mode tokens) ∧
      parse mode (tokens.length + 1 + more) (upToMark tokens) = .ok (Program.parse mode tokens) ∧
      Program.parse mode (upToMark tokens) = Program.parse mode tokens := by
  have hcut : Program.parse mode (upToMark tokens) = Program.parse mode tokens := by
    simp only [Program.parse, ofList_upToMark]
  have hlength := length_upToMark_le tokens
  refine ⟨parse_eq mode (by omega), ?_, hcut⟩
  rw [← hcut]
  exact parse_eq mode (by omega)

end LoxLang.Indexed
