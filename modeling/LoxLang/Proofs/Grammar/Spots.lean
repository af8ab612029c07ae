import LoxLang.Proofs.Grammar.Alike
import LoxLang.Proofs.Grammar.Order
import LoxLang.Proofs.Grammar.Stepwise

/-!
# Where faults lie in a token list

A fault tells the span and the text of its token, which in a list of any tokens may be those of
several. What it refers to is told by the index of the token. The rules carry spans along and do
not look at them, so the index is found by reading the same tokens with their indices for spans.

In terms of indices, faults come in the order of the list and do not repeat.
-/

namespace LoxLang

open Indexed.Action (errorAt)

/-- The token with an index for its span. -/
def Token.numberedAt (index : Nat) (token : Token) : Token :=
  { token with span := ⟨index, index, index⟩ }

def numbered (tokens : List Token) : List Token := tokens.mapIdx Token.numberedAt

/-- An issue, and the index of the token at which it was raised. -/
structure Spot where
  issue : Issue
  index : Nat

/-- Where the faults lie that are recorded when the tokens are parsed. -/
def Program.spots (mode : Grammar.Mode) (tokens : List Token) : List Spot :=
  (parse mode (numbered tokens)).faults.map fun fault ↦ ⟨fault.issue, fault.span.start⟩

/-! ## Tokens and their indices -/

/-- The second span, if it is an index, is that of a token with the first span. -/
structure Span.Tells (tokens : List Token) (span other : Span) : Prop where
  le : other.start ≤ other.stop
  token : other.start = other.stop →
    ∃ token, tokens[other.start]? = some token ∧ token.span = span

theorem Span.compatible_tells (tokens : List Token) : Span.Compatible (Tells tokens) := by
  intro first second other last hfirst hsecond
  have hfirstLe := hfirst.le
  have hsecondLe := hsecond.le
  refine ⟨?_, fun heq ↦ ?_⟩ <;> dsimp only [cover] at *
  · omega
  · -- The least and the greatest index are the same, so both spans are of one token.
    have hother : other.start = other.stop := by omega
    have hlast : last.start = last.stop := by omega
    have hsame : last.start = other.start := by omega
    obtain ⟨token, htoken, rfl⟩ := hfirst.token hother
    obtain ⟨found, hfound, rfl⟩ := hsecond.token hlast
    rw [hsame] at hfound ⊢
    obtain rfl : token = found := Option.some.inj (htoken.symm.trans hfound)
    refine ⟨token, ?_, ?_⟩
    · rw [Nat.min_self]
      exact htoken
    · rw [Nat.min_self, Nat.max_self]

@[simp]
theorem length_numbered (tokens : List Token) : (numbered tokens).length = tokens.length :=
  List.length_mapIdx

theorem getElem?_numbered (tokens : List Token) (index : Nat) :
    (numbered tokens)[index]? = tokens[index]?.map (Token.numberedAt index) :=
  List.getElem?_mapIdx

theorem kind_ne_eof_of_numbered {tokens : List Token} (h : ∀ token ∈ tokens, token.kind ≠ .eof) :
    ∀ token ∈ numbered tokens, token.kind ≠ .eof := by
  intro token htoken
  obtain ⟨index, hindex, rfl⟩ := List.mem_mapIdx.mp htoken
  exact h tokens[index] (List.getElem_mem hindex)

/-- All but the span of a token is kept, and the span tells the index. -/
theorem alike_numbered {tokens others : List Token} (h : tokens <+: others) :
    Token.AllAlike (Span.Tells others) tokens (numbered tokens) := by
  refine List.forall₂_iff_get.mpr ⟨(length_numbered tokens).symm, fun index hindex hnumbered ↦ ?_⟩
  have htoken : others[index]? = some tokens[index] :=
    (List.prefix_iff_getElem?.mp h) index hindex
  simp only [List.get_eq_getElem, numbered, List.getElem_mapIdx]
  exact ⟨rfl, rfl, rfl, Nat.le_refl _, fun _ ↦ ⟨_, htoken, rfl⟩⟩

theorem span_errorAt (token : Token) (issue : Issue) : (errorAt token issue).span = token.span := by
  unfold errorAt
  split <;> rfl

@[simp]
theorem issue_errorAt (token : Token) (issue : Issue) : (errorAt token issue).issue = issue := by
  unfold errorAt
  split <;> rfl

theorem errorAt_numberedAt (index : Nat) (token : Token) (issue : Issue) :
    errorAt (token.numberedAt index) issue =
      { errorAt token issue with span := ⟨index, index, index⟩ } := by
  by_cases hkind : token.kind = .eof <;> simp [errorAt, Token.numberedAt, Fault.atToken, hkind]

/-- A fault whose span is told by that of a fault at an index is the one at the token there. -/
theorem Fault.Alike.eq_errorAt {tokens : List Token} {index : Nat} {token : Token} {fault : Fault}
    {issue : Issue} (h : fault.Alike (Span.Tells tokens) (errorAt (token.numberedAt index) issue))
    (htoken : tokens[index]? = some token) : fault = errorAt token issue := by
  rw [errorAt_numberedAt] at h
  obtain ⟨htells, hlocus, hissue⟩ := h
  obtain ⟨found, hfound, hspan⟩ := htells.token rfl
  obtain rfl : token = found := Option.some.inj (htoken.symm.trans hfound)
  obtain ⟨span, locus, cause⟩ := fault
  obtain rfl : token.span = span := hspan
  obtain rfl : locus = (errorAt token issue).locus := hlocus
  obtain rfl : cause = (errorAt token issue).issue := hissue
  rw [← span_errorAt token issue]

/-! ## Findings and their indices -/

namespace Finding

/-- Where a finding lies in a list with the given number of tokens before its end. -/
def spot (length : Nat) (finding : Finding) : Spot :=
  ⟨finding.issue, length - finding.place.length⟩

variable {first second : Finding} {input : List Token}

theorem Before.index_le (h : first.Before second) (hfirst : first.place <:+ input)
    (hone : first.issue.isTarget = false) (hother : second.issue.isTarget = false) :
    (first.spot input.length).index ≤ (second.spot input.length).index ∧
      ((first.spot input.length).index = (second.spot input.length).index → first.place = []) := by
  have hbehind := (h.behind hone hother).length_le
  have hlength := hfirst.length_le
  rw [List.length_tail] at hbehind
  dsimp only [spot]
  refine ⟨by omega, fun heq ↦ List.eq_nil_of_length_eq_zero ?_⟩
  omega

theorem Before.index_ne (h : first.Before second) (hfirst : first.place <:+ input)
    (hsecond : second.place <:+ input) (hone : first.issue.isTarget)
    (hother : second.issue.isTarget) :
    (first.spot input.length).index ≠ (second.spot input.length).index := by
  intro heq
  have hfirstLength := hfirst.length_le
  have hsecondLength := hsecond.length_le
  dsimp only [spot] at heq
  have hlength : first.place.length = second.place.length := by omega
  have hsuffix := List.suffix_of_suffix_length_le hfirst hsecond hlength.le
  exact h.apart hone hother (hsuffix.eq_of_length hlength)

end Finding

section

variable {front stream : List Token} {mark : Token} (hfront : ∀ token ∈ front, token.kind ≠ .eof)
  (hmark : mark.kind = .eof) (hstream : front ++ [mark] <+: stream)

/-- The tokens before a mark and the mark, each with its index. -/
def numberedTape : Indexed.Tape where
  front := numbered front
  mark := mark.numberedAt front.length
  tail := []
  inner := kind_ne_eof_of_numbered hfront
  mark_kind := hmark
  last_kind := hmark

include hfront hmark hstream

/-- A finding lies at the token of its index, which is the mark if no token is left. -/
theorem Finding.exists_token {finding : Finding} (h : finding.place <:+ numbered front) :
    let index := (finding.spot front.length).index
    ∃ token, stream[index]? = some token ∧ token.kind = (nextKind finding.place).getD .eof ∧
      finding.fault (mark.numberedAt front.length).span =
        errorAt (token.numberedAt index) finding.issue := by
  intro index
  have hlength : finding.place.length ≤ front.length := length_numbered front ▸ h.length_le
  have hindex : index + finding.place.length = front.length := Nat.sub_add_cancel hlength
  have htokens : (numberedTape hfront hmark).tokens = numbered (front ++ [mark]) :=
    List.mapIdx_concat.symm
  have hplaced : (numberedTape hfront hmark).Placed finding.place { current := index } :=
    ⟨h, hindex.trans (length_numbered front).symm, rfl⟩
  have hnext := hplaced.getElem?_current
  rw [htokens, getElem?_numbered] at hnext
  obtain ⟨token, htoken, hhead⟩ := Option.map_eq_some_iff.mp hnext
  obtain ⟨hinside, rfl⟩ := List.getElem?_eq_some_iff.mp htoken
  refine ⟨_, List.prefix_iff_getElem?.mp hstream index hinside, ?_, ?_⟩
  · have hkind := congrArg Token.kind hhead
    refine hkind.trans ?_
    cases finding.place with
    | nil => exact hmark
    | cons next rest => rfl
  · have herror := (Indexed.Tape.errorAt_headD hplaced.suffix finding.issue).symm
    rw [← hhead] at herror
    exact herror

theorem ofList_numbered : TokenInput.ofList (numbered stream) =
    ⟨numbered front, (mark.numberedAt front.length).span⟩ := by
  obtain ⟨tail, rfl⟩ := hstream
  rw [numbered, List.mapIdx_append, List.mapIdx_concat, List.append_assoc, List.singleton_append]
  exact TokenInput.ofList_append_endMark (kind_ne_eof_of_numbered hfront) hmark

/-- The spots of a list are those of findings in order. -/
theorem Program.exists_findings (mode : Grammar.Mode) :
    ∃ findings : List Finding, Finding.Sorted (numbered front) [] findings ∧
      (parse mode (numbered stream)).faults =
        findings.map (Finding.fault (mark.numberedAt front.length).span) ∧
      spots mode stream = findings.map (Finding.spot front.length) := by
  obtain ⟨findings, hsorted, hfaults⟩ := inOrder_parse mode (numbered stream)
  rw [ofList_numbered hfront hmark hstream] at hsorted hfaults
  refine ⟨findings, hsorted, hfaults, ?_⟩
  rw [spots, hfaults, List.map_map]
  refine List.map_congr_left fun finding hfinding ↦ ?_
  obtain ⟨token, -, -, hfault⟩ :=
    Finding.exists_token hfront hmark hstream (hsorted.inside finding hfinding)
  simp only [Function.comp_apply, Finding.spot, hfault, errorAt_numberedAt, issue_errorAt]

/-- A fault is raised at the token of its spot. -/
theorem Program.faults_at_spots (mode : Grammar.Mode) {tokens : List Token}
    (htokens : TokenInput.ofList tokens = ⟨front, mark.span⟩) :
    List.Forall₂ (fun fault spot ↦ ∃ token, stream[spot.index]? = some token ∧
      fault = errorAt token spot.issue) (parse mode tokens).faults (spots mode stream) := by
  obtain ⟨findings, hsorted, hfaults, hspots⟩ := exists_findings hfront hmark hstream mode
  have hread : parse mode tokens = parse mode (front ++ [mark]) := by
    simp only [parse, htokens, TokenInput.ofList_append_endMark hfront hmark]
  have hnumbered : parse mode (numbered stream) =
      parse mode (numbered front ++ [mark.numberedAt front.length]) := by
    have hlast : (mark.numberedAt front.length).kind = .eof := hmark
    simp only [parse, ofList_numbered hfront hmark hstream,
      TokenInput.ofList_append_endMark (kind_ne_eof_of_numbered hfront) hlast]
  have hmarks : mark.Alike (Span.Tells stream) (mark.numberedAt front.length) := by
    refine ⟨rfl, rfl, rfl, Nat.le_refl _, fun _ ↦ ⟨mark, ?_, rfl⟩⟩
    have hlength : front.length < (front ++ [mark]).length := by simp
    have hlast := List.prefix_iff_getElem?.mp hstream front.length hlength
    rwa [List.getElem_concat_length rfl] at hlast
  have halike := (alike_parse (Span.compatible_tells stream) hmark hfront
    (alike_numbered ((List.prefix_append front [mark]).trans hstream)) hmarks mode).faults
  rw [← hread, ← hnumbered, hfaults] at halike
  rw [hspots, List.forall₂_map_right_iff]
  rw [List.forall₂_map_right_iff] at halike
  refine List.forall₂_iff_zip.mpr ⟨halike.length_eq, fun {fault finding} hpair ↦ ?_⟩
  have hinside := hsorted.inside finding (List.of_mem_zip hpair).2
  obtain ⟨token, htoken, -, hfault⟩ := Finding.exists_token hfront hmark hstream hinside
  have hfound := (List.forall₂_iff_zip.mp halike).2 hpair
  rw [hfault] at hfound
  exact ⟨token, htoken, hfound.eq_errorAt htoken⟩

theorem Finding.kind_spot {finding : Finding} (h : finding.place <:+ numbered front) :
    stream[(finding.spot front.length).index]?.map Token.kind =
      some ((nextKind finding.place).getD .eof) := by
  obtain ⟨token, htoken, hkind, -⟩ := exists_token hfront hmark hstream h
  rw [htoken, Option.map_some, hkind]

namespace Program

theorem spots_sorted (mode : Grammar.Mode) :
    (spots mode stream).Pairwise fun first second ↦
      first.issue.isTarget = false → second.issue.isTarget = false →
        first.index ≤ second.index ∧
          (first.index = second.index → stream[first.index]?.map Token.kind = some .eof) := by
  obtain ⟨findings, hsorted, -, hspots⟩ := exists_findings hfront hmark hstream mode
  rw [hspots, List.pairwise_map]
  refine hsorted.order.imp_of_mem fun {first second} hfirst _ hbefore hone hother ↦ ?_
  have hinside := hsorted.inside first hfirst
  have hindex := hbefore.index_le hinside hone hother
  rw [length_numbered] at hindex
  refine ⟨hindex.1, fun heq ↦ ?_⟩
  rw [first.kind_spot hfront hmark hstream hinside, hindex.2 heq]
  rfl

theorem spots_apart (mode : Grammar.Mode) :
    (spots mode stream).Pairwise fun first second ↦
      first.issue.isTarget → second.issue.isTarget → first.index ≠ second.index := by
  obtain ⟨findings, hsorted, -, hspots⟩ := exists_findings hfront hmark hstream mode
  rw [hspots, List.pairwise_map]
  refine hsorted.order.imp_of_mem fun {first second} hfirst hsecond hbefore hone hother ↦ ?_
  have hindex := hbefore.index_ne (hsorted.inside first hfirst) (hsorted.inside second hsecond)
    hone hother
  rwa [length_numbered] at hindex

theorem kind_of_target {mode : Grammar.Mode} {spot : Spot} (hspot : spot ∈ spots mode stream)
    (htarget : spot.issue.isTarget) : stream[spot.index]?.map Token.kind = some .equal := by
  obtain ⟨findings, hsorted, -, hspots⟩ := exists_findings hfront hmark hstream mode
  rw [hspots] at hspot
  obtain ⟨finding, hfinding, rfl⟩ := List.mem_map.mp hspot
  rw [finding.kind_spot hfront hmark hstream (hsorted.inside finding hfinding),
    hsorted.fits finding hfinding htarget]
  rfl

end Program

end

/-! ## The order of faults -/

/-- Among the issues of the grammar the wording tells a target that cannot be assigned to. -/
theorem Issue.message_eq_iff {issue : Issue} (h : issue.isGrammatical) :
    issue.message = "Invalid assignment target" ↔ issue.isTarget := by
  have hexpected : ¬emptyParens.message = "Invalid assignment target" := by decide
  cases issue with
  | badAssignmentTarget => exact ⟨fun _ ↦ rfl, fun _ ↦ rfl⟩
  | noExpression found => exact ⟨fun hmessage ↦ absurd hmessage hexpected, nofun⟩
  | unexpectedCharacter | unterminatedString | undefinedVariable | undefinedTarget | badNegation
  | badAddition | badOperands | outputFailed | other => cases h
  | _ => decide

theorem Program.message_spot {mode : Grammar.Mode} {tokens : List Token} {spot : Spot}
    (h : spot ∈ spots mode tokens) :
    spot.issue.message = "Invalid assignment target" ↔ spot.issue.isTarget := by
  obtain ⟨fault, hfault, rfl⟩ := List.mem_map.mp h
  exact Issue.message_eq_iff (arises_parse mode _ fault hfault).grammatical

/-- Faults come in the order of the tokens that they are raised at and, but for the end, no two at
the same token. Only that a target cannot be assigned to is out of this order: it is raised at an
`=`, and not twice at the same one. The index of a reader never moves back: the actions that it
reads a program with are put together from steps, and none that is ends before the place where it
began. -/
theorem Program.faults_in_order (mode : Grammar.Mode) (tokens : List Token) :
    let stream := Indexed.load tokens
    let spots := spots mode stream
    let isTarget (spot : Spot) : Prop := spot.issue.message = "Invalid assignment target"
    List.Forall₂ (fun fault spot ↦ ∃ token, stream[spot.index]? = some token ∧
        fault = errorAt token spot.issue) (parse mode tokens).faults spots ∧
      spots.Pairwise (fun first second ↦ ¬isTarget first → ¬isTarget second →
        first.index ≤ second.index ∧
          (first.index = second.index → stream[first.index]?.map Token.kind = some .eof)) ∧
      spots.Pairwise (fun first second ↦ isTarget first → isTarget second →
        first.index ≠ second.index) ∧
      (∀ spot ∈ spots, isTarget spot → stream[spot.index]?.map Token.kind = some .equal) ∧
      Indexed.parse mode (tokens.length + 1) tokens = .ok (parse mode tokens) ∧
      (Indexed.declarations mode (tokens.length + 1)).Stepwise ∧
      ∀ {α : Type} {action : Indexed.Action α} {state after : Indexed.State}
        {result : Except Fault α}, action.Stepwise → state.current < stream.length →
          action stream state = .ok (result, after) →
            state.current ≤ after.current ∧ after.current < stream.length := by
  intro stream spots isTarget
  obtain ⟨tape, htape, htokens⟩ := Indexed.exists_tape tokens
  have hstream : tape.front ++ [tape.mark] <+: stream := by
    refine ⟨tape.tail, ?_⟩
    rw [List.append_assoc]
    exact htape
  have hplain {spot : Spot} (hspot : spot ∈ spots) (h : ¬isTarget spot) :
      spot.issue.isTarget = false :=
    Bool.eq_false_iff.mpr fun htarget ↦ h ((message_spot hspot).mpr htarget)
  refine ⟨faults_at_spots tape.inner tape.mark_kind hstream mode htokens, ?_, ?_, ?_,
    Indexed.parse_eq mode (Nat.lt_succ_self _), Indexed.stepwise_declarations mode _, ?_⟩
  · refine (spots_sorted tape.inner tape.mark_kind hstream mode).imp_of_mem ?_
    intro first second hfirst hsecond hsorted hone hother
    exact hsorted (hplain hfirst hone) (hplain hsecond hother)
  · refine (spots_apart tape.inner tape.mark_kind hstream mode).imp_of_mem ?_
    intro first second hfirst hsecond hapart hone hother
    exact hapart ((message_spot hfirst).mp hone) ((message_spot hsecond).mp hother)
  · intro spot hspot htarget
    exact kind_of_target tape.inner tape.mark_kind hstream hspot ((message_spot hspot).mp htarget)
  · intro α action state after result hstepwise hstate hrun
    have hahead := hstepwise.advances (Indexed.marked_load tokens) hstate hrun
    exact ⟨hahead.le, hahead.inside⟩

end LoxLang
