import LoxLang.Proofs.Run.Session
import LoxLang.Proofs.Text.Lossy
import LoxLang.Script

/-!
# Decoding line by line

A line feed is never inside of a character, so behind it no sequence is open, whatever stood
before it. Therefore the lines of an input can be decoded one by one: an ill-formed part is the
same part whether a line feed or the end of the line follows it.
-/

namespace LoxLang

/-! ## Line feeds -/

namespace Text.Utf8

/-- Only bytes from inside of a character go on with the sequence that is open. -/
def Guarded (state : Option Pending) : Prop := ∀ pending ∈ state, 0x80 ≤ pending.low.toNat

theorem guarded_none : Guarded none := fun _ h ↦ nomatch h

theorem guarded_begin (byte : UInt8) : Guarded (begin byte).2 := by
  rintro pending hpending
  unfold begin at hpending
  split at hpending
  · cases hpending
  · next hlead =>
    obtain rfl := Option.some.inj hpending
    exact (Opened.lead hlead).range.1
  · cases hpending

theorem guarded_step (state : Option Pending) (byte : UInt8) : Guarded (step state byte).2 := by
  cases state with
  | none => exact guarded_begin byte
  | some pending =>
    rw [step]
    split
    · dsimp only
      split
      · exact guarded_none
      · rintro _ ⟨⟩
        exact Nat.le_refl _
    · exact guarded_begin byte

/-- Behind a line feed nothing is open. -/
theorem step_lineFeed {state : Option Pending} (h : Guarded state) : (step state 10).2 = none := by
  cases state with
  | none => rfl
  | some pending =>
    have hrejects : ¬pending.accepts 10 := by
      intro haccepts
      have hle := (Pending.accepts_iff.mp haccepts).1
      exact absurd (Nat.le_trans (h pending rfl) hle) (by decide)
    rw [step, if_neg hrejects]
    rfl

end Text.Utf8

/-! ## Lines -/

namespace Session

open Text.Utf8 (Pending Guarded decodeFrom guarded_none guarded_step step_lineFeed)

/-- The lines are the bytes, cut behind each line feed and nowhere else. -/
structure Cut (bytes : List UInt8) (lines : List (List UInt8)) : Prop where
  whole : lines.flatten = bytes
  nonempty : [] ∉ lines
  inner : ∀ line ∈ lines, (10 : UInt8) ∉ line.dropLast
  closed : ∀ line ∈ lines.dropLast, line.getLast? = some 10

theorem Cut.cons_lineFeed {bytes : List UInt8} {lines : List (List UInt8)} (h : Cut bytes lines) :
    Cut (10 :: bytes) ([10] :: lines) where
  whole := congrArg (10 :: ·) h.whole
  nonempty := by simpa using h.nonempty
  inner := List.forall_mem_cons.mpr ⟨List.not_mem_nil, h.inner⟩
  closed := by
    cases lines with
    | nil => simp
    | cons line rest => exact List.forall_mem_cons.mpr ⟨rfl, h.closed⟩

theorem Cut.line_ne_nil {bytes line : List UInt8} {rest : List (List UInt8)}
    (h : Cut bytes (line :: rest)) : line ≠ [] := by
  rintro rfl
  exact h.nonempty List.mem_cons_self

theorem Cut.cons_byte {byte : UInt8} {bytes line : List UInt8} {rest : List (List UInt8)}
    (h : Cut bytes (line :: rest)) (hbyte : byte ≠ 10) :
    Cut (byte :: bytes) ((byte :: line) :: rest) where
  whole := congrArg (byte :: ·) h.whole
  nonempty := by
    have hrest := h.nonempty
    simp only [List.mem_cons, not_or] at hrest ⊢
    exact ⟨nofun, hrest.2⟩
  inner := by
    have hne := h.line_ne_nil
    obtain ⟨hline, hrest⟩ := List.forall_mem_cons.mp h.inner
    refine List.forall_mem_cons.mpr ⟨?_, hrest⟩
    rw [List.dropLast_cons_of_ne_nil hne]
    exact List.not_mem_cons_of_ne_of_not_mem (Ne.symm hbyte) hline
  closed := by
    cases rest with
    | nil => simp
    | cons next others =>
      obtain ⟨hline, hrest⟩ := List.forall_mem_cons.mp h.closed
      refine List.forall_mem_cons.mpr ⟨?_, hrest⟩
      rw [List.getLast?_cons, hline]
      rfl

theorem cut_splitLines (bytes : List UInt8) : Cut bytes (splitLines bytes) := by
  induction bytes with
  | nil => exact ⟨rfl, by simp [splitLines], by simp [splitLines], by simp [splitLines]⟩
  | cons byte bytes ih =>
    rw [splitLines]
    split
    · next hbyte =>
      subst hbyte
      exact ih.cons_lineFeed
    · next hbyte =>
      split
      · next hnone =>
        rw [hnone] at ih
        obtain rfl : [] = bytes := ih.whole
        exact ⟨rfl, by simp, by simp, by simp⟩
      · next line rest hlines =>
        rw [hlines] at ih
        exact ih.cons_byte hbyte

theorem decodeFrom_headD_tail (lines : List (List UInt8)) :
    decodeFrom none (lines.headD []) ++ lines.tail.flatMap (decodeFrom none) =
      lines.flatMap (decodeFrom none) := by
  cases lines <;> rfl

/-- Only the first line goes on with a sequence that was open before it. -/
theorem decodeFrom_splitLines {state : Option Pending} (hstate : Guarded state)
    (bytes : List UInt8) :
    decodeFrom state bytes = decodeFrom state ((splitLines bytes).headD []) ++
      (splitLines bytes).tail.flatMap (decodeFrom none) := by
  induction bytes generalizing state with
  | nil => exact (List.append_nil _).symm
  | cons byte bytes ih =>
    have hnext := ih (guarded_step state byte)
    simp only [decodeFrom, splitLines]
    rw [hnext]
    split
    · next hbyte =>
      subst hbyte
      rw [step_lineFeed hstate, decodeFrom_headD_tail]
      simp [decodeFrom, step_lineFeed hstate]
    · cases splitLines bytes <;> simp [decodeFrom]

/-- The lines of an input are decoded to what the whole input is decoded to. -/
theorem join_decode_splitLines (bytes : List UInt8) :
    String.join ((splitLines bytes).map Text.Utf8.decode) = Text.Utf8.decode bytes := by
  apply String.toList_injective
  rw [String.toList_join, List.flatMap_map, Text.Utf8.decode, decodeFrom_splitLines guarded_none,
    decodeFrom_headD_tail, String.toList_ofList]
  congr 1
  funext line
  exact String.toList_ofList

end Session

/-! ## Scripts -/

/-- Decoding an input at once, as a script, gives what its lines give that are decoded one by one,
as in a session, and it is this text whose tokens a script lists, or which it runs. An encoded text
is decoded to itself, and whatever is malformed to replacement characters, one for each ill-formed
part. -/
theorem decodeSource_lines (bytes : List UInt8) (machine : Machine) :
    let lines := Session.splitLines bytes
    let text := String.join (lines.map fun line ↦ (decodeSource line machine).1)
    Session.Cut bytes lines ∧ (decodeSource bytes machine).1 = text ∧
      (∀ rounds config path,
        let started := (decodeSource bytes machine).2.log (.running path)
        let finish (faults : List Fault) (after : Machine) : Nat × Machine :=
          (exitCode faults, after.emit config.style text.toList (some path) faults)
        runScript rounds config path (.ok bytes) machine =
          if config.tokensOnly then
            match listTokens text started with
            | (.error reason, _, after) =>
              some (exitOutput, after.complain s!"Error writing tokens: {reason}\n")
            | (.ok (), faults, after) => some (finish faults after)
          else (run rounds text [] started).map fun unit ↦ finish unit.1 unit.2) ∧
      (∀ other, (decodeSource (Text.Utf8.encode other) machine).1 = other) ∧
      ∀ chars, Text.Utf8.StandsFor bytes chars ↔ text.toList = chars := by
  intro lines text
  have htext : (decodeSource bytes machine).1 = text := (Session.join_decode_splitLines bytes).symm
  refine ⟨Session.cut_splitLines bytes, htext, fun rounds config path ↦ ?_, fun other ↦ ?_,
    fun chars ↦ ?_⟩
  · intro started finish
    simp only [runScript, htext]
    split
    · rfl
    · cases run rounds text [] started <;> rfl
  · rw [decodeSource_encode]
  · rw [← htext, decodeSource, Text.Utf8.decode, String.toList_ofList]
    exact Text.Utf8.standsFor_iff

end LoxLang
