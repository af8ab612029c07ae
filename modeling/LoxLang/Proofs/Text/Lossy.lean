import LoxLang.Proofs.Text.Utf8
import Mathlib.Data.List.Induction

/-!
# Lossy decoding

What decoding gives, said without the decoder. Where a character is encoded, it is kept. Where
none is, the bytes are ill-formed up to the point where no encoded character goes on like them,
and at least the first of them is; one replacement character stands for such a part. Every list of
bytes is one text in this way, and the decoder gives it.

Of what the decoder does there are two things to know: a sequence that it holds open begins some
encoded character, and, as an encoded character is decoded to itself alone, the decoder gives
nothing before its last byte.
-/

namespace LoxLang.Text.Utf8

/-! ## Texts of bytes -/

/-- Some encoded character starts with these bytes. -/
def Begins (bytes : List UInt8) : Prop := ∃ c, bytes <+: String.utf8EncodeChar c

/-- At the front of the input, which is the part and the rest together, no character is encoded,
and the part is the longest one that begins a character, or else a single byte. -/
structure IllFormed (part rest : List UInt8) : Prop where
  unconvertible : ∀ c, ¬String.utf8EncodeChar c <+: part ++ rest
  begins : part ≠ [] ∧ Begins part ∨ part.length = 1
  longest : ∀ other, other <+: part ++ rest → Begins other → other.length ≤ part.length

/-- The bytes stand for the text: each ill-formed part for a replacement character, and all else
for the characters encoded there. -/
inductive StandsFor : List UInt8 → List Char → Prop where
  | nil : StandsFor [] []
  | character {rest : List UInt8} {text : List Char} (c : Char) (others : StandsFor rest text) :
    StandsFor (String.utf8EncodeChar c ++ rest) (c :: text)
  | replaced {part rest : List UInt8} {text : List Char} (flawed : IllFormed part rest)
    (others : StandsFor rest text) : StandsFor (part ++ rest) (replacement :: text)

/-! ## Sequences that are complete -/

theorem toNat_val_ofNat {n : Nat} (h : n < 0xD800 ∨ 0xDFFF < n ∧ n < 0x110000) :
    (Char.ofNat n).val.toNat = n := by
  have hchar : Char.ofNat n = Char.ofNatAux n h := dif_pos h
  rw [hchar]
  rfl

theorem encodeChar_one {a : Nat} (h : a < 0x80) :
    String.utf8EncodeChar (Char.ofNat a) = [.ofNat a] := by
  rw [String.utf8EncodeChar, toNat_val_ofNat (by omega), if_pos (by omega)]

theorem encodeChar_two {a b : Nat} (ha : 0xC2 ≤ a ∧ a < 0xE0) (hb : 0x80 ≤ b ∧ b ≤ 0xBF) :
    String.utf8EncodeChar (Char.ofNat (64 * (a - 0xC0) + (b - 0x80))) = [.ofNat a, .ofNat b] := by
  generalize hn : 64 * (a - 0xC0) + (b - 0x80) = n
  obtain ⟨rfl, rfl⟩ : a = n / 64 % 32 + 192 ∧ b = n % 64 + 128 := by omega
  rw [String.utf8EncodeChar, toNat_val_ofNat (by omega), if_neg (by omega), if_pos (by omega)]

theorem encodeChar_three {a b c : Nat} (ha : 0xE0 ≤ a ∧ a < 0xF0) (hb : 0x80 ≤ b ∧ b ≤ 0xBF)
    (hc : 0x80 ≤ c ∧ c ≤ 0xBF) (hlow : a = 0xE0 → 0xA0 ≤ b) (hhigh : a = 0xED → b ≤ 0x9F) :
    String.utf8EncodeChar (Char.ofNat (64 * (64 * (a - 0xE0) + (b - 0x80)) + (c - 0x80))) =
      [.ofNat a, .ofNat b, .ofNat c] := by
  generalize hn : 64 * (64 * (a - 0xE0) + (b - 0x80)) + (c - 0x80) = n
  obtain ⟨hthird, hsecond⟩ : c = n % 64 + 128 ∧ b = n / 64 % 64 + 128 := by omega
  have hfirst : a = n / 4096 % 16 + 224 := by omega
  have hlong : 0x7FF < n := by omega
  have hvalid : n < 0xD800 ∨ 0xDFFF < n ∧ n < 0x110000 := by omega
  rw [String.utf8EncodeChar, toNat_val_ofNat hvalid, if_neg (by omega), if_neg (by omega),
    if_pos (by omega), ← hfirst, ← hsecond, ← hthird]

theorem encodeChar_four {a b c d : Nat} (ha : 0xF0 ≤ a ∧ a ≤ 0xF4) (hb : 0x80 ≤ b ∧ b ≤ 0xBF)
    (hc : 0x80 ≤ c ∧ c ≤ 0xBF) (hd : 0x80 ≤ d ∧ d ≤ 0xBF) (hlow : a = 0xF0 → 0x90 ≤ b)
    (hhigh : a = 0xF4 → b ≤ 0x8F) :
    String.utf8EncodeChar (Char.ofNat
        (64 * (64 * (64 * (a - 0xF0) + (b - 0x80)) + (c - 0x80)) + (d - 0x80))) =
      [.ofNat a, .ofNat b, .ofNat c, .ofNat d] := by
  generalize hn : 64 * (64 * (64 * (a - 0xF0) + (b - 0x80)) + (c - 0x80)) + (d - 0x80) = n
  obtain ⟨hfourth, hthird⟩ : d = n % 64 + 128 ∧ c = n / 64 % 64 + 128 := by omega
  obtain ⟨hsecond, hfirst⟩ : b = n / 4096 % 64 + 128 ∧ a = n / 262144 % 8 + 240 := by omega
  have hlong : 0xFFFF < n ∧ n < 0x110000 := by omega
  rw [String.utf8EncodeChar, toNat_val_ofNat (by omega), if_neg (by omega), if_neg (by omega),
    if_neg (by omega), ← hfirst, ← hsecond, ← hthird, ← hfourth]

/-! ## Sequences that are open -/

theorem lead_cases {byte : UInt8} {pending : Pending} (h : lead byte = .opens pending) :
    (0xC2 ≤ byte.toNat ∧ byte.toNat < 0xE0 ∧
      pending = ⟨1, 1, 0x80, 0xBF, byte.toNat - 0xC0⟩) ∨
    (0xE0 ≤ byte.toNat ∧ byte.toNat < 0xF0 ∧
      pending = ⟨1, 2, if byte.toNat = 0xE0 then 0xA0 else 0x80,
        if byte.toNat = 0xED then 0x9F else 0xBF, byte.toNat - 0xE0⟩) ∨
    (0xF0 ≤ byte.toNat ∧ byte.toNat ≤ 0xF4 ∧
      pending = ⟨1, 3, if byte.toNat = 0xF0 then 0x90 else 0x80,
        if byte.toNat = 0xF4 then 0x8F else 0xBF, byte.toNat - 0xF0⟩) := by
  have hbyte : UInt8.ofNat byte.toNat = byte := UInt8.ofNat_toNat
  have hranges : byte.toNat < 0x80 ∨ 0x80 ≤ byte.toNat ∧ byte.toNat < 0xC2 ∨
      0xC2 ≤ byte.toNat ∧ byte.toNat < 0xE0 ∨ 0xE0 ≤ byte.toNat ∧ byte.toNat < 0xF0 ∨
      0xF0 ≤ byte.toNat ∧ byte.toNat ≤ 0xF4 ∨ 0xF4 < byte.toNat := by omega
  rcases hranges with hone | ⟨hlow, hhigh⟩ | ⟨hlow, hhigh⟩ | ⟨hlow, hhigh⟩ | ⟨hlow, hhigh⟩ | hlast
  · simp only [lead, if_pos hone] at h
    cases h
  · simp only [lead, if_neg (Nat.not_lt.mpr hlow), if_pos hhigh] at h
    cases h
  · have hlead := lead_two hlow hhigh
    rw [hbyte, h] at hlead
    cases hlead
    exact .inl ⟨hlow, hhigh, rfl⟩
  · have hlead := lead_three hlow hhigh
    rw [hbyte, h] at hlead
    cases hlead
    exact .inr (.inl ⟨hlow, hhigh, rfl⟩)
  · have hlead := lead_four hlow hhigh
    rw [hbyte, h] at hlead
    cases hlead
    exact .inr (.inr ⟨hlow, hhigh, rfl⟩)
  · simp only [lead] at h
    repeat rw [if_neg (by omega)] at h
    cases h

/-- The bytes open a sequence, and what they leave of it is pending. -/
inductive Opened : List UInt8 → Pending → Prop where
  | lead {byte : UInt8} {pending : Pending} (opens : lead byte = .opens pending) :
    Opened [byte] pending
  | push {bytes : List UInt8} {byte : UInt8} {pending : Pending} (before : Opened bytes pending)
    (accepted : pending.accepts byte) (more : 1 < pending.missing) :
    Opened (bytes ++ [byte]) (pending.push byte)

theorem Pending.accepts_iff {pending : Pending} {byte : UInt8} :
    pending.accepts byte ↔
      pending.low.toNat ≤ byte.toNat ∧ byte.toNat ≤ pending.high.toNat := by
  simp [accepts, UInt8.le_iff_toNat_le]

namespace Opened

variable {bytes : List UInt8} {pending : Pending}

/-- Some byte goes on, and those that do are inside of a character. -/
theorem range (h : Opened bytes pending) :
    0x80 ≤ pending.low.toNat ∧ pending.low.toNat ≤ pending.high.toNat ∧
      pending.high.toNat ≤ 0xBF ∧ 0 < pending.missing := by
  have hbounds : 0x80 ≤ (0x80 : UInt8).toNat ∧ (0x80 : UInt8).toNat ≤ (0xBF : UInt8).toNat ∧
      (0xBF : UInt8).toNat ≤ 0xBF := by decide
  cases h with
  | push before accepted more =>
    exact ⟨hbounds.1, hbounds.2.1, hbounds.2.2, Nat.sub_pos_of_lt more⟩
  | lead opens =>
    rcases lead_cases opens with ⟨-, -, rfl⟩ | ⟨-, -, rfl⟩ | ⟨-, -, rfl⟩
    · exact ⟨hbounds.1, hbounds.2.1, hbounds.2.2, Nat.one_pos⟩
    · dsimp only
      split
      · rw [if_neg (by omega)]
        decide
      · split <;> decide
    · dsimp only
      split
      · rw [if_neg (by omega)]
        decide
      · split <;> decide

theorem low_accepted (h : Opened bytes pending) : pending.accepts pending.low :=
  Pending.accepts_iff.mpr ⟨Nat.le_refl _, h.range.2.1⟩

/-- A byte that goes on is one of those inside of a character. -/
theorem bounds_of_accepts (h : Opened bytes pending) {byte : UInt8}
    (haccepts : pending.accepts byte) : 0x80 ≤ byte.toNat ∧ byte.toNat ≤ 0xBF := by
  obtain ⟨hlow, -, hhigh, -⟩ := h.range
  obtain ⟨hle, hge⟩ := Pending.accepts_iff.mp haccepts
  exact ⟨Nat.le_trans hlow hle, Nat.le_trans hge hhigh⟩

/-- No character has more than four bytes. -/
theorem length_add_missing_le (h : Opened bytes pending) :
    0 < bytes.length ∧ bytes.length + pending.missing ≤ 4 := by
  induction h with
  | lead opens =>
    rcases lead_cases opens with ⟨-, -, rfl⟩ | ⟨-, -, rfl⟩ | ⟨-, -, rfl⟩ <;>
      exact ⟨Nat.one_pos, by simp⟩
  | push before accepted more ih =>
    simp only [List.length_append, List.length_singleton, Pending.push]
    omega

/-- The last byte completes the encoding of a character. -/
theorem exists_complete (h : Opened bytes pending) {last : UInt8} (haccepts : pending.accepts last)
    (hlast : pending.missing = 1) : ∃ c, String.utf8EncodeChar c = bytes ++ [last] := by
  have hbyte (byte : UInt8) : UInt8.ofNat byte.toNat = byte := UInt8.ofNat_toNat
  have hbounds := h.bounds_of_accepts haccepts
  -- The sequence has as many bytes as its first announces.
  cases h with
  | lead opens =>
    rcases lead_cases opens with ⟨hlow, hhigh, rfl⟩ | ⟨-, -, rfl⟩ | ⟨-, -, rfl⟩
    · have hchar := encodeChar_two ⟨hlow, hhigh⟩ hbounds
      rw [hbyte, hbyte] at hchar
      exact ⟨_, hchar⟩
    · cases hlast
    · cases hlast
  | push before accepted more =>
    have hinner := before.bounds_of_accepts accepted
    cases before with
    | lead opens =>
      obtain ⟨hle, hge⟩ := Pending.accepts_iff.mp accepted
      rcases lead_cases opens with ⟨-, -, rfl⟩ | ⟨hlow, hhigh, rfl⟩ | ⟨-, -, rfl⟩
      · cases Nat.lt_irrefl 1 more
      · have hchar := encodeChar_three ⟨hlow, hhigh⟩ hinner hbounds
          (fun ha ↦ by rwa [if_pos ha] at hle) (fun ha ↦ by rwa [if_pos ha] at hge)
        rw [hbyte, hbyte, hbyte] at hchar
        exact ⟨_, hchar⟩
      · cases hlast
    | push first second several =>
      have hsecond := first.bounds_of_accepts second
      cases first with
      | lead opens =>
        obtain ⟨hle, hge⟩ := Pending.accepts_iff.mp second
        rcases lead_cases opens with ⟨-, -, rfl⟩ | ⟨-, -, rfl⟩ | ⟨hlow, hhigh, rfl⟩
        · cases hlast
        · cases hlast
        · have hchar := encodeChar_four ⟨hlow, hhigh⟩ hsecond hinner hbounds
            (fun ha ↦ by rwa [if_pos ha] at hle) (fun ha ↦ by rwa [if_pos ha] at hge)
          rw [hbyte, hbyte, hbyte, hbyte] at hchar
          exact ⟨_, hchar⟩
      | push before third many =>
        have hsize := before.length_add_missing_le
        simp only [Pending.push] at several more
        omega

/-- An open sequence is the beginning of a character. -/
theorem begins (h : Opened bytes pending) : Begins bytes := by
  generalize hmissing : pending.missing = missing
  induction missing generalizing bytes pending with
  | zero =>
    have hpos := h.range.2.2.2
    omega
  | succ missing ih =>
    cases missing with
    | zero =>
      obtain ⟨c, hc⟩ := h.exists_complete h.low_accepted hmissing
      exact ⟨c, [pending.low], hc.symm⟩
    | succ missing =>
      have hnext := h.push h.low_accepted (by omega)
      obtain ⟨c, hc⟩ := ih hnext (by simp only [Pending.push]; omega)
      exact ⟨c, (List.prefix_append bytes _).trans hc⟩

theorem begins_of_accepts (h : Opened bytes pending) {byte : UInt8}
    (haccepts : pending.accepts byte) : Begins (bytes ++ [byte]) := by
  by_cases hmore : 1 < pending.missing
  · exact (h.push haccepts hmore).begins
  · have hpos := h.range.2.2.2
    obtain ⟨c, hc⟩ := h.exists_complete haccepts (by omega)
    exact ⟨c, hc ▸ List.prefix_refl _⟩

theorem decodeFrom_eq (h : Opened bytes pending) (rest : List UInt8) :
    decodeFrom none (bytes ++ rest) = decodeFrom (some pending) rest := by
  induction h generalizing rest with
  | lead opens => simp [decodeFrom, step, begin, opens]
  | @push bytes byte pending before accepted more ih =>
    have hopen : (pending.push byte).missing ≠ 0 := by
      simp only [Pending.push]
      omega
    rw [List.append_assoc, ih]
    simp [decodeFrom, step, accepted, hopen]

end Opened

/-! ## Encoded characters are decoded alone -/

theorem step_ne_nil (state : Option Pending) (byte : UInt8) :
    (step state byte).1 ≠ [] ∨ (step state byte).2 ≠ none := by
  cases state with
  | none =>
    rw [step, begin]
    split <;> simp
  | some pending =>
    rw [step]
    split
    · dsimp only
      split <;> simp
    · simp

theorem decodeFrom_ne_nil {state : Option Pending} {bytes : List UInt8}
    (h : state ≠ none ∨ bytes ≠ []) : decodeFrom state bytes ≠ [] := by
  induction bytes generalizing state with
  | nil =>
    cases state with
    | none => simp at h
    | some pending => simp [decodeFrom]
  | cons byte bytes ih =>
    simp only [decodeFrom, ne_eq, List.append_eq_nil_iff, not_and]
    intro hnothing
    exact ih (.inl ((step_ne_nil state byte).resolve_left fun hne ↦ hne hnothing))

/-- A character is all that is decoded from its bytes. -/
theorem decodeFrom_encodeChar_ne (c other : Char) {rest : List UInt8} (h : rest ≠ []) :
    decodeFrom none (String.utf8EncodeChar c) ≠ other :: decodeFrom none rest := by
  have hone := (completes_encodeChar c).decode []
  rw [List.append_nil, decodeFrom] at hone
  rw [hone]
  intro heq
  exact decodeFrom_ne_nil (.inr h) (List.cons.inj heq).2.symm

theorem decodeFrom_of_rejects {pending : Pending} {byte : UInt8} (h : ¬pending.accepts byte)
    (rest : List UInt8) :
    decodeFrom (some pending) (byte :: rest) = replacement :: decodeFrom none (byte :: rest) := by
  simp [decodeFrom, step, h]

theorem Opened.accepts_of_begins {bytes : List UInt8} {pending : Pending} {byte : UInt8}
    (h : Opened bytes pending) (hbegins : Begins (bytes ++ [byte])) : pending.accepts byte := by
  obtain ⟨c, rest, hc⟩ := hbegins
  by_contra hrejects
  apply decodeFrom_encodeChar_ne c replacement (List.cons_ne_nil byte rest)
  rw [← hc, List.append_assoc, h.decodeFrom_eq]
  exact decodeFrom_of_rejects hrejects rest

/-- Within the bytes of a character the decoder holds a sequence open. -/
theorem exists_opened {c : Char} {bytes rest : List UInt8}
    (h : bytes ++ rest = String.utf8EncodeChar c) (hbytes : bytes ≠ []) (hrest : rest ≠ []) :
    ∃ pending, Opened bytes pending := by
  induction bytes using List.reverseRecOn generalizing rest with
  | nil => exact absurd rfl hbytes
  | append_singleton front byte ih =>
    rw [List.append_assoc, List.singleton_append] at h
    by_cases hfront : front = []
    · subst hfront
      have halone (other : Char) :
          decodeFrom none (byte :: rest) ≠ other :: decodeFrom none rest := by
        rw [show byte :: rest = _ from h]
        exact decodeFrom_encodeChar_ne c other hrest
      cases hlead : lead byte with
      | opens pending => exact ⟨pending, .lead hlead⟩
      | whole other => exact absurd (by simp [decodeFrom, step, begin, hlead]) (halone other)
      | invalid => exact absurd (by simp [decodeFrom, step, begin, hlead]) (halone replacement)
    · obtain ⟨pending, hopened⟩ := ih h hfront (List.cons_ne_nil byte rest)
      have hbegins : Begins (front ++ [byte]) := ⟨c, rest, by simp [h]⟩
      have haccepts := hopened.accepts_of_begins hbegins
      by_cases hmore : 1 < pending.missing
      · exact ⟨_, hopened.push haccepts hmore⟩
      · -- The sequence would be complete before the character is.
        have hpos := hopened.range.2.2.2
        have hcomplete : (pending.push byte).missing = 0 := by
          simp only [Pending.push]
          omega
        apply absurd _ (decodeFrom_encodeChar_ne c (Char.ofNat (pending.push byte).bits) hrest)
        rw [← h, hopened.decodeFrom_eq]
        simp [decodeFrom, step, haccepts, hcomplete]

/-! ## The decoder -/

theorem eq_encodeChar_of_whole {byte : UInt8} {c : Char} (h : lead byte = .whole c) :
    String.utf8EncodeChar c = [byte] := by
  have hone : byte.toNat < 0x80 ∧ c = Char.ofNat byte.toNat := by
    simp only [lead] at h
    split at h
    · next hone =>
      cases h
      exact ⟨hone, rfl⟩
    · repeat' split at h
      all_goals cases h
  rw [hone.2, encodeChar_one hone.1, UInt8.ofNat_toNat]

/-- The decoder passes over an ill-formed part as a whole. -/
theorem IllFormed.decodeFrom_eq {part rest : List UInt8} (h : IllFormed part rest) :
    decodeFrom none (part ++ rest) = replacement :: decodeFrom none rest := by
  have hopened {pending : Pending} (hopened : Opened part pending) :
      decodeFrom none (part ++ rest) = replacement :: decodeFrom none rest := by
    rw [hopened.decodeFrom_eq]
    cases rest with
    | nil => rfl
    | cons byte rest =>
      apply decodeFrom_of_rejects
      intro haccepts
      have hlonger := h.longest (part ++ [byte]) (by simp) (hopened.begins_of_accepts haccepts)
      rw [List.length_append] at hlonger
      exact Nat.not_succ_le_self _ hlonger
  rcases h.begins with ⟨hne, c, tail, hc⟩ | hsingle
  · have htail : tail ≠ [] := by
      rintro rfl
      rw [List.append_nil] at hc
      exact h.unconvertible c (hc ▸ List.prefix_append part rest)
    obtain ⟨pending, hpending⟩ := exists_opened hc hne htail
    exact hopened hpending
  · obtain ⟨byte, rfl⟩ := List.length_eq_one_iff.mp hsingle
    cases hlead : lead byte with
    | opens pending => exact hopened (.lead hlead)
    | whole c =>
      have hchar := eq_encodeChar_of_whole hlead
      exact absurd (hchar ▸ List.prefix_append [byte] rest) (h.unconvertible c)
    | invalid => simp [decodeFrom, step, begin, hlead]

theorem StandsFor.decodeFrom_eq {bytes : List UInt8} {text : List Char} (h : StandsFor bytes text) :
    decodeFrom none bytes = text := by
  induction h with
  | nil => rfl
  | character c others ih => rw [(completes_encodeChar c).decode, ih]
  | replaced flawed others ih => rw [flawed.decodeFrom_eq, ih]

theorem Begins.mono {bytes other : List UInt8} (h : Begins other) (hfront : bytes <+: other) :
    Begins bytes := by
  obtain ⟨c, hc⟩ := h
  exact ⟨c, hfront.trans hc⟩

namespace Opened

variable {bytes rest : List UInt8} {pending : Pending}

/-- A sequence that does not go on is an ill-formed part. -/
theorem illFormed (h : Opened bytes pending)
    (hnone : ∀ c, ¬String.utf8EncodeChar c <+: bytes ++ rest)
    (hstop : ∀ byte ∈ rest.head?, ¬pending.accepts byte) : IllFormed bytes rest := by
  have hne : bytes ≠ [] := List.ne_nil_of_length_pos h.length_add_missing_le.1
  refine ⟨hnone, .inl ⟨hne, h.begins⟩, fun other hfront hbegins ↦ ?_⟩
  cases rest with
  | nil => simpa using hfront.length_le
  | cons byte rest =>
    by_contra hlonger
    have hover : bytes ++ [byte] <+: other := by
      apply List.prefix_of_prefix_length_le ⟨rest, by simp⟩ hfront
      rw [List.length_append]
      exact Nat.lt_of_not_le hlonger
    exact hstop byte rfl (h.accepts_of_begins (hbegins.mono hover))

/-- An open sequence goes on to the end of an ill-formed part, if not to that of a character. -/
theorem exists_illFormed (h : Opened bytes pending)
    (hnone : ∀ c, ¬String.utf8EncodeChar c <+: bytes ++ rest) :
    ∃ more left, rest = more ++ left ∧ IllFormed (bytes ++ more) left := by
  induction rest generalizing bytes pending with
  | nil => exact ⟨[], [], rfl, by simpa using h.illFormed hnone nofun⟩
  | cons byte rest ih =>
    by_cases haccepts : pending.accepts byte
    · have hmore : 1 < pending.missing := by
        by_contra hlast
        have hpos := h.range.2.2.2
        obtain ⟨c, hc⟩ := h.exists_complete haccepts (by omega)
        exact hnone c ⟨rest, by simp [hc]⟩
      obtain ⟨more, left, hrest, hpart⟩ := ih (h.push haccepts hmore) (by simpa using hnone)
      refine ⟨byte :: more, left, congrArg (byte :: ·) hrest, ?_⟩
      rwa [List.append_assoc] at hpart
    · have hpart := h.illFormed hnone (by simpa using haccepts)
      exact ⟨[], byte :: rest, rfl, by simpa using hpart⟩

end Opened

theorem exists_illFormed {byte : UInt8} {rest : List UInt8}
    (h : ∀ c, ¬String.utf8EncodeChar c <+: byte :: rest) :
    ∃ more left, rest = more ++ left ∧ IllFormed (byte :: more) left := by
  cases hlead : lead byte with
  | opens pending => exact (Opened.lead hlead).exists_illFormed h
  | whole c =>
    have hchar := eq_encodeChar_of_whole hlead
    exact absurd ⟨rest, by rw [hchar]; rfl⟩ (h c)
  | invalid =>
    refine ⟨[], rest, rfl, h, .inr rfl, fun other hfront hbegins ↦ ?_⟩
    cases other with
    | nil => exact Nat.zero_le _
    | cons first others =>
      obtain ⟨rfl, -⟩ := List.cons_prefix_cons.mp hfront
      obtain ⟨c, tail, hc⟩ := hbegins
      by_contra hlonger
      have hne : others ++ tail ≠ [] := by
        rintro hnil
        obtain ⟨rfl, rfl⟩ := List.append_eq_nil_iff.mp hnil
        exact hlonger (Nat.le_refl _)
      apply decodeFrom_encodeChar_ne c replacement hne
      rw [← hc]
      simp [decodeFrom, step, begin, hlead]

theorem exists_standsFor (bytes : List UInt8) : ∃ text, StandsFor bytes text := by
  induction hlength : bytes.length using Nat.strongRecOn generalizing bytes with
  | ind length ih =>
    subst hlength
    by_cases hchar : ∃ c, String.utf8EncodeChar c <+: bytes
    · obtain ⟨c, rest, rfl⟩ := hchar
      have hshorter : rest.length < (String.utf8EncodeChar c ++ rest).length := by
        rw [List.length_append, String.length_utf8EncodeChar]
        exact Nat.lt_add_of_pos_left c.utf8Size_pos
      obtain ⟨text, htext⟩ := ih _ hshorter rest rfl
      exact ⟨_, .character c htext⟩
    · cases bytes with
      | nil => exact ⟨[], .nil⟩
      | cons byte rest =>
        obtain ⟨more, left, rfl, hpart⟩ := exists_illFormed (not_exists.mp hchar)
        have hshorter : left.length < (byte :: more ++ left).length := by
          rw [List.length_append]
          exact Nat.lt_add_of_pos_left (Nat.succ_pos more.length)
        obtain ⟨text, htext⟩ := ih _ hshorter left rfl
        exact ⟨_, .replaced hpart htext⟩

/-- Every list of bytes stands for one text, which is what is decoded from it. -/
theorem standsFor_iff {bytes : List UInt8} {text : List Char} :
    StandsFor bytes text ↔ decodeFrom none bytes = text := by
  constructor
  · exact StandsFor.decodeFrom_eq
  · rintro rfl
    obtain ⟨text, htext⟩ := exists_standsFor bytes
    rwa [htext.decodeFrom_eq]

end LoxLang.Text.Utf8
