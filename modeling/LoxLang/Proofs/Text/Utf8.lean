import LoxLang.Text.Utf8

/-!
# Encoding and decoding

The decoder is correct on what the encoder gives: the bytes of a character take it from one
character boundary to the next, without a flaw, and give that character. A byte of a character
of several bytes is never an ASCII one.
-/

namespace LoxLang.Text.Utf8

/-! ## Characters -/

/-- In the given state the bytes complete the character and leave no sequence open. -/
structure Completes (state : Option Pending) (bytes : List UInt8) (c : Char) : Prop where
  decode : ∀ behind, decodeFrom state (bytes ++ behind) = c :: decodeFrom none behind
  flaw : ∀ index behind, flawFrom index state (bytes ++ behind) =
    flawFrom (index + bytes.length) none behind

theorem completes_whole {byte : UInt8} {c : Char} (h : lead byte = .whole c) :
    Completes none [byte] c where
  decode behind := by simp [decodeFrom, step, begin, h]
  flaw index behind := by simp [flawFrom, h]

theorem Completes.lead {byte : UInt8} {pending : Pending} {bytes : List UInt8} {c : Char}
    (h : Completes (some pending) bytes c) (hlead : lead byte = .opens pending) :
    Completes none (byte :: bytes) c where
  decode behind := by simp [decodeFrom, step, begin, hlead, h.decode]
  flaw index behind := by
    simp only [List.cons_append, flawFrom, hlead, h.flaw, List.length_cons]
    congr 1
    omega

theorem Completes.next {byte : UInt8} {pending : Pending} {bytes : List UInt8} {c : Char}
    (h : Completes (some (pending.push byte)) bytes c) (haccepts : pending.accepts byte)
    (hmissing : 1 < pending.missing) : Completes (some pending) (byte :: bytes) c where
  decode behind := by
    have hopen : (pending.push byte).missing ≠ 0 := by
      simp only [Pending.push]
      omega
    simp [decodeFrom, step, haccepts, hopen, h.decode]
  flaw index behind := by
    have hopen : (pending.push byte).missing ≠ 0 := by
      simp only [Pending.push]
      omega
    simp only [List.cons_append, flawFrom, haccepts, if_true, hopen, if_false, h.flaw,
      List.length_cons]
    congr 1
    omega

theorem completes_last {byte : UInt8} {pending : Pending} {n : Nat}
    (haccepts : pending.accepts byte) (hmissing : pending.missing = 1)
    (hbits : (pending.push byte).bits = n) :
    Completes (some pending) [byte] (Char.ofNat n) where
  decode behind := by
    rw [← hbits]
    simp [decodeFrom, step, haccepts, Pending.push, hmissing]
  flaw index behind := by simp [flawFrom, haccepts, Pending.push, hmissing]

theorem toNat_ofNat {n : Nat} (h : n < 0x100) : (UInt8.ofNat n).toNat = n :=
  UInt8.toNat_ofNat_of_lt' h

theorem accepts_of_le {pending : Pending} {n : Nat} (hlow : pending.low.toNat ≤ n)
    (hhigh : n ≤ pending.high.toNat) : pending.accepts (.ofNat n) := by
  have hn := toNat_ofNat (Nat.lt_of_le_of_lt hhigh pending.high.toNat_lt)
  simp [Pending.accepts, UInt8.le_iff_toNat_le, hn, hlow, hhigh]

/-- A byte in the midst of a character, and what it adds to the value. -/
theorem push_ofNat (pending : Pending) {n : Nat} (h : n < 64) :
    pending.push (.ofNat (n + 0x80)) =
      ⟨pending.seen + 1, pending.missing - 1, 0x80, 0xBF, 64 * pending.bits + n⟩ := by
  rw [Pending.push, toNat_ofNat (by omega), Nat.add_sub_cancel]

theorem lead_two {n : Nat} (hlow : 0xC2 ≤ n) (hhigh : n < 0xE0) :
    lead (.ofNat n) = .opens ⟨1, 1, 0x80, 0xBF, n - 0xC0⟩ := by
  have hn : (UInt8.ofNat n).toNat = n := toNat_ofNat (by omega)
  simp only [lead, hn]
  rw [if_neg (by omega), if_neg (by omega), if_pos hhigh]

theorem lead_three {n : Nat} (hlow : 0xE0 ≤ n) (hhigh : n < 0xF0) :
    lead (.ofNat n) =
      .opens ⟨1, 2, if n = 0xE0 then 0xA0 else 0x80, if n = 0xED then 0x9F else 0xBF, n - 0xE0⟩ := by
  have hn : (UInt8.ofNat n).toNat = n := toNat_ofNat (by omega)
  simp only [lead, hn]
  rw [if_neg (by omega), if_neg (by omega), if_neg (by omega)]
  by_cases hfirst : n = 0xE0
  · subst hfirst
    rfl
  · by_cases hsurrogate : n = 0xED
    · subst hsurrogate
      rfl
    · simp only [hfirst, hsurrogate, hhigh, if_true, if_false]

theorem lead_four {n : Nat} (hlow : 0xF0 ≤ n) (hhigh : n ≤ 0xF4) :
    lead (.ofNat n) =
      .opens ⟨1, 3, if n = 0xF0 then 0x90 else 0x80, if n = 0xF4 then 0x8F else 0xBF, n - 0xF0⟩ := by
  obtain rfl | rfl | rfl | rfl | rfl :
      n = 0xF0 ∨ n = 0xF1 ∨ n = 0xF2 ∨ n = 0xF3 ∨ n = 0xF4 := by omega
  all_goals rfl

section

variable {n : Nat}

theorem completes_one (h : n ≤ 0x7F) : Completes none [.ofNat n] (Char.ofNat n) := by
  apply completes_whole
  have hn : (UInt8.ofNat n).toNat = n := toNat_ofNat (by omega)
  simp only [lead, hn]
  rw [if_pos (by omega)]

theorem completes_two (hlow : 0x7F < n) (hhigh : n ≤ 0x7FF) :
    Completes none [.ofNat (n / 64 % 32 + 192), .ofNat (n % 64 + 128)] (Char.ofNat n) := by
  refine (completes_last ?_ rfl ?_).lead (lead_two (by omega) (by omega))
  · exact accepts_of_le (Nat.le_add_left _ _) (show _ ≤ 0xBF by omega)
  · rw [push_ofNat _ (by omega)]
    dsimp only
    omega

theorem completes_three (hlow : 0x7FF < n) (hhigh : n ≤ 0xFFFF)
    (hvalid : n < 0xD800 ∨ 0xDFFF < n) :
    Completes none [.ofNat (n / 4096 % 16 + 224), .ofNat (n / 64 % 64 + 128), .ofNat (n % 64 + 128)]
      (Char.ofNat n) := by
  refine Completes.lead (.next (completes_last ?_ ?_ ?_) ?_ ?_) (lead_three (by omega) (by omega))
  · rw [push_ofNat _ (by omega)]
    exact accepts_of_le (Nat.le_add_left _ _) (show _ ≤ 0xBF by omega)
  · rfl
  · rw [push_ofNat _ (by omega), push_ofNat _ (by omega)]
    dsimp only
    omega
  · -- Overlong forms and surrogates are what the second byte could be wrong about.
    apply accepts_of_le
    · dsimp only
      split
      · exact show 0xA0 ≤ _ by omega
      · exact Nat.le_add_left _ _
    · dsimp only
      split
      · exact show _ ≤ 0x9F by omega
      · exact show _ ≤ 0xBF by omega
  · exact Nat.one_lt_two

theorem completes_four (hlow : 0xFFFF < n) (hhigh : n < 0x110000) :
    Completes none [.ofNat (n / 262144 % 8 + 240), .ofNat (n / 4096 % 64 + 128),
      .ofNat (n / 64 % 64 + 128), .ofNat (n % 64 + 128)] (Char.ofNat n) := by
  refine Completes.lead (.next (.next (completes_last ?_ ?_ ?_) ?_ ?_) ?_ ?_)
    (lead_four (by omega) (by omega))
  · rw [push_ofNat _ (by omega), push_ofNat _ (by omega)]
    exact accepts_of_le (Nat.le_add_left _ _) (show _ ≤ 0xBF by omega)
  · rfl
  · rw [push_ofNat _ (by omega), push_ofNat _ (by omega), push_ofNat _ (by omega)]
    dsimp only
    omega
  · rw [push_ofNat _ (by omega)]
    exact accepts_of_le (Nat.le_add_left _ _) (show _ ≤ 0xBF by omega)
  · exact Nat.one_lt_two
  · apply accepts_of_le
    · dsimp only
      split
      · exact show 0x90 ≤ _ by omega
      · exact Nat.le_add_left _ _
    · dsimp only
      split
      · exact show _ ≤ 0x8F by omega
      · exact show _ ≤ 0xBF by omega
  · exact show 1 < 3 by decide

end

theorem completes_encodeChar (c : Char) : Completes none (String.utf8EncodeChar c) c := by
  have hvalid : c.val.toNat < 0xD800 ∨ 0xDFFF < c.val.toNat ∧ c.val.toNat < 0x110000 := c.valid
  have hchar : Char.ofNat c.val.toNat = c := c.ofNat_toNat
  rw [String.utf8EncodeChar]
  generalize c.val.toNat = n at hvalid hchar ⊢
  subst hchar
  split
  · next hone => exact completes_one hone
  · next hone =>
    split
    · next htwo => exact completes_two (Nat.not_le.mp hone) htwo
    · next htwo =>
      split
      · next hthree =>
        exact completes_three (Nat.not_le.mp htwo) hthree (hvalid.imp_right And.left)
      · next hthree => exact completes_four (Nat.not_le.mp hthree) (by omega)

/-! ## Texts -/

theorem decodeFrom_encode (text : List Char) (behind : List UInt8) :
    decodeFrom none (text.flatMap String.utf8EncodeChar ++ behind) =
      text ++ decodeFrom none behind := by
  induction text with
  | nil => rfl
  | cons c rest ih =>
    rw [List.flatMap_cons, List.append_assoc, (completes_encodeChar c).decode, ih]
    rfl

/-- What is decoded from an encoded text is the text. -/
theorem decode_encode (text : String) : decode (encode text) = text := by
  have htext := decodeFrom_encode text.toList []
  rw [List.append_nil] at htext
  rw [decode, encode, htext, decodeFrom, List.append_nil, String.ofList_toList]

theorem flaw?_encode (text : String) : flaw? (encode text) = none := by
  have hflaw (index : Nat) (chars : List Char) :
      flawFrom index none (chars.flatMap String.utf8EncodeChar) = none := by
    induction chars generalizing index with
    | nil => rfl
    | cons c rest ih => rw [List.flatMap_cons, (completes_encodeChar c).flaw, ih]
  exact hflaw 0 text.toList

@[simp]
theorem encode_append (first second : String) :
    encode (first ++ second) = encode first ++ encode second := by
  rw [encode, String.toList_append, List.flatMap_append]
  rfl

/-- A character of several bytes has no ASCII byte. -/
theorem le_of_mem_encodeChar {c : Char} {byte : UInt8} (h : 0x7F < c.val.toNat)
    (hmem : byte ∈ String.utf8EncodeChar c) : 0x80 ≤ byte.toNat := by
  rw [String.utf8EncodeChar, if_neg (Nat.not_le.mpr h)] at hmem
  split at hmem
  · simp only [List.mem_cons, List.not_mem_nil, or_false] at hmem
    rcases hmem with rfl | rfl <;> rw [toNat_ofNat (by omega)] <;> omega
  · split at hmem
    · simp only [List.mem_cons, List.not_mem_nil, or_false] at hmem
      rcases hmem with rfl | rfl | rfl <;> rw [toNat_ofNat (by omega)] <;> omega
    · simp only [List.mem_cons, List.not_mem_nil, or_false] at hmem
      rcases hmem with rfl | rfl | rfl | rfl <;> rw [toNat_ofNat (by omega)] <;> omega

/-- A line feed is a byte of no other character. -/
theorem lineFeed_not_mem_encodeChar {c : Char} (h : c ≠ '\n') :
    (10 : UInt8) ∉ String.utf8EncodeChar c := by
  intro hmem
  by_cases hone : c.val.toNat ≤ 0x7F
  · rw [String.utf8EncodeChar, if_pos hone] at hmem
    have hbyte := congrArg UInt8.toNat (List.mem_singleton.mp hmem)
    rw [toNat_ofNat (by omega)] at hbyte
    apply h
    rw [← c.ofNat_toNat]
    exact congrArg Char.ofNat hbyte.symm
  · exact absurd (le_of_mem_encodeChar (Nat.not_le.mp hone) hmem) (by decide)

theorem lineFeed_not_mem_encode {text : String} (h : '\n' ∉ text.toList) :
    (10 : UInt8) ∉ encode text := by
  intro hmem
  obtain ⟨c, hc, hbyte⟩ := List.mem_flatMap.mp hmem
  have hne : c ≠ '\n' := by
    rintro rfl
    exact h hc
  exact lineFeed_not_mem_encodeChar hne hbyte

end LoxLang.Text.Utf8
