import Mathlib
import LoxLang.Decimal.Shortest

/-!
# Doubles and their bits

The highest bit of a double is its sign, and the others are its size. A double is finite if its
size is below that of infinity, and it is its size with the sign in front: a number without a sign
is given back from its size, and one with a sign is the negation of that.

The laws of packing and unpacking are those of Batteries. No part of Mathlib passes them on, so the
whole of it is imported.
-/

namespace LoxLang.Decimal

open Float.Model (Format)
open Float.Model.UnpackedFloat

/-- The bits of a double without its sign. -/
def unsignedBits (x : Float) : Nat := x.toBits.toNat % (1 <<< 63)

/-! ## Parts of a double -/

section

variable (bits : BitVec Format.binary64.numBits)

theorem toNat_unpackExponent : (unpackExponent bits).toNat = bits.toNat / 2 ^ 52 % 2 ^ 11 := by
  rw [unpackExponent_def, BitVec.extractLsb'_toNat, Nat.shiftRight_eq_div_pow]

theorem toNat_unpackMantissa : (unpackMantissa bits).toNat = bits.toNat % 2 ^ 52 := by
  rw [unpackMantissa_def, BitVec.extractLsb'_toNat, Nat.shiftRight_zero]

theorem toNat_unpackSign : (unpackSign bits).toNat = bits.toNat / 2 ^ 63 % 2 := by
  rw [unpackSign_def, BitVec.extractLsb'_toNat, Nat.shiftRight_eq_div_pow]
  rfl

end

/-- Doubles that differ in the sign alone are the negations of each other. -/
theorem unpack_eq_neg {bits other : BitVec Format.binary64.numBits}
    (hmantissa : unpackMantissa bits = unpackMantissa other)
    (hexponent : unpackExponent bits = unpackExponent other)
    (hsign : Sign.ofBitVec (unpackSign bits) = -Sign.ofBitVec (unpackSign other)) :
    unpack Format.binary64 bits = (unpack Format.binary64 other).neg := by
  simp only [unpack, hmantissa, hexponent, hsign]
  split
  · split <;> rfl
  · split
    · split <;> rfl
    · rfl

/-- To set the sign is to negate. -/
theorem unpack_signed {bits size : BitVec Format.binary64.numBits}
    (h : size.toNat + 2 ^ 63 = bits.toNat) :
    unpack Format.binary64 bits = (unpack Format.binary64 size).neg := by
  have hlt : bits.toNat < 2 ^ 64 := bits.isLt
  apply unpack_eq_neg
  · apply BitVec.eq_of_toNat_eq
    rw [toNat_unpackMantissa, toNat_unpackMantissa]
    omega
  · apply BitVec.eq_of_toNat_eq
    rw [toNat_unpackExponent, toNat_unpackExponent]
    omega
  · have hset : unpackSign bits = 1#1 := by
      apply BitVec.eq_of_toNat_eq
      rw [toNat_unpackSign, BitVec.toNat_ofNat]
      omega
    have hclear : unpackSign size = 0#1 := by
      apply BitVec.eq_of_toNat_eq
      rw [toNat_unpackSign, BitVec.toNat_ofNat]
      omega
    rw [hset, hclear]
    rfl

theorem unpackExponent_ne_of_isFinite {bits : BitVec Format.binary64.numBits}
    (h : (unpack Format.binary64 bits).isFinite) : unpackExponent bits ≠ -1#_ := by
  intro hexponent
  simp only [unpack, hexponent, if_true] at h
  split at h <;> cases h

theorem unpackExponent_ne_iff {bits : BitVec Format.binary64.numBits} :
    unpackExponent bits ≠ -1#_ ↔ bits.toNat % (1 <<< 63) < infinityBits := by
  have htop : (-1#_ : BitVec Format.binary64.exponentBits).toNat = 2047 := rfl
  have hlimit : infinityBits = 2047 * 2 ^ 52 := rfl
  rw [ne_eq, ← BitVec.toNat_inj, toNat_unpackExponent, htop, hlimit, Nat.one_shiftLeft]
  omega

/-! ## Sign and size -/

/-- A double with the sign is the negation of the one without it. -/
theorem neg_eq_of_signed {x y : Float} (h : y.toBits.toNat + 2 ^ 63 = x.toBits.toNat) : -y = x := by
  have hparts : unpack Format.binary64 x.toBits.toBitVec =
      (unpack Format.binary64 y.toBits.toBitVec).neg := unpack_signed h
  apply Float.toBits_inj.mp
  calc
    _ = UInt64.ofBitVec
        (pack Format.binary64 (unpack Format.binary64 y.toBits.toBitVec).neg) := rfl
    _ = UInt64.ofBitVec (pack Format.binary64 (unpack Format.binary64 x.toBits.toBitVec)) := by
      rw [hparts]
    _ = x.toBits := congrArg UInt64.ofBitVec (pack_unpack_of_valid x.toModel.valid)

theorem unsignedBits_lt {x : Float} (h : x.isFinite) : unsignedBits x < infinityBits :=
  unpackExponent_ne_iff.mp (unpackExponent_ne_of_isFinite h)

/-- The bits of a finite double without a sign are kept. -/
theorem toNat_toBits_ofBits {bits : Nat} (h : bits < infinityBits) :
    (Float.ofBits (UInt64.ofNat bits)).toBits.toNat = bits := by
  have hkept : (UInt64.ofNat bits).toNat = bits := by
    apply UInt64.toNat_ofNat_of_lt
    exact Nat.lt_trans h (by decide)
  have hexponent : @unpackExponent Format.binary64 (UInt64.ofNat bits).toBitVec ≠ -1#_ := by
    apply unpackExponent_ne_iff.mpr
    rw [UInt64.toNat_toBitVec, hkept]
    exact Nat.lt_of_le_of_lt (Nat.mod_le _ _) h
  have hnumber : ¬@isNaNBits Format.binary64 (UInt64.ofNat bits).toBitVec := by
    intro hnan
    exact hexponent (of_decide_eq_true hnan).1
  have hpack := @pack_unpack Format.binary64 (UInt64.ofNat bits).toBitVec (by decide)
  rw [if_neg hnumber] at hpack
  have hbits : (Float.ofBits (UInt64.ofNat bits)).toBits = UInt64.ofNat bits :=
    congrArg UInt64.ofBitVec hpack
  rw [hbits, hkept]

/-- A finite double is its size or the negation of it. -/
theorem eq_ofBits_or_neg {x : Float} (h : x.isFinite) :
    (unsignedBits x = x.toBits.toNat ∧ Float.ofBits (UInt64.ofNat (unsignedBits x)) = x) ∨
    (unsignedBits x ≠ x.toBits.toNat ∧ -Float.ofBits (UInt64.ofNat (unsignedBits x)) = x) := by
  by_cases hsign : unsignedBits x = x.toBits.toNat
  · left
    rw [hsign, UInt64.ofNat_toNat, Float.ofBits_toBits]
    exact ⟨rfl, rfl⟩
  · right
    refine ⟨hsign, neg_eq_of_signed ?_⟩
    have hlt := x.toBits.toNat_lt
    rw [toNat_toBits_ofBits (unsignedBits_lt h)]
    rw [unsignedBits, Nat.one_shiftLeft] at hsign ⊢
    omega

theorem text_of_isFinite (infinity : String) {x : Float} (h : x.isFinite) :
    text infinity x = (if unsignedBits x = x.toBits.toNat then "" else "-") ++
      positional (shortest (unsignedBits x)) := by
  have hlt : x.toBits.toNat % (1 <<< 63) < infinityBits := unsignedBits_lt h
  unfold text textOfBits
  dsimp only
  rw [if_neg (Nat.not_lt_of_lt hlt), if_neg (Nat.ne_of_lt hlt)]
  rfl

end LoxLang.Decimal
