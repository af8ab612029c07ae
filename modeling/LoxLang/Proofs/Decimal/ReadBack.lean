import LoxLang.Decimal.Shortest

/-!
# Reading a written decimal

Reading depends on the quotient alone and not on the numerator and the denominator, and it gives a
double back for its own value. So the decimal that is chosen to write a double reads back as that
double: either it was tried, or it is the expansion of the double itself, which has at most 1074
places. The zeros that its digits are filled up with, and those that are left out behind the point,
change nothing.
-/

namespace LoxLang.Decimal

/-! ## Rounding -/

theorem roundDiv_mul_right (num den : Nat) {scale : Nat} (h : 0 < scale) :
    roundDiv (num * scale) (den * scale) = roundDiv num den := by
  have hquotient : num * scale / (den * scale) = num / den := Nat.mul_div_mul_right num den h
  have hrest : 2 * (num * scale % (den * scale)) = 2 * (num % den) * scale := by
    rw [Nat.mul_mod_mul_right, Nat.mul_assoc]
  simp only [roundDiv, hquotient, hrest, Nat.mul_lt_mul_right h]

theorem roundDiv_mul_self (num : Nat) {den : Nat} (h : 0 < den) :
    roundDiv (num * den) den = num := by
  simp only [roundDiv, Nat.mul_div_cancel num h, Nat.mul_mod_left, Nat.mul_zero, h, if_true]

/-- Only the quotient matters. -/
theorem nearestBits_mul_right (num den : Nat) {scale : Nat} (h : 0 < scale) :
    nearestBits (num * scale) (den * scale) = nearestBits num den := by
  have hunits : (num * scale) <<< 1074 = num <<< 1074 * scale := by
    simp only [Nat.shiftLeft_eq, Nat.mul_right_comm]
  have hquotient : num <<< 1074 * scale / (den * scale) = num <<< 1074 / den :=
    Nat.mul_div_mul_right _ _ h
  have hden (shift : Nat) : (den * scale) <<< shift = den <<< shift * scale := by
    simp only [Nat.shiftLeft_eq, Nat.mul_right_comm]
  simp only [nearestBits, hunits, hquotient, hden, roundDiv_mul_right _ _ h]

/-! ## Doubles -/

theorem log2_shiftLeft {num : Nat} (h : num ≠ 0) (shift : Nat) :
    (num <<< shift).log2 = num.log2 + shift := by
  induction shift with
  | zero => rfl
  | succ shift ih =>
    have hne : num <<< shift ≠ 0 := by
      rw [Nat.shiftLeft_eq]
      exact Nat.mul_ne_zero h (Nat.ne_of_gt (Nat.two_pow_pos shift))
    rw [Nat.shiftLeft_succ, Nat.log2_two_mul hne, ih, Nat.add_assoc]

/-- The shift of a mantissa is found from its leading bit. -/
theorem log2_mantissa {mantissa shift : Nat} (hlt : mantissa < 1 <<< 53)
    (hlead : shift = 0 ∨ 1 <<< 52 ≤ mantissa) : (mantissa <<< shift).log2 - 52 = shift := by
  rw [Nat.one_shiftLeft] at hlt
  rcases hlead with rfl | hlead
  · apply Nat.sub_eq_zero_of_le
    rw [Nat.shiftLeft_zero]
    by_cases hzero : mantissa = 0
    · rw [hzero, Nat.log2_zero]
      exact Nat.zero_le _
    · exact Nat.le_of_lt_succ ((Nat.log2_lt hzero).mpr hlt)
  · rw [Nat.one_shiftLeft] at hlead
    have hne : mantissa ≠ 0 := Nat.ne_of_gt (Nat.lt_of_lt_of_le (Nat.two_pow_pos 52) hlead)
    have hlog : mantissa.log2 = 52 := (Nat.log2_eq_iff hne).mpr ⟨hlead, hlt⟩
    rw [log2_shiftLeft hne, hlog, Nat.add_sub_cancel_left]

theorem nearestBits_mantissa (mantissa shift : Nat) (hlt : mantissa < 1 <<< 53)
    (hlead : shift = 0 ∨ 1 <<< 52 ≤ mantissa) :
    nearestBits (mantissa <<< shift) (1 <<< 1074) = min (shift <<< 52 + mantissa) infinityBits := by
  have hunits : mantissa <<< shift <<< 1074 = mantissa <<< shift * 1 <<< 1074 := by
    rw [Nat.shiftLeft_eq _ 1074, Nat.one_shiftLeft]
  have hpos : 0 < 1 <<< 1074 := by
    rw [Nat.one_shiftLeft]
    exact Nat.two_pow_pos 1074
  have hround : roundDiv (mantissa <<< shift * 1 <<< 1074) (1 <<< 1074 <<< shift) = mantissa := by
    have hden : 1 <<< 1074 <<< shift = 1 <<< shift * 1 <<< 1074 := by
      rw [Nat.shiftLeft_eq _ shift, Nat.one_shiftLeft shift, Nat.mul_comm]
    rw [hden, roundDiv_mul_right _ _ hpos, Nat.shiftLeft_eq, Nat.one_shiftLeft]
    exact roundDiv_mul_self mantissa (Nat.two_pow_pos shift)
  unfold nearestBits
  dsimp only
  rw [hunits, Nat.mul_div_cancel _ hpos, log2_mantissa hlt hlead, hround]

/-- A double is the nearest to itself. -/
theorem nearestBits_unitsOfBits {bits : Nat} (h : bits < infinityBits) :
    nearestBits (unitsOfBits bits) (1 <<< 1074) = bits := by
  have hparts := Nat.div_add_mod bits (1 <<< 52)
  have hexponent : bits >>> 52 = bits / 1 <<< 52 := Nat.shiftRight_eq_div_pow bits 52
  have hfraction : bits % 1 <<< 52 < 1 <<< 52 := Nat.mod_lt _ (by decide)
  unfold unitsOfBits
  dsimp only
  rw [hexponent]
  generalize bits / 1 <<< 52 = exponent at hparts
  generalize bits % 1 <<< 52 = fraction at hparts hfraction
  have hdouble : (1 : Nat) <<< 53 = 1 <<< 52 + 1 <<< 52 := rfl
  cases exponent with
  | zero =>
    have hnearest := nearestBits_mantissa fraction 0 (by omega) (.inl rfl)
    rw [Nat.mul_zero, Nat.zero_add] at hparts
    rw [Nat.shiftLeft_zero, Nat.zero_shiftLeft, Nat.zero_add] at hnearest
    rw [if_pos rfl, hnearest, hparts]
    exact Nat.min_eq_left (Nat.le_of_lt h)
  | succ shift =>
    -- The leading bit of a mantissa is not stored, but counts into the exponent.
    have hnearest := nearestBits_mantissa (fraction + 1 <<< 52) shift (by omega)
      (.inr (Nat.le_add_left _ _))
    have hbits : shift <<< 52 + (fraction + 1 <<< 52) = bits := by
      rw [Nat.shiftLeft_eq, ← Nat.one_shiftLeft, Nat.mul_comm, ← hparts, Nat.mul_succ]
      omega
    rw [if_neg (Nat.succ_ne_zero shift), Nat.add_sub_cancel, hnearest, hbits]
    exact Nat.min_eq_left (Nat.le_of_lt h)

/-! ## The chosen decimal -/

/-- The expansion of a number of units of `2 ^ -places`. -/
theorem bits_expansion (units places : Nat) :
    Scaled.bits ⟨units * Nat.pow 5 places, -(places : Int)⟩ = nearestBits units (1 <<< places) := by
  have hten : Nat.pow 10 places = 1 <<< places * Nat.pow 5 places := by
    rw [Nat.one_shiftLeft]
    exact Nat.mul_pow 2 5 places
  have hpos : 0 < Nat.pow 5 places := Nat.pow_pos (by decide)
  have hwhole : Nat.pow 10 (-(places : Int)).toNat = 1 := by
    rw [Int.toNat_neg_natCast]
  unfold Scaled.bits Scaled.fraction
  dsimp only
  rw [hwhole, Nat.mul_one, Int.neg_neg, Int.toNat_natCast, hten, nearestBits_mul_right _ _ hpos]

/-- The decimal that a double is written as reads back as the double. -/
theorem bits_shortest {bits : Nat} (h : bits < infinityBits) : (shortest bits).bits = bits := by
  unfold shortest
  dsimp only
  generalize List.range 17 = counts
  cases htried : counts.findSome? fun count ↦ _ with
  | none =>
    have hplaces : (-1074 : Int) = -((1074 : Nat) : Int) := rfl
    simp only [Option.getD_none, hplaces, bits_expansion, nearestBits_unitsOfBits h]
  | some found =>
    obtain ⟨count, -, hfound⟩ := List.exists_of_findSome?_eq_some htried
    have hreads := List.find?_some hfound
    rw [Option.getD_some]
    exact of_decide_eq_true hreads

/-! ## Digits -/

/-- Zeros at the end. -/
theorem ofDigits_append_zeros (digits : List Char) (count : Nat) :
    ofDigits (digits ++ List.replicate count '0') = ofDigits digits * Nat.pow 10 count :=
  calc
    _ = Nat.ofDigitChars 10 (List.replicate count '0') (ofDigits digits) :=
      Nat.ofDigitChars_append 0
    _ = _ := by
      rw [Nat.ofDigitChars_replicate_zero, Nat.mul_comm]
      rfl

/-- Zeros at the front. -/
theorem ofDigits_zeros_append (count num : Nat) :
    ofDigits (List.replicate count '0' ++ Nat.toDigits 10 num) = num :=
  calc
    _ = Nat.ofDigitChars 10 (Nat.toDigits 10 num)
        (Nat.ofDigitChars 10 (List.replicate count '0') 0) := Nat.ofDigitChars_append 0
    _ = num := by
      rw [Nat.ofDigitChars_replicate_zero, Nat.mul_zero, Nat.ofDigitChars_ten_toDigits]

theorem exists_zeros (digits : List Char) :
    ∃ count, (digits.reverse.dropWhile (· = '0')).reverse ++ List.replicate count '0' = digits := by
  have hzeros : ∀ c ∈ (digits.reverse.takeWhile (· = '0')).reverse, c = '0' := by
    intro c hc
    have hall := List.all_eq_true.mp List.all_takeWhile c (List.mem_reverse.mp hc)
    exact of_decide_eq_true hall
  refine ⟨(digits.reverse.takeWhile (· = '0')).reverse.length, ?_⟩
  rw [← List.eq_replicate_of_mem hzeros, ← List.reverse_append, List.takeWhile_append_dropWhile,
    List.reverse_reverse]

/-- The digits of a decimal, with zeros in front up to one before the point. -/
def padded (d : Scaled) : List Char :=
  let digits := Nat.toDigits 10 (d.digits * Nat.pow 10 d.exponent.toNat)
  List.replicate ((-d.exponent).toNat + 1 - digits.length) '0' ++ digits

theorem places_lt_length_padded (d : Scaled) : (-d.exponent).toNat < (padded d).length := by
  rw [padded, List.length_append, List.length_replicate]
  omega

theorem layout_fst (d : Scaled) :
    (layout d).1 = (padded d).take ((padded d).length - (-d.exponent).toNat) := rfl

/-- A decimal is laid out as its digits, but for zeros at the end of those behind the point. -/
theorem exists_layout (d : Scaled) :
    ∃ count, (layout d).1 ++ (layout d).2 ++ List.replicate count '0' = padded d ∧
      (layout d).2.length + count = (-d.exponent).toNat := by
  have hlength := places_lt_length_padded d
  obtain ⟨count, hzeros⟩ :=
    exists_zeros ((padded d).drop ((padded d).length - (-d.exponent).toNat))
  have hbehind : (layout d).2 ++ List.replicate count '0' =
      (padded d).drop ((padded d).length - (-d.exponent).toNat) := hzeros
  refine ⟨count, ?_, ?_⟩
  · rw [List.append_assoc, hbehind, layout_fst, List.take_append_drop]
  · have hplaces := congrArg List.length hbehind
    rw [List.length_append, List.length_replicate, List.length_drop] at hplaces
    omega

theorem layout_fst_ne_nil (d : Scaled) : (layout d).1 ≠ [] := by
  have hlength := places_lt_length_padded d
  apply List.ne_nil_of_length_pos
  rw [layout_fst, List.length_take]
  omega

theorem isDigit_of_mem_layout {d : Scaled} {c : Char} (h : c ∈ (layout d).1 ++ (layout d).2) :
    c.isDigit := by
  obtain ⟨count, hdigits, -⟩ := exists_layout d
  have hpadded : c ∈ padded d := by
    rw [← hdigits]
    exact List.mem_append_left _ h
  rcases List.mem_append.mp hpadded with hzero | hdigit
  · rw [List.eq_of_mem_replicate hzero]
    rfl
  · exact Nat.isDigit_of_mem_toDigits (by decide) (by decide) hdigit

/-- The digits read back as the decimal. -/
theorem readBits_layout (d : Scaled) : readBits (layout d).1 (layout d).2 = d.bits := by
  obtain ⟨count, hdigits, hplaces⟩ := exists_layout d
  have hnum : ofDigits ((layout d).1 ++ (layout d).2) * Nat.pow 10 count = d.fraction.1 := by
    rw [← ofDigits_append_zeros, hdigits]
    exact ofDigits_zeros_append _ _
  have hden : Nat.pow 10 (layout d).2.length * Nat.pow 10 count = d.fraction.2 := by
    rw [Scaled.fraction, ← hplaces]
    exact (Nat.pow_add 10 _ _).symm
  have hpos : 0 < Nat.pow 10 count := Nat.pow_pos (by decide)
  rw [readBits, ← nearestBits_mul_right _ _ hpos, hnum, hden]
  rfl

end LoxLang.Decimal
