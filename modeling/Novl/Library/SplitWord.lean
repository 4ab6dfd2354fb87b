import Mathlib.Tactic

/-!
A 32-bit value carried by two 16-bit immediates.

The low immediate is added sign-extended, so when its top bit is set the
high immediate has to be one more than the upper half of the value.
`highHalf` is that carry-adjusted half; with it the two immediates
recombine to the value, and no other high half does so for the same low
immediate.
-/

namespace SplitWord

/-- The value two immediates form: the high one shifted up, plus the low
one sign-extended. -/
def combine (h l : BitVec 16) : BitVec 32 :=
  h.setWidth 32 <<< 16 + l.signExtend 32

/-- The low immediate of a value. -/
def lowHalf (x : BitVec 32) : BitVec 16 := x.setWidth 16

/-- The high immediate of a value, adjusted for the sign of the low one. -/
def highHalf (x : BitVec 32) : BitVec 16 := ((x + 0x8000#32) >>> 16).setWidth 16

theorem toNat_signExtend_half (l : BitVec 16) :
    (l.signExtend 32).toNat =
      if l.toNat < 2 ^ 15 then l.toNat else l.toNat + (2 ^ 32 - 2 ^ 16) := by
  rw [BitVec.toNat_signExtend, BitVec.msb_eq_decide, BitVec.toNat_setWidth]
  have hl := l.isLt
  by_cases h : l.toNat < 2 ^ 15
  · rw [if_pos h, Nat.mod_eq_of_lt (by omega)]
    simp only [decide_eq_true_eq]
    rw [if_neg (by omega), Nat.add_zero]
  · rw [if_neg h, Nat.mod_eq_of_lt (by omega)]
    simp only [decide_eq_true_eq]
    rw [if_pos (by omega)]

theorem toNat_combine (h l : BitVec 16) :
    (combine h l).toNat = (h.toNat * 2 ^ 16 +
      if l.toNat < 2 ^ 15 then l.toNat else l.toNat + (2 ^ 32 - 2 ^ 16)) % 2 ^ 32 := by
  have hh := h.isLt
  rw [combine, BitVec.toNat_add, toNat_signExtend_half, BitVec.toNat_shiftLeft,
    BitVec.toNat_setWidth, Nat.shiftLeft_eq, Nat.mod_eq_of_lt (a := h.toNat) (by omega),
    Nat.mod_eq_of_lt (a := h.toNat * 2 ^ 16) (by omega)]

theorem toNat_lowHalf (x : BitVec 32) : (lowHalf x).toNat = x.toNat % 2 ^ 16 :=
  BitVec.toNat_setWidth ..

theorem toNat_highHalf (x : BitVec 32) :
    (highHalf x).toNat = (x.toNat + 2 ^ 15) % 2 ^ 32 / 2 ^ 16 := by
  rw [highHalf, BitVec.toNat_setWidth, BitVec.toNat_ushiftRight, BitVec.toNat_add,
    Nat.shiftRight_eq_div_pow]
  have hx := x.isLt
  simp only [BitVec.toNat_ofNat]
  omega

/-- The halves of a value recombine to it, whatever the carry. -/
@[simp] theorem combine_halves (x : BitVec 32) :
    combine (highHalf x) (lowHalf x) = x := by
  apply BitVec.eq_of_toNat_eq
  rw [toNat_combine, toNat_lowHalf, toNat_highHalf]
  have hx := x.isLt
  split <;> omega

/-- Beside a fixed low immediate, the value determines the high one. -/
theorem combine_right_inj {h h' l : BitVec 16} (heq : combine h l = combine h' l) :
    h = h' := by
  apply BitVec.eq_of_toNat_eq
  have hnat := congrArg BitVec.toNat heq
  rw [toNat_combine, toNat_combine] at hnat
  have hh := h.isLt
  have hh' := h'.isLt
  split at hnat <;> omega

theorem combine_lowHalf_iff (h : BitVec 16) (x : BitVec 32) :
    combine h (lowHalf x) = x ↔ h = highHalf x := by
  constructor
  · intro heq
    exact combine_right_inj (l := lowHalf x) (heq.trans (combine_halves x).symm)
  · rintro rfl
    exact combine_halves x

theorem lowHalf_combine (h l : BitVec 16) : lowHalf (combine h l) = l := by
  apply BitVec.eq_of_toNat_eq
  have hl := l.isLt
  rw [toNat_lowHalf, toNat_combine]
  split <;> omega

theorem highHalf_combine (h l : BitVec 16) : highHalf (combine h l) = h := by
  have hsame : combine h (lowHalf (combine h l)) = combine h l := by rw [lowHalf_combine]
  exact ((combine_lowHalf_iff h _).mp hsame).symm

/-- Adding to the upper half alone adds to the high immediate. -/
theorem combine_add_high (h l d : BitVec 16) :
    combine h l + d.setWidth 32 <<< 16 = combine (h + d) l := by
  apply BitVec.eq_of_toNat_eq
  have hd := d.isLt
  have hshift : (d.setWidth 32 <<< 16).toNat = d.toNat * 2 ^ 16 := by
    rw [BitVec.toNat_shiftLeft, BitVec.toNat_setWidth, Nat.shiftLeft_eq]
    omega
  rw [BitVec.toNat_add, toNat_combine, toNat_combine, hshift, BitVec.toNat_add]
  split <;> omega

theorem getLsbD_highHalf (x : BitVec 32) {i : ℕ} (hi : i < 16) :
    (highHalf x).getLsbD i = (x + 0x8000#32).getLsbD (16 + i) := by
  rw [highHalf, BitVec.getLsbD_setWidth, decide_eq_true hi, Bool.true_and,
    BitVec.getLsbD_ushiftRight]

theorem and_sign_eq_zero_iff (x : BitVec 32) :
    x &&& 0xFFFF#32 &&& 0x8000#32 = 0#32 ↔ x.toNat % 2 ^ 16 < 2 ^ 15 := by
  have hmask : x &&& 0xFFFF#32 &&& 0x8000#32 = x &&& BitVec.twoPow 32 15 := by
    rw [BitVec.and_assoc]
    rfl
  rw [hmask, BitVec.and_twoPow, BitVec.getLsbD, Nat.testBit_eq_decide_div_mod_eq]
  have hx := x.isLt
  split
  · rename_i hbit
    simp only [decide_eq_true_eq] at hbit
    exact iff_of_false (by decide) (by omega)
  · rename_i hbit
    simp only [decide_eq_true_eq] at hbit
    exact iff_of_true rfl (by omega)

/-- The upper half plus one where the low half is negative, as relocating
code computes it. It is not reduced to sixteen bits. -/
def carriedHigh (x : BitVec 32) : BitVec 32 :=
  (x >>> 16) + (if (x &&& 0xFFFF#32) &&& 0x8000#32 ≠ 0#32 then 1#32 else 0#32)

theorem toNat_carriedHigh (x : BitVec 32) :
    (carriedHigh x).toNat = (x.toNat + 2 ^ 15) / 2 ^ 16 := by
  have hx := x.isLt
  have hshift : (x >>> 16).toNat = x.toNat / 2 ^ 16 := by
    rw [BitVec.toNat_ushiftRight, Nat.shiftRight_eq_div_pow]
  rw [carriedHigh, BitVec.toNat_add, hshift]
  by_cases hneg : x &&& 0xFFFF#32 &&& 0x8000#32 = 0#32
  · rw [if_neg (not_not.mpr hneg)]
    rw [and_sign_eq_zero_iff] at hneg
    simp only [BitVec.toNat_ofNat]
    omega
  · rw [if_pos hneg]
    rw [and_sign_eq_zero_iff] at hneg
    simp only [BitVec.toNat_ofNat]
    omega

/-- Its seventeenth bit is set when the carry leaves the word. -/
theorem getLsbD_carriedHigh_16 (x : BitVec 32) :
    (carriedHigh x).getLsbD 16 = decide (2 ^ 32 ≤ x.toNat + 2 ^ 15) := by
  rw [BitVec.getLsbD, toNat_carriedHigh, Nat.testBit_eq_decide_div_mod_eq, decide_eq_decide]
  have hx := x.isLt
  omega

theorem getLsbD_carriedHigh_of_lt (x : BitVec 32) {i : ℕ} (hi : 16 < i) :
    (carriedHigh x).getLsbD i = false := by
  have hx := x.isLt
  have hpow : 2 ^ 17 ≤ 2 ^ i := Nat.pow_le_pow_right (by decide) hi
  rw [BitVec.getLsbD, toNat_carriedHigh]
  exact Nat.testBit_lt_two_pow (by omega)

/-- Its low sixteen bits are the carry-adjusted half. -/
theorem carriedHigh_setWidth (x : BitVec 32) : (carriedHigh x).setWidth 16 = highHalf x := by
  apply BitVec.eq_of_toNat_eq
  rw [BitVec.toNat_setWidth, toNat_carriedHigh, toNat_highHalf]
  have hx := x.isLt
  omega

end SplitWord
