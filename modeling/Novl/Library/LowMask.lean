import Mathlib.Tactic

/-!
Masks of low bits, and single bits.

A mask of `n` low ones, taken as a conjunct, leaves the remainder modulo
`2 ^ n`; its complement rounds down to a multiple of `2 ^ n`. Code writes
these masks as literals, which are equal to `(allOnes n).setWidth w` by
computation. Adding a single bit flips that bit, whatever happens to the
ones above.
-/

namespace LowMask

variable {w n : ℕ}

theorem getLsbD_mask (hn : n ≤ w) (i : ℕ) :
    ((BitVec.allOnes n).setWidth w).getLsbD i = decide (i < n) := by
  rw [BitVec.getLsbD_setWidth, BitVec.getLsbD_allOnes]
  by_cases hi : i < n
  · simp [hi, show i < w by omega]
  · simp [hi]

theorem toNat_and_mask (hn : n ≤ w) (x : BitVec w) :
    (x &&& (BitVec.allOnes n).setWidth w).toNat = x.toNat % 2 ^ n := by
  have hpow : 2 ^ n ≤ 2 ^ w := Nat.pow_le_pow_right (by decide) hn
  have hpos : 0 < 2 ^ n := Nat.two_pow_pos n
  rw [BitVec.toNat_and, BitVec.toNat_setWidth, BitVec.toNat_allOnes,
    Nat.mod_eq_of_lt (by omega), Nat.and_two_pow_sub_one_eq_mod]

theorem toNat_and_not_mask (hn : n ≤ w) (x : BitVec w) :
    (x &&& ~~~(BitVec.allOnes n).setWidth w).toNat = x.toNat / 2 ^ n * 2 ^ n := by
  have hshift : x &&& ~~~(BitVec.allOnes n).setWidth w = x >>> n <<< n := by
    apply BitVec.eq_of_getLsbD_eq
    intro i hi
    rw [BitVec.getLsbD_and, BitVec.getLsbD_not, getLsbD_mask hn, BitVec.getLsbD_shiftLeft,
      BitVec.getLsbD_ushiftRight]
    by_cases hlow : i < n
    · simp [hlow]
    · simp [hlow, hi, show n + (i - n) = i by omega]
  have hle : x.toNat / 2 ^ n * 2 ^ n ≤ x.toNat := Nat.div_mul_le_self _ _
  rw [hshift, BitVec.toNat_shiftLeft, BitVec.toNat_ushiftRight, Nat.shiftRight_eq_div_pow,
    Nat.shiftLeft_eq, Nat.mod_eq_of_lt (lt_of_le_of_lt hle x.isLt)]

theorem getLsbD_add_twoPow (x : BitVec w) (hn : n < w) :
    (x + BitVec.twoPow w n).getLsbD n = !x.getLsbD n := by
  have hcarry : BitVec.carry n x (BitVec.twoPow w n) false = false := by
    have hlt : x.toNat % 2 ^ n < 2 ^ n := Nat.mod_lt _ (Nat.two_pow_pos n)
    rw [BitVec.carry, BitVec.toNat_twoPow,
      Nat.mod_eq_of_lt (Nat.pow_lt_pow_right (by decide) hn), Nat.mod_self]
    simpa using hlt
  rw [BitVec.getLsbD_add hn, hcarry, BitVec.getLsbD_twoPow]
  simp [hn]

/-- A field taken out by a shift and a mask is the bits the mask covers
where the field stands. -/
theorem ushiftRight_and_eq_iff {m : BitVec w} {k : ℕ} (hm : m <<< k >>> k = m) {x y : BitVec w} :
    x >>> k &&& m = y >>> k &&& m ↔ x &&& m <<< k = y &&& m <<< k := by
  have hback (z : BitVec w) : (z >>> k &&& m) <<< k = z &&& m <<< k := by
    apply BitVec.eq_of_getLsbD_eq
    intro i hi
    simp only [BitVec.getLsbD_and, BitVec.getLsbD_shiftLeft, BitVec.getLsbD_ushiftRight]
    by_cases hlow : i < k
    · simp [hlow]
    · simp [hlow, hi, show k + (i - k) = i by omega]
  constructor
  · intro heq
    rw [← hback, ← hback, heq]
  · intro heq
    have hshift := congrArg (fun z : BitVec w => z >>> k) heq
    simpa only [BitVec.ushiftRight_and_distrib, hm] using hshift

end LowMask
