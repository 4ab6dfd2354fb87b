import Mathlib.Data.List.TakeWhile
import Mathlib.Tactic

/-!
Numbers printed with a fixed number of decimals.

A quotient is rounded to the nearest multiple of a power of a tenth, in the
middle to the one whose last digit is even. Rounding keeps the order, is
off by half a unit at most, and the text can be read back as the number it
has been rounded to.
-/

namespace Decimal

/-- The integer nearest to `n / d`, and the even one in the middle. -/
def nearest (n d : ℕ) : ℕ :=
  if 2 * (n % d) < d ∨ 2 * (n % d) = d ∧ n / d % 2 = 0 then n / d else n / d + 1

section Nearest

variable {m n d : ℕ}

theorem nearest_bounds (hd : 0 < d) (n : ℕ) :
    2 * (nearest n d * d) ≤ 2 * n + d ∧ 2 * n ≤ 2 * (nearest n d * d) + d := by
  have hdiv := Nat.div_add_mod' n d
  have hlt := Nat.mod_lt n hd
  rw [nearest]
  split_ifs with hdown
  · omega
  · rw [Nat.add_mul, Nat.one_mul]
    omega

theorem nearest_mul (hd : 0 < d) (k : ℕ) : nearest (k * d) d = k := by
  rw [nearest, Nat.mul_mod_left, Nat.mul_div_cancel _ hd, if_pos (Or.inl (by omega))]

theorem nearest_mono (h : m ≤ n) : nearest m d ≤ nearest n d := by
  have hdivLe : m / d ≤ n / d := Nat.div_le_div_right h
  rcases hdivLe.lt_or_eq with hlt | heq
  · rw [nearest, nearest]
    split_ifs <;> omega
  · -- In one interval the remainders are in the order of the numbers.
    have hm := Nat.div_add_mod' m d
    have hn := Nat.div_add_mod' n d
    have hmod : m % d ≤ n % d := by
      rw [heq] at hm
      omega
    rw [nearest, nearest, heq]
    split_ifs <;> omega

end Nearest

/-! ### Texts -/

/-- The last decimal digits of a number. -/
def lastDigits : ℕ → ℕ → List Char
  | 0, _ => []
  | n + 1, v => Nat.digitChar (v / 10 ^ n % 10) :: lastDigits n v

/-- A number of units of `10 ^ (-places)`. -/
def fixed (places v : ℕ) : List Char :=
  Nat.toDigits 10 (v / 10 ^ places) ++ if places = 0 then [] else '.' :: lastDigits places v

/-- What a text with a point, or without, stands for. -/
def value (text : List Char) : ℚ :=
  let frac := (text.dropWhile (· != '.')).tail
  Nat.ofDigitChars 10 (text.takeWhile (· != '.')) 0 + Nat.ofDigitChars 10 frac 0 / 10 ^ frac.length

@[simp] theorem length_lastDigits (n v : ℕ) : (lastDigits n v).length = n := by
  induction n with
  | zero => rfl
  | succ n ih => rw [lastDigits, List.length_cons, ih]

theorem ofDigitChars_lastDigits (n v : ℕ) :
    Nat.ofDigitChars 10 (lastDigits n v) 0 = v % 10 ^ n := by
  induction n with
  | zero => simp [lastDigits, Nat.mod_one]
  | succ n ih =>
      rw [lastDigits, Nat.ofDigitChars_cons_digitChar_of_lt_ten (Nat.mod_lt _ (by decide)),
        Nat.ofDigitChars_eq_ofDigitChars_zero, ih, length_lastDigits, Nat.mod_pow_succ]
      ring

theorem point_notMem_toDigits (n : ℕ) : ∀ c ∈ Nat.toDigits 10 n, (c != '.') = true := by
  intro c hc
  have hdigit := Nat.isDigit_of_mem_toDigits (by decide) (by decide) hc
  exact bne_iff_ne.mpr fun heq => absurd (heq ▸ hdigit) (by decide)

/-- The text says the number it was printed from. -/
theorem value_fixed (places v : ℕ) : value (fixed places v) = v / 10 ^ places := by
  have hwhole := point_notMem_toDigits (v / 10 ^ places)
  rw [value, fixed]
  by_cases hplaces : places = 0
  · subst hplaces
    simp only [if_true, List.append_nil, pow_zero, Nat.div_one, div_one] at hwhole ⊢
    rw [List.takeWhile_eq_self_iff.mpr hwhole, List.dropWhile_eq_nil_iff.mpr hwhole,
      Nat.ofDigitChars_ten_toDigits]
    simp
  · rw [if_neg hplaces, List.takeWhile_append_of_pos hwhole, List.dropWhile_append_of_pos hwhole]
    simp only [List.takeWhile_cons, List.dropWhile_cons, bne_self_eq_false, Bool.false_eq_true,
      if_false, List.append_nil, List.tail_cons, Nat.ofDigitChars_ten_toDigits,
      ofDigitChars_lastDigits, length_lastDigits]
    have hpos : (10 ^ places : ℚ) ≠ 0 := by positivity
    have hsplit : ((v / 10 ^ places * 10 ^ places + v % 10 ^ places : ℕ) : ℚ) = v := by
      rw [Nat.div_add_mod']
    push_cast at hsplit
    rw [← hsplit]
    field_simp

/-- The length of a text for a small number. -/
theorem length_fixed_le {places v k : ℕ} (hk : 0 < k) (h : v / 10 ^ places < 10 ^ k) :
    (fixed places v).length ≤ k + places + 1 := by
  have hwhole := (Nat.length_toDigits_le_iff (by decide : 1 < 10) hk).mpr h
  rw [fixed, List.length_append]
  split_ifs
  · rw [List.length_nil]
    omega
  · rw [List.length_cons, length_lastDigits]
    omega

end Decimal
