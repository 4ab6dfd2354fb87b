import Novl.Library.Decimal
import Novl.Opprintf

/-!
Sizes for people to read, `func.c`.

A size is divided by the largest unit it reaches, and printed with two
decimals where that is not the byte. The divisors are powers of two, so the
division of `double` values is exact, and `sprintf` rounds the exact
quotient.
-/

namespace Novl

open Decimal

/-- `struct FSpec`. -/
structure FSpec where
  maxval : ℤ
  divby : ℕ
  decplaces : ℕ
  suffix : Char

/-- `spec`, without its end mark. -/
def formatSpec : List FSpec :=
  [⟨1024, 1, 0, 'b'⟩, ⟨1024 * 1024, 1024, 2, 'k'⟩, ⟨-1, 1024 * 1024, 2, 'm'⟩]

/-- The loop over `spec`, from an entry on with those behind it. The last
one has to do; `maxval` is compared as an unsigned number. -/
def chooseSpec (val : Word) (f : FSpec) : List FSpec → FSpec
  | [] => f
  | g :: rest => if val < BitVec.ofInt 32 f.maxval then f else chooseSpec val g rest

/-- The entry for a size. -/
def specFor (val : Word) : FSpec :=
  match formatSpec with
  | [] => ⟨0, 0, 0, '\x00'⟩
  | f :: rest => chooseSpec val f rest

/-- `format_value`. -/
def formatValue (val : Word) : List Char :=
  let f := specFor val
  fixed f.decplaces (nearest (val.toNat * 10 ^ f.decplaces) f.divby) ++ [f.suffix]

example : formatValue 1536 = "1.50k".toList := by decide +kernel

theorem specFor_eq (val : Word) :
    specFor val =
      if val.toNat < 1024 then ⟨1024, 1, 0, 'b'⟩
      else if val.toNat < 1024 * 1024 then ⟨1024 * 1024, 1024, 2, 'k'⟩
      else ⟨-1, 1024 * 1024, 2, 'm'⟩ := by
  rfl

/-! ### What the text says -/

/-- The number of bytes a letter stands for. -/
def unitBytes : Char → ℕ
  | 'k' => 1024
  | 'm' => 1024 * 1024
  | _ => 1

/-- The number of bytes a printed size says. -/
def readSize (text : List Char) : ℚ := value text.dropLast * unitBytes (text.getLastD ' ')

/-- The printed size in hundredths of its unit, and in bytes. -/
def shownHundredths (n unit : ℕ) : ℕ := nearest (n * 100) unit

theorem readSize_formatValue (val : Word) :
    readSize (formatValue val) =
      if val.toNat < 1024 then (val.toNat : ℚ)
      else if val.toNat < 1024 * 1024 then (shownHundredths val.toNat 1024 : ℚ) * 1024 / 100
      else (shownHundredths val.toNat (1024 * 1024) : ℚ) * (1024 * 1024) / 100 := by
  have hread (places n : ℕ) (c : Char) :
      readSize (fixed places n ++ [c]) = n / 10 ^ places * unitBytes c := by
    rw [readSize, List.dropLast_concat, List.getLastD_concat, value_fixed]
  have hone (n : ℕ) : nearest n 1 = n := by simpa using nearest_mul (d := 1) (by decide) n
  rw [formatValue, specFor_eq]
  split_ifs with hbytes hkilo
  · rw [hread, pow_zero, Nat.mul_one, hone]
    simp [unitBytes]
  · rw [hread, shownHundredths]
    simp only [unitBytes]
    norm_num
    ring
  · rw [hread, shownHundredths]
    simp only [unitBytes]
    norm_num
    ring

theorem shown_error {n : ℕ} (unit : ℕ) (hunit : 0 < unit) (hle : unit ≤ n) :
    |(shownHundredths n unit : ℚ) * unit / 100 - n| ≤ n / 200 := by
  obtain ⟨hlo, hhi⟩ := nearest_bounds hunit (n * 100)
  have hlo' : (2 * (shownHundredths n unit * unit) : ℚ) ≤ 2 * (n * 100) + unit := by
    exact_mod_cast hlo
  have hhi' : (2 * (n * 100) : ℚ) ≤ 2 * (shownHundredths n unit * unit) + unit := by
    exact_mod_cast hhi
  have hle' : (unit : ℚ) ≤ n := by exact_mod_cast hle
  rw [abs_le]
  constructor <;> linarith

theorem shownHundredths_mono {m n : ℕ} (unit : ℕ) (h : m ≤ n) :
    shownHundredths m unit ≤ shownHundredths n unit :=
  nearest_mono (Nat.mul_le_mul_right 100 h)

theorem shownHundredths_mul {unit : ℕ} (hunit : 0 < unit) (k : ℕ) :
    shownHundredths (k * unit) unit = k * 100 := by
  rw [shownHundredths, Nat.mul_right_comm, nearest_mul hunit]

/-- Sizes are shown in the order of their values, also across the units. -/
theorem readSize_mono {v v' : Word} (h : v.toNat ≤ v'.toNat) :
    readSize (formatValue v) ≤ readSize (formatValue v') := by
  have hscale {a b c : ℚ} (hc : 0 ≤ c) (hab : a ≤ b) : a * c / 100 ≤ b * c / 100 :=
    div_le_div_of_nonneg_right (mul_le_mul_of_nonneg_right hab hc) (by norm_num)
  -- From its first size on, a unit shows at least one of itself.
  have hone {n : ℕ} (unit : ℕ) (hunit : 0 < unit) (hle : unit ≤ n) :
      (unit : ℚ) ≤ shownHundredths n unit * unit / 100 := by
    have hmono := shownHundredths_mono unit hle
    have hunits := shownHundredths_mul hunit 1
    rw [one_mul] at hunits
    rw [hunits, one_mul] at hmono
    have hcast : (100 : ℚ) ≤ shownHundredths n unit := by exact_mod_cast hmono
    calc (unit : ℚ) = 100 * unit / 100 := by ring
      _ ≤ shownHundredths n unit * unit / 100 := hscale (Nat.cast_nonneg _) hcast
  rw [readSize_formatValue, readSize_formatValue]
  split_ifs with hv hv' hv'' hk hk' hk''
  · exact_mod_cast h
  · have hstart := hone 1024 (by decide) (not_lt.mp hv')
    have hsmall : (v.toNat : ℚ) ≤ 1024 := by exact_mod_cast hv.le
    push_cast at hstart
    exact hsmall.trans hstart
  · have hstart := hone (1024 * 1024) (by decide) (not_lt.mp hv'')
    have hsmall : (v.toNat : ℚ) ≤ 1024 := by exact_mod_cast hv.le
    push_cast at hstart
    linarith
  · omega
  · exact hscale (by norm_num) (by exact_mod_cast shownHundredths_mono 1024 h)
  · have hstart := hone (1024 * 1024) (by decide) (not_lt.mp hk'')
    have hend := shownHundredths_mono 1024 hk.le
    rw [shownHundredths_mul (by decide)] at hend
    have hcast : (shownHundredths v.toNat 1024 : ℚ) ≤ 102400 := by exact_mod_cast hend
    push_cast at hstart
    linarith
  · omega
  · omega
  · exact hscale (by norm_num) (by exact_mod_cast shownHundredths_mono (1024 * 1024) h)

theorem length_formatValue_le (val : Word) : (formatValue val).length ≤ 14 := by
  have hlt := val.isLt
  have hshown {unit : ℕ} (hunit : 0 < unit) :
      nearest (val.toNat * 100) unit / 10 ^ 2 < 10 ^ 10 := by
    have hmono := shownHundredths_mono unit (Nat.le_mul_of_pos_right val.toNat hunit)
    rw [shownHundredths_mul hunit, shownHundredths] at hmono
    omega
  have hbytes : nearest (val.toNat * 1) 1 / 10 ^ 0 < 10 ^ 10 := by
    rw [nearest_mul (by decide)]
    omega
  rw [formatValue, specFor_eq, List.length_append, List.length_singleton]
  split_ifs
  · exact Nat.succ_le_succ ((length_fixed_le (by decide) hbytes).trans (by decide))
  · exact Nat.succ_le_succ (length_fixed_le (by decide) (hshown (by decide)))
  · exact Nat.succ_le_succ (length_fixed_le (by decide) (hshown (by decide)))

/-- A printed size is off by half a percent at most, small sizes are exact,
the order of two sizes can be seen, and the text fits in its buffer. -/
theorem formatValue_reads (v v' : Word) :
    |readSize (formatValue v) - v.toNat| ≤ v.toNat / 200 ∧
      (v.toNat < 1024 → readSize (formatValue v) = v.toNat) ∧
      (v.toNat ≤ v'.toNat → readSize (formatValue v) ≤ readSize (formatValue v')) ∧
      (formatValue v).length < 64 := by
  have hexact (h : v.toNat < 1024) : readSize (formatValue v) = v.toNat := by
    rw [readSize_formatValue, if_pos h]
  refine ⟨?_, hexact, readSize_mono, (length_formatValue_le v).trans_lt (by decide)⟩
  by_cases hbytes : v.toNat < 1024
  · rw [hexact hbytes, sub_self, abs_zero]
    positivity
  · rw [readSize_formatValue, if_neg hbytes]
    split_ifs with hkilo
    · exact_mod_cast shown_error 1024 (by decide) (not_lt.mp hbytes)
    · exact_mod_cast shown_error (1024 * 1024) (by decide) (not_lt.mp hkilo)

end Novl
