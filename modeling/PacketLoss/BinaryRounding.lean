import Mathlib.Algebra.Order.Floor.Ring
import Mathlib.Algebra.Order.Field.Power
import Mathlib.Data.Int.Log
import Mathlib.Data.Rat.Floor
import Mathlib.Tactic.Linarith
import Mathlib.Tactic.Positivity

/-!
Arithmetic in a binary floating-point format. A result is rounded to the nearest number
of the format, and of two that are equally near to the even one. It is off by a small part
of its size, and it is not rounded past a number of the format.

The largest numbers are left out: nothing overflows.
-/
namespace PacketLoss.BinaryRounding

/-- The binary digits that a number has at most, and the exponent of the finest digit. -/
structure Format where
  digits : ℕ
  minExponent : ℤ

def float64 : Format := ⟨53, -1074⟩

variable {K : Type*} [Field K] [LinearOrder K] [IsStrictOrderedRing K] [FloorRing K]

/-- The nearest integer, and the even one in the middle between two. -/
def nearestEven (x : K) : ℤ :=
  if Int.fract x < 1 / 2 ∨ Int.fract x = 1 / 2 ∧ ⌊x⌋ % 2 = 0 then ⌊x⌋ else ⌊x⌋ + 1

theorem abs_nearestEven_sub_le (x : K) : |(nearestEven x : K) - x| ≤ 1 / 2 := by
  have hfract := Int.self_sub_floor x
  have hnonneg := Int.fract_nonneg x
  have hlt := Int.fract_lt_one x
  unfold nearestEven
  rw [abs_le]
  split_ifs with hdown
  · have hle : Int.fract x ≤ 1 / 2 := hdown.elim le_of_lt fun h => h.1.le
    constructor <;> linarith
  · have hge : 1 / 2 ≤ Int.fract x := not_lt.mp fun h => hdown (Or.inl h)
    push_cast
    constructor <;> linarith

theorem nearestEven_intCast (n : ℤ) : nearestEven (n : K) = n := by
  simp [nearestEven]

omit [IsStrictOrderedRing K] in
theorem nearestEven_nonneg {x : K} (hx : 0 ≤ x) : 0 ≤ nearestEven x := by
  have hfloor := Int.floor_nonneg.mpr hx
  unfold nearestEven
  split_ifs <;> omega

theorem nearestEven_le {x : K} {n : ℤ} (hx : x ≤ n) : nearestEven x ≤ n := by
  rcases hx.lt_or_eq with hlt | rfl
  · have hfloor := Int.floor_lt.mpr hlt
    unfold nearestEven
    split_ifs <;> omega
  · exact (nearestEven_intCast n).le

namespace Format

variable (F : Format)

/-- The exponent of the last digit that a number of the size of `x` has. -/
def exponent (x : K) : ℤ := max (Int.log 2 |x| + 1 - F.digits) F.minExponent

/-- The nearest number of the format. -/
def round (x : K) : K := nearestEven (x / 2 ^ F.exponent x) * 2 ^ F.exponent x

theorem two_zpow_pos (n : ℤ) : (0 : K) < 2 ^ n := zpow_pos zero_lt_two n

theorem round_zero : F.round (0 : K) = 0 := by
  have hzero : nearestEven (0 : K) = 0 := by simpa using nearestEven_intCast (K := K) 0
  rw [round, zero_div, hzero, Int.cast_zero, zero_mul]

theorem abs_round_sub_le_half (x : K) : |F.round x - x| ≤ 2 ^ F.exponent x / 2 := by
  have hpos : (0 : K) < 2 ^ F.exponent x := two_zpow_pos _
  have hscale : F.round x - x =
      ((nearestEven (x / 2 ^ F.exponent x) : K) - x / 2 ^ F.exponent x) * 2 ^ F.exponent x := by
    rw [sub_mul, div_mul_cancel₀ _ hpos.ne', round]
  have hhalf := mul_le_mul_of_nonneg_right (abs_nearestEven_sub_le (x / 2 ^ F.exponent x)) hpos.le
  rw [hscale, abs_mul, abs_of_pos hpos]
  linarith

/-- A last digit is small against the number, unless it is the finest of all. -/
theorem two_zpow_exponent_le {x : K} (hx : x ≠ 0) :
    (2 : K) ^ F.exponent x ≤ 2 * |x| / 2 ^ F.digits + 2 ^ F.minExponent := by
  have hlog : (2 : K) ^ Int.log 2 |x| ≤ |x| := by
    exact_mod_cast Int.zpow_log_le_self (b := 2) one_lt_two (abs_pos.mpr hx)
  have hnormal : (2 : K) ^ (Int.log 2 |x| + 1 - F.digits) ≤ 2 * |x| / 2 ^ F.digits := by
    rw [zpow_sub₀ two_ne_zero, zpow_add_one₀ two_ne_zero, zpow_natCast, mul_comm]
    gcongr
  have hmin : (0 : K) < 2 ^ F.minExponent := two_zpow_pos _
  have hsize : (0 : K) ≤ 2 * |x| / 2 ^ F.digits := by positivity
  rcases max_cases (Int.log 2 |x| + 1 - F.digits) F.minExponent with ⟨hmax, -⟩ | ⟨hmax, -⟩
  · rw [exponent, hmax]
    linarith
  · rw [exponent, hmax]
    linarith

/-- A result is off by a small part of its size, or of the finest digit. -/
theorem abs_round_sub_le (x : K) :
    |F.round x - x| ≤ |x| / 2 ^ F.digits + 2 ^ F.minExponent := by
  have hmin : (0 : K) < 2 ^ F.minExponent := two_zpow_pos _
  by_cases hx : x = 0
  · rw [hx, round_zero, sub_zero, abs_zero, zero_div, zero_add]
    exact hmin.le
  · have hhalf := F.abs_round_sub_le_half x
    have hdigit := F.two_zpow_exponent_le hx
    have hsplit : 2 * |x| / 2 ^ F.digits = |x| / 2 ^ F.digits + |x| / 2 ^ F.digits := by
      rw [two_mul, add_div]
    linarith

theorem round_nonneg {x : K} (hx : 0 ≤ x) : 0 ≤ F.round x := by
  have hpos : (0 : K) < 2 ^ F.exponent x := two_zpow_pos _
  have hint : (0 : ℤ) ≤ nearestEven (x / 2 ^ F.exponent x) :=
    nearestEven_nonneg (div_nonneg hx hpos.le)
  exact mul_nonneg (Int.cast_nonneg hint) hpos.le

/-- An integer of few digits is a multiple of the last digit of a smaller number. -/
theorem exists_eq_mul {x : K} {n : ℕ} (hn : n < 2 ^ F.digits) (hmin : F.minExponent ≤ 0)
    (hx : x ≠ 0) (hle : |x| ≤ n) : ∃ m : ℤ, (n : K) = m * 2 ^ F.exponent x := by
  have hlog : Int.log 2 |x| < F.digits := by
    rw [← Int.lt_zpow_iff_log_lt one_lt_two (abs_pos.mpr hx), zpow_natCast]
    exact lt_of_le_of_lt hle (by exact_mod_cast hn)
  have hexponent : F.exponent x ≤ 0 := max_le (by omega) hmin
  obtain ⟨k, hk⟩ := Int.exists_eq_neg_ofNat hexponent
  refine ⟨n * 2 ^ k, ?_⟩
  rw [hk, Int.cast_mul, Int.cast_pow, Int.cast_natCast, Int.cast_ofNat, zpow_neg, zpow_natCast,
    mul_assoc, mul_inv_cancel₀ (pow_ne_zero k two_ne_zero), mul_one]

/-- A number is not rounded past such an integer. -/
theorem round_le {x : K} {n : ℕ} (hn : n < 2 ^ F.digits) (hmin : F.minExponent ≤ 0)
    (hle : |x| ≤ n) : F.round x ≤ n := by
  by_cases hx : x = 0
  · rw [hx, round_zero]
    exact Nat.cast_nonneg n
  · have hpos : (0 : K) < 2 ^ F.exponent x := two_zpow_pos _
    obtain ⟨m, hm⟩ := F.exists_eq_mul hn hmin hx hle
    have hdigits : x / 2 ^ F.exponent x ≤ m := by
      rw [div_le_iff₀ hpos, ← hm]
      exact (le_abs_self x).trans hle
    rw [round, hm]
    exact mul_le_mul_of_nonneg_right (Int.cast_le.mpr (nearestEven_le hdigits)) hpos.le

end Format

end PacketLoss.BinaryRounding
