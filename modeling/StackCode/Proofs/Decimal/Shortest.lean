import Mathlib.Algebra.Order.Field.Power
import Mathlib.Tactic.Linarith
import Mathlib.Tactic.Positivity
import Mathlib.Tactic.Qify
import StackCode.Decimal.OfBinary
import StackCode.Proofs.Decimal.Reading

/-!
# The shortest decimal reads back

The numbers that read back as one double form an interval. The intervals of different doubles
do not meet, and the decimal that `shortest` chooses lies in the interval of its double: on each
grid it is looked for there, and the last grid is so fine that the nearest decimal is inside.
-/
namespace StackCode.Decimal

/-! ## Ratios as rationals -/

namespace Ratio

def toRat (r : Ratio) : ℚ := r.num / r.den

theorem den_scaled_pos (m : Nat) (e : Int) : 0 < (scaled m e).den := by
  unfold scaled
  split
  · exact Nat.one_pos
  · exact Nat.pow_pos Nat.two_pos

theorem toRat_scaled (m : Nat) (e : Int) : (scaled m e).toRat = m * 2 ^ e := by
  unfold scaled toRat
  split
  next h =>
    obtain ⟨n, rfl⟩ := Int.eq_ofNat_of_zero_le h
    simp
  next h =>
    obtain ⟨n, hn⟩ := Int.eq_ofNat_of_zero_le (by omega : 0 ≤ -e)
    obtain rfl : e = -(n : Int) := by omega
    simp [div_eq_mul_inv]

variable {r : Ratio} (hr : 0 < r.den)
include hr

theorem den_shift_pos (k : Int) : 0 < (r.shift k).den := by
  unfold shift
  split
  · exact Nat.mul_pos hr (Nat.pow_pos (by decide))
  · exact hr

omit hr in
theorem toRat_shift (k : Int) : (r.shift k).toRat = r.toRat / 10 ^ k := by
  unfold shift toRat
  split
  next h =>
    obtain ⟨n, rfl⟩ := Int.eq_ofNat_of_zero_le h
    simp [div_div]
  next h =>
    obtain ⟨n, hn⟩ := Int.eq_ofNat_of_zero_le (by omega : 0 ≤ -k)
    obtain rfl : k = -(n : Int) := by omega
    simp [div_eq_mul_inv, mul_right_comm]

theorem le_toRat_iff (c : Nat) : (c : ℚ) ≤ r.toRat ↔ c * r.den ≤ r.num := by
  rw [toRat, le_div_iff₀ (Nat.cast_pos.mpr hr)]
  exact_mod_cast Iff.rfl

theorem lt_toRat_iff (c : Nat) : (c : ℚ) < r.toRat ↔ c * r.den < r.num := by
  rw [toRat, lt_div_iff₀ (Nat.cast_pos.mpr hr)]
  exact_mod_cast Iff.rfl

theorem toRat_le_iff (c : Nat) : r.toRat ≤ c ↔ r.num ≤ c * r.den := by
  rw [toRat, div_le_iff₀ (Nat.cast_pos.mpr hr)]
  exact_mod_cast Iff.rfl

theorem toRat_lt_iff (c : Nat) : r.toRat < c ↔ r.num < c * r.den := by
  rw [toRat, div_lt_iff₀ (Nat.cast_pos.mpr hr)]
  exact_mod_cast Iff.rfl

theorem abs_roundDiv_sub_le : |(Binary64.roundDiv r.num r.den : ℚ) - r.toRat| ≤ 1 / 2 := by
  have hbounds : 2 * (Binary64.roundDiv r.num r.den * r.den) ≤ 2 * r.num + r.den ∧
      2 * r.num ≤ 2 * (Binary64.roundDiv r.num r.den * r.den) + r.den := by
    have hdiv := Nat.div_add_mod' r.num r.den
    have hmod := Nat.mod_lt r.num hr
    unfold Binary64.roundDiv
    simp only
    split
    · rw [Nat.add_mul]
      omega
    · omega
  obtain ⟨hle, hge⟩ := hbounds
  qify at hle hge
  have hden : (0 : ℚ) < r.den := Nat.cast_pos.mpr hr
  have hnum : (r.num : ℚ) = r.toRat * r.den := (div_mul_cancel₀ _ hden.ne').symm
  rw [hnum] at hle hge
  rw [abs_le]
  constructor <;> nlinarith

end Ratio

namespace Interval

/-- Does the interval hold `x`? -/
def Holds (i : Interval) (x : ℚ) : Prop :=
  if i.closed then i.low.toRat ≤ x ∧ x ≤ i.high.toRat else i.low.toRat < x ∧ x < i.high.toRat

theorem contains_iff {i : Interval} (hlow : 0 < i.low.den) (hhigh : 0 < i.high.den) (c : Nat)
    (k : Int) : i.contains c k = true ↔ i.Holds (c * 10 ^ k) := by
  have hten : (0 : ℚ) < 10 ^ k := by positivity
  have hlo := Ratio.den_shift_pos hlow k
  have hhi := Ratio.den_shift_pos hhigh k
  unfold contains Holds
  rw [← div_le_iff₀ hten, ← le_div_iff₀ hten, ← div_lt_iff₀ hten, ← lt_div_iff₀ hten,
    ← Ratio.toRat_shift, ← Ratio.toRat_shift, Ratio.toRat_le_iff hlo, Ratio.le_toRat_iff hhi,
    Ratio.toRat_lt_iff hlo, Ratio.lt_toRat_iff hhi]
  split <;> simp

end Interval

/-! ## Grids -/

section
variable {v : Ratio} {i : Interval} (hlow : 0 < i.low.den) (hhigh : 0 < i.high.den)
include hlow hhigh

theorem holds_onGrid {k : Int} {c : Nat} (h : onGrid v i k = some c) : i.Holds (c * 10 ^ k) := by
  simp only [onGrid] at h
  generalize (if _ = (v.shift k).floor then _ else _) = other at h
  rw [← Interval.contains_iff hlow hhigh]
  split at h
  next hc => exact Option.some.inj h ▸ hc
  next =>
    split at h
    next hc => exact Option.some.inj h ▸ hc
    next => cases h

/-- If the interval holds the nearest decimal of the last grid, it holds whatever is found. -/
theorem exists_searchGrids {lead : Int} {tries digits : Nat}
    (hlast : ∀ k, k = lead - ((digits + tries : Nat) : Int) + 1 →
      i.Holds (Binary64.roundDiv (v.shift k).num (v.shift k).den * 10 ^ k)) :
    ∃ c k, searchGrids v i lead tries digits = ofScaled c k ∧ i.Holds (c * 10 ^ k) := by
  induction tries generalizing digits with
  | zero => exact ⟨_, _, rfl, hlast _ rfl⟩
  | succ tries ih =>
      rw [searchGrids]
      split
      next c hc => exact ⟨c, _, rfl, holds_onGrid hlow hhigh hc⟩
      next =>
        refine ih fun k hk => hlast k ?_
        omega

end

/-! ## The exponent of the first digit -/

/-- The guess for a number from one on is too large by one at the most. -/
theorem pow_ten_le_pow_two : ∀ n < 1024, 10 ^ (n * 30103 / 100000) ≤ 10 * 2 ^ n := by
  decide +kernel

/-- The guess for a number below one is too small by one at the most. -/
theorem pow_two_le_pow_ten :
    ∀ n < 1075, 2 ^ n ≤ 10 ^ ((n * 30103 + 99999) / 100000 + 1) := by
  decide +kernel

theorem pow_guess_le {l : Int} (hleast : -1074 ≤ l) (hmost : l ≤ 1023) :
    (10 : ℚ) ^ (Int.fdiv (l * 30103) 100000 - 1) ≤ 2 ^ l := by
  have hten : (10 : ℚ) ≠ 0 := by norm_num
  rw [Int.fdiv_eq_ediv_of_nonneg _ (by decide)]
  rcases Int.le_total 0 l with h | h
  · obtain ⟨n, rfl⟩ := Int.eq_ofNat_of_zero_le h
    have hpow := pow_ten_le_pow_two n (by omega)
    have hguess : (n : Int) * 30103 / 100000 = ((n * 30103 / 100000 : Nat) : Int) := by omega
    qify at hpow
    rw [hguess, zpow_sub_one₀ hten, zpow_natCast, zpow_natCast, ← div_eq_mul_inv,
      div_le_iff₀ (by norm_num), mul_comm _ (10 : ℚ)]
    exact hpow
  · obtain ⟨n, hn⟩ := Int.eq_ofNat_of_zero_le (by omega : 0 ≤ -l)
    obtain rfl : l = -(n : Int) := by omega
    have hpow := pow_two_le_pow_ten n (by omega)
    have hguess : -(n : Int) * 30103 / 100000 - 1 =
        -(((n * 30103 + 99999) / 100000 + 1 : Nat) : Int) := by omega
    qify at hpow
    rw [hguess, zpow_neg, zpow_neg, zpow_natCast, zpow_natCast]
    exact inv_anti₀ (by positivity) hpow

theorem pow_leadingExponent_le {v : Ratio} (hv : 0 < v.den) {l : Int} (hleast : -1074 ≤ l)
    (hmost : l ≤ 1023) (hl : 2 ^ l ≤ v.toRat) : 10 ^ leadingExponent v l ≤ v.toRat := by
  have htest : ∀ k, (v.shift k).geNat 1 = true → 10 ^ k ≤ v.toRat := by
    intro k hk
    have hten : (0 : ℚ) < 10 ^ k := by positivity
    rw [Ratio.geNat, decide_eq_true_eq, ← Ratio.le_toRat_iff (Ratio.den_shift_pos hv k),
      Ratio.toRat_shift, le_div_iff₀ hten, Nat.cast_one, one_mul] at hk
    exact hk
  simp only [leadingExponent]
  split
  next h => exact htest _ h
  next =>
    split
    next h => exact htest _ h
    next => exact (pow_guess_le hleast hmost).trans hl

/-! ## Intervals of doubles -/

/-- The significands and exponents of positive doubles, each of which has one of each. -/
structure Canonical (m : Nat) (e : Int) : Prop where
  pos : 0 < m
  lt : m < 2 ^ 53
  least : -1074 ≤ e
  greatest : e ≤ 971
  normal : -1074 < e → 2 ^ 52 ≤ m

namespace Interval

/-- How many quarters of the last place belong to a double from below. -/
def reach (m : Nat) (e : Int) : Nat :=
  if m = Binary64.implicitBit ∧ Binary64.minExp < e then 1 else 2

theorem low_around (m : Nat) (e : Int) :
    (around m e).low.toRat = (4 * m - reach m e : Nat) * 2 ^ (e - 2) :=
  Ratio.toRat_scaled _ _

theorem high_around (m : Nat) (e : Int) :
    (around m e).high.toRat = (4 * m + 2 : Nat) * 2 ^ (e - 2) :=
  Ratio.toRat_scaled _ _

theorem four_quarters (e : Int) : (2 : ℚ) ^ e = 4 * 2 ^ (e - 2) := by
  calc (2 : ℚ) ^ e = 2 ^ (2 + (e - 2)) := by rw [add_sub_cancel]
    _ = 2 ^ (2 : Int) * 2 ^ (e - 2) := zpow_add₀ two_ne_zero 2 (e - 2)
    _ = 4 * 2 ^ (e - 2) := by norm_num

theorem holds_of_lt {i : Interval} {x : ℚ} (hlow : i.low.toRat < x) (hhigh : x < i.high.toRat) :
    i.Holds x := by
  unfold Holds
  split
  · exact ⟨hlow.le, hhigh.le⟩
  · exact ⟨hlow, hhigh⟩

theorem one_le_reach_le_two (m : Nat) (e : Int) : 1 ≤ reach m e ∧ reach m e ≤ 2 := by
  unfold reach
  split <;> decide

/-- What is near enough to a double reads back as it. -/
theorem holds_around {m : Nat} {e : Int} (h : Canonical m e) {x : ℚ}
    (hx : 2 * 10 ^ 16 * |x - m * 2 ^ e| ≤ m * 2 ^ e) : (around m e).Holds x := by
  have hlt := h.lt
  have hpos := h.pos
  have hunit : (0 : ℚ) < 2 ^ (e - 2) := by positivity
  obtain ⟨-, htwo⟩ := one_le_reach_le_two m e
  have hsmall : 4 * m < 2 * 10 ^ 16 * reach m e := by
    unfold reach
    split
    next hm =>
      rw [hm.1]
      decide
    next => omega
  have hsub : ((4 * m - reach m e : Nat) : ℚ) = 4 * m - reach m e := by
    rw [Nat.cast_sub (by omega), Nat.cast_mul]
    rfl
  have hnear : |x - m * 2 ^ e| < reach m e * 2 ^ (e - 2) := by
    qify at hsmall
    rw [four_quarters] at hx ⊢
    nlinarith
  rw [four_quarters] at hnear
  qify at htwo
  obtain ⟨hbelow, habove⟩ := abs_lt.mp hnear
  apply holds_of_lt
  · rw [low_around, hsub]
    linarith
  · rw [high_around]
    push_cast
    nlinarith

section
variable {m₁ m₂ : Nat} {e₁ e₂ : Int} (h₁ : Canonical m₁ e₁) (h₂ : Canonical m₂ e₂)
  (hbefore : e₁ < e₂ ∨ e₁ = e₂ ∧ m₁ < m₂)
include h₁ h₂ hbefore

/-- The interval of a double ends where that of a later one starts, or before. It ends before
if both intervals are closed. -/
theorem high_around_le :
    (around m₁ e₁).high.toRat ≤ (around m₂ e₂).low.toRat ∧
      (m₁ % 2 = 0 → m₂ % 2 = 0 → (around m₁ e₁).high.toRat < (around m₂ e₂).low.toRat) := by
  have hunit : (0 : ℚ) < 2 ^ (e₁ - 2) := by positivity
  obtain ⟨hone, htwo⟩ := one_le_reach_le_two m₂ e₂
  rw [high_around, low_around]
  rcases hbefore with hlt | ⟨rfl, hlt⟩
  · -- A larger exponent means at least twice the unit, and a significand with its leading bit.
    have hm₁ := h₁.lt
    have hm₂ := h₂.normal (by have := h₁.least; omega)
    have hreach : m₂ = 2 ^ 52 → reach m₂ e₂ = 1 := by
      intro hm
      exact if_pos ⟨hm, lt_of_le_of_lt h₁.least hlt⟩
    have hdouble : (2 : ℚ) * 2 ^ (e₁ - 2) ≤ 2 ^ (e₂ - 2) := by
      rw [← zpow_one_add₀ two_ne_zero]
      exact zpow_le_zpow_right₀ one_le_two (by omega)
    have hscale : ((2 * (4 * m₂ - reach m₂ e₂) : Nat) : ℚ) * 2 ^ (e₁ - 2) ≤
        (4 * m₂ - reach m₂ e₂ : Nat) * 2 ^ (e₂ - 2) := by
      rw [Nat.cast_mul, mul_comm ((2 : Nat) : ℚ), mul_assoc]
      exact mul_le_mul_of_nonneg_left hdouble (Nat.cast_nonneg _)
    refine ⟨le_trans ?_ hscale, fun heven _ => lt_of_lt_of_le ?_ hscale⟩
    · exact mul_le_mul_of_nonneg_right (Nat.cast_le.mpr (by omega)) hunit.le
    · exact mul_lt_mul_of_pos_right (Nat.cast_lt.mpr (by omega)) hunit
  · refine ⟨?_, fun heven₁ heven₂ => ?_⟩
    · exact mul_le_mul_of_nonneg_right (Nat.cast_le.mpr (by omega)) hunit.le
    · exact mul_lt_mul_of_pos_right (Nat.cast_lt.mpr (by omega)) hunit

theorem lt_of_holds_around {x y : ℚ} (hx : (around m₁ e₁).Holds x)
    (hy : (around m₂ e₂).Holds y) : x < y := by
  obtain ⟨hle, hlt⟩ := high_around_le h₁ h₂ hbefore
  unfold Holds at hx hy
  split at hx
  next hc₁ =>
    split at hy
    next hc₂ =>
      exact lt_of_le_of_lt hx.2 (lt_of_lt_of_le (hlt (of_decide_eq_true hc₁)
        (of_decide_eq_true hc₂)) hy.1)
    next => exact lt_of_le_of_lt (hx.2.trans hle) hy.1
  next =>
    split at hy
    next => exact lt_of_lt_of_le hx.2 (hle.trans hy.1)
    next => exact lt_trans hx.2 (lt_of_le_of_lt hle hy.1)

end

/-- No number reads back as two doubles. -/
theorem eq_of_holds_around {m₁ m₂ : Nat} {e₁ e₂ : Int} (h₁ : Canonical m₁ e₁)
    (h₂ : Canonical m₂ e₂) {x : ℚ} (hx₁ : (around m₁ e₁).Holds x)
    (hx₂ : (around m₂ e₂).Holds x) : m₁ = m₂ ∧ e₁ = e₂ := by
  by_contra hne
  have hcases : (e₁ < e₂ ∨ e₁ = e₂ ∧ m₁ < m₂) ∨ (e₂ < e₁ ∨ e₂ = e₁ ∧ m₂ < m₁) := by omega
  rcases hcases with hlt | hlt
  · exact lt_irrefl x (lt_of_holds_around h₁ h₂ hlt hx₁ hx₂)
  · exact lt_irrefl x (lt_of_holds_around h₂ h₁ hlt hx₂ hx₁)

theorem pos_of_holds_around {m : Nat} {e : Int} (h : Canonical m e) {x : ℚ}
    (hx : (around m e).Holds x) : 0 < x := by
  have hpos := h.pos
  obtain ⟨-, htwo⟩ := one_le_reach_le_two m e
  have hlow : 0 < (around m e).low.toRat := by
    rw [low_around]
    exact mul_pos (Nat.cast_pos.mpr (by omega)) (by positivity)
  unfold Holds at hx
  split at hx
  · exact lt_of_lt_of_le hlow hx.1
  · exact lt_trans hlow hx.1

end Interval

/-- The shortest decimal of a double lies in its interval. -/
theorem exists_shortest {m : Nat} {e : Int} (h : Canonical m e) :
    ∃ c k, shortest m e = ofScaled c k ∧ (Interval.around m e).Holds (c * 10 ^ k) := by
  have hpos := h.pos
  have hlt := h.lt
  have hleast := h.least
  have hgreatest := h.greatest
  have hv : (Ratio.scaled m e).toRat = m * 2 ^ e := Ratio.toRat_scaled m e
  have hden := Ratio.den_scaled_pos m e
  have hlog : (2 : ℚ) ^ ((m.log2 : Int) + e) ≤ (Ratio.scaled m e).toRat := by
    have hself : ((2 ^ m.log2 : Nat) : ℚ) ≤ m := Nat.cast_le.mpr (Nat.log2_self_le hpos.ne')
    rw [hv, zpow_add₀ two_ne_zero, zpow_natCast]
    exact mul_le_mul_of_nonneg_right (by exact_mod_cast hself) (by positivity)
  have hlog_lt : m.log2 < 53 := (Nat.log2_lt hpos.ne').mpr hlt
  have hlead := pow_leadingExponent_le hden (by omega) (by omega) hlog
  refine exists_searchGrids (Ratio.den_scaled_pos _ _) (Ratio.den_scaled_pos _ _) fun k hk => ?_
  -- The last grid has seventeen digits, so a step of it is small beside the last place.
  have hround := Ratio.abs_roundDiv_sub_le (Ratio.den_shift_pos hden k)
  generalize Binary64.roundDiv _ _ = c at hround ⊢
  have hten : (0 : ℚ) < 10 ^ k := by positivity
  have hdist : |(c : ℚ) * 10 ^ k - m * 2 ^ e| ≤ 1 / 2 * 10 ^ k := by
    rw [Ratio.toRat_shift, hv] at hround
    calc |(c : ℚ) * 10 ^ k - m * 2 ^ e| = |(c : ℚ) - m * 2 ^ e / 10 ^ k| * 10 ^ k := by
          rw [← abs_of_pos hten, ← abs_mul, abs_of_pos hten, sub_mul, div_mul_cancel₀ _ hten.ne']
      _ ≤ 1 / 2 * 10 ^ k := mul_le_mul_of_nonneg_right hround hten.le
  have hstep : (10 : ℚ) ^ 16 * 10 ^ k ≤ m * 2 ^ e := by
    rw [← hv, ← zpow_natCast, ← zpow_add₀ (by norm_num)]
    convert hlead using 2
    omega
  exact Interval.holds_around h (by linarith)

end StackCode.Decimal
