import Mathlib.Algebra.Order.Field.Basic
import Mathlib.Algebra.Order.Ring.Rat
import Mathlib.Tactic.NormNum
import StackCode.Decimal.Basic

/-!
# Decimals read back

`reading` says which number a text stands for that is made of digits, at most one point among
them, and an exponent. Whichever way a decimal is laid out, its text reads as its value.
-/
namespace StackCode

/-! ## Cutting at a mark -/

namespace Text

section
variable {c : Char} {p s : List Char} (hp : c ∉ p) (hs : ∀ x ∈ s.head?, x = c)
include hp hs

/-- What stands before the first `c` of a text, and what stands from there on. -/
theorem span_mark :
    (p ++ s).takeWhile (· ≠ c) = p ∧ (p ++ s).dropWhile (· ≠ c) = s := by
  have hkeep : ∀ x ∈ p, decide (x ≠ c) = true := by
    rintro x hx
    exact decide_eq_true (ne_of_mem_of_not_mem hx hp)
  rw [List.takeWhile_append_of_pos hkeep, List.dropWhile_append_of_pos hkeep]
  cases s with
  | nil => exact ⟨List.append_nil p, rfl⟩
  | cons x xs => simp [hs x rfl]

theorem append_mark_inj {q t : List Char} (hq : c ∉ q) (ht : ∀ x ∈ t.head?, x = c)
    (h : p ++ s = q ++ t) : p = q ∧ s = t := by
  have hspan := span_mark hp hs
  rw [h, (span_mark hq ht).1, (span_mark hq ht).2] at hspan
  exact ⟨hspan.1.symm, hspan.2.symm⟩

end

end Text

namespace Decimal

/-- The number that digits spell. -/
def natural (ds : List Char) : Nat := Nat.ofDigitChars 10 ds 0

def value (d : Decimal) : ℚ := natural d.digits * 10 ^ (d.exponent + 1 - d.digits.length)

/-- The integer that digits spell, behind a sign or without one. -/
def signed : List Char → Int
  | '-' :: ds => -natural ds
  | '+' :: ds => natural ds
  | ds => natural ds

def readExponent : List Char → Int
  | 'e' :: cs => signed cs
  | _ => 0

/-- The number that a text without a sign stands for. -/
def reading (cs : List Char) : ℚ :=
  let mantissa := cs.takeWhile (· ≠ 'e')
  let places := (mantissa.dropWhile (· ≠ '.')).length - 1
  natural (mantissa.filter (· ≠ '.')) * 10 ^ (readExponent (cs.dropWhile (· ≠ 'e')) - places)

/-! ## Digits -/

theorem natural_append (as bs : List Char) :
    natural (as ++ bs) = natural as * 10 ^ bs.length + natural bs := by
  rw [natural, Nat.ofDigitChars_append, Nat.ofDigitChars_eq_ofDigitChars_zero, Nat.mul_comm]
  rfl

theorem natural_zeros (n : Nat) : natural (List.replicate n '0') = 0 := by
  rw [natural, Nat.ofDigitChars_replicate_zero, Nat.mul_zero]

theorem natural_toDigits (n : Nat) : natural (Nat.toDigits 10 n) = n :=
  Nat.ofDigitChars_toDigits (by decide) (by decide)

theorem natural_leftpad (w n : Nat) : natural (List.leftpad w '0' (Nat.toDigits 10 n)) = n := by
  rw [List.leftpad, natural_append, natural_zeros, natural_toDigits, Nat.zero_mul, Nat.zero_add]

theorem ne_of_isDigit {c x : Char} (hx : x.isDigit = false) (h : c.isDigit = true) : c ≠ x := by
  rintro rfl
  rw [hx] at h
  cases h

theorem signed_of_isDigit {ds : List Char} (h : ∀ c ∈ ds, c.isDigit = true) :
    signed ds = natural ds := by
  unfold signed
  split
  · exact absurd rfl (ne_of_isDigit rfl (h '-' List.mem_cons_self))
  · exact absurd rfl (ne_of_isDigit rfl (h '+' List.mem_cons_self))
  · rfl

theorem toList_toString (n : Int) :
    (toString n).toList = (if n < 0 then ['-'] else []) ++ Nat.toDigits 10 n.natAbs := by
  rw [Int.toString_eq_repr]
  cases n with
  | ofNat m => rw [Int.repr, Nat.repr_eq_ofList_toDigits, String.toList_ofList]; rfl
  | negSucc m =>
      rw [Int.repr, Nat.repr_eq_ofList_toDigits, String.toList_append, String.toList_ofList,
        String.toList_ofList, if_pos (Int.negSucc_lt_zero m), Int.natAbs_negSucc]

theorem isDigit_toDigits (n : Nat) : ∀ c ∈ Nat.toDigits 10 n, c.isDigit = true :=
  fun _ hc => Nat.isDigit_of_mem_toDigits (by decide) (by decide) hc

theorem signed_toString (n : Int) : signed (toString n).toList = n := by
  rw [toList_toString]
  split
  · rw [List.singleton_append, signed, natural_toDigits]
    omega
  · rw [List.nil_append, signed_of_isDigit (isDigit_toDigits _), natural_toDigits]
    omega

theorem signed_plus_toString (n : Int) :
    signed ((if n < 0 then [] else ['+']) ++ (toString n).toList) = n := by
  split
  next => exact signed_toString n
  next h =>
    rw [toList_toString, if_neg h, List.nil_append, List.singleton_append, signed,
      natural_toDigits]
    omega

theorem readExponent_exponentText (x : Int) : readExponent (exponentText x) = x := by
  unfold exponentText
  split
  next h =>
    rw [readExponent, signed, natural_leftpad]
    omega
  next h =>
    rw [readExponent, signed, natural_leftpad]
    omega

theorem dropTrailingZeros_append (ds : List Char) :
    ∃ n, ds = dropTrailingZeros ds ++ List.replicate n '0' := by
  have hzeros : ∀ c ∈ ds.reverse.takeWhile (· == '0'), c = '0' := by
    intro c hc
    simpa using List.all_eq_true.mp List.all_takeWhile c hc
  have hsplit := congrArg List.reverse (ds.reverse.takeWhile_append_dropWhile (p := (· == '0')))
  rw [List.reverse_append, List.reverse_reverse, List.eq_replicate_of_mem hzeros,
    List.reverse_replicate] at hsplit
  exact ⟨_, hsplit.symm⟩

/-- A coefficient keeps its value when its last zeros go. -/
theorem value_ofScaled (coeff : Nat) (k : Int) : (ofScaled coeff k).value = coeff * 10 ^ k := by
  obtain ⟨n, hn⟩ := dropTrailingZeros_append (Nat.toDigits 10 coeff)
  have hcoeff := natural_toDigits coeff
  have hlength := congrArg List.length hn
  rw [hn, natural_append, natural_zeros, List.length_replicate, Nat.add_zero] at hcoeff
  rw [List.length_append, List.length_replicate] at hlength
  have hexp : k + ((Nat.toDigits 10 coeff).length : Int) - 1 + 1 -
      (dropTrailingZeros (Nat.toDigits 10 coeff)).length = n + k := by omega
  have hten : (10 : ℚ) ≠ 0 := by norm_num
  simp only [value, ofScaled]
  rw [hexp, zpow_add₀ hten, zpow_natCast, ← mul_assoc]
  congr 1
  exact_mod_cast hcoeff

theorem digits_ofScaled_ne_nil {coeff : Nat} (h : coeff ≠ 0) (k : Int) :
    (ofScaled coeff k).digits ≠ [] := by
  intro hnil
  have hvalue := value_ofScaled coeff k
  have hpow : (10 : ℚ) ^ k ≠ 0 := zpow_ne_zero k (by norm_num)
  rw [value, hnil, natural, Nat.ofDigitChars_nil, Nat.cast_zero, zero_mul] at hvalue
  exact mul_ne_zero (Nat.cast_ne_zero.mpr h) hpow hvalue.symm

theorem isDigit_ofScaled {coeff : Nat} {k : Int} :
    ∀ c ∈ (ofScaled coeff k).digits, c.isDigit = true := by
  intro c hc
  have hmem : c ∈ (Nat.toDigits 10 coeff).reverse :=
    (List.dropWhile_sublist _).mem (List.mem_reverse.mp hc)
  exact isDigit_toDigits coeff c (List.mem_reverse.mp hmem)

/-! ## Layouts -/

section
variable {whole frac : List Char} (hw : ∀ c ∈ whole, c.isDigit = true)
  (hf : ∀ c ∈ frac, c.isDigit = true)
include hw hf

theorem filter_point :
    (whole ++ fraction frac).filter (· ≠ '.') = whole ++ frac := by
  have hkeep : ∀ ds : List Char, (∀ c ∈ ds, c.isDigit = true) → ds.filter (· ≠ '.') = ds := by
    intro ds hds
    rw [List.filter_eq_self]
    intro c hc
    exact decide_eq_true (ne_of_isDigit rfl (hds c hc))
  have hfraction : (fraction frac).filter (· ≠ '.') = frac := by
    cases frac with
    | nil => rfl
    | cons f fs => exact hkeep _ hf
  rw [List.filter_append, hkeep _ hw, hfraction]

omit hf in
theorem length_dropWhile_point :
    ((whole ++ fraction frac).dropWhile (· ≠ '.')).length - 1 = frac.length := by
  have hwhole : '.' ∉ whole := fun hmem => ne_of_isDigit rfl (hw _ hmem) rfl
  have hpoint : ∀ x ∈ (fraction frac).head?, x = '.' := by
    intro x hx
    cases frac with
    | nil => cases hx
    | cons f fs => exact (Option.some.inj hx).symm
  rw [(Text.span_mark hwhole hpoint).2]
  cases frac <;> rfl

/-- Digits around a point are read together with the exponent behind them. -/
theorem reading_parts {tail : List Char} (htail : ∀ c ∈ tail.head?, c = 'e') :
    reading (whole ++ fraction frac ++ tail) =
      natural (whole ++ frac) * 10 ^ (readExponent tail - frac.length) := by
  have hmark : 'e' ∉ whole ++ fraction frac := by
    intro hmem
    rcases List.mem_append.mp hmem with hmem | hmem
    · exact ne_of_isDigit rfl (hw _ hmem) rfl
    · unfold fraction at hmem
      split at hmem
      · cases hmem
      · rcases List.mem_cons.mp hmem with hpoint | hmem
        · cases hpoint
        · exact ne_of_isDigit rfl (hf _ hmem) rfl
  obtain ⟨htake, hdrop⟩ := Text.span_mark hmark htail
  rw [reading, htake, hdrop, filter_point hw hf, length_dropWhile_point hw]

end

theorem reading_positional {whole frac : List Char} (hw : ∀ c ∈ whole, c.isDigit = true)
    (hf : ∀ c ∈ frac, c.isDigit = true) :
    reading (whole ++ fraction frac) = natural (whole ++ frac) * 10 ^ (-(frac.length : Int)) := by
  have hparts : reading (whole ++ fraction frac ++ []) = _ :=
    reading_parts hw hf (fun c hc => by cases hc)
  rwa [List.append_nil, readExponent, Int.zero_sub] at hparts
  all_goals rintro ds ⟨⟩

theorem isDigit_zeros (n : Nat) : ∀ c ∈ List.replicate n '0', c.isDigit = true :=
  fun _ hc => List.eq_of_mem_replicate hc ▸ rfl

section
variable {d : Decimal} (hd : ∀ c ∈ d.digits, c.isDigit = true) (hne : d.digits ≠ [])
include hd

theorem isDigit_take (n : Nat) : ∀ c ∈ d.digits.take n, c.isDigit = true :=
  fun c hc => hd c (List.mem_of_mem_take hc)

theorem isDigit_drop (n : Nat) : ∀ c ∈ d.digits.drop n, c.isDigit = true :=
  fun c hc => hd c (List.mem_of_mem_drop hc)

/-- A decimal with `n` digits before the point, zeros filling them up. -/
theorem reading_whole (n : Nat) :
    reading (d.digits.take n ++ List.replicate (n - d.digits.length) '0' ++
      fraction (d.digits.drop n)) = natural d.digits * 10 ^ ((n : Int) - d.digits.length) := by
  have hwhole : ∀ c ∈ d.digits.take n ++ List.replicate (n - d.digits.length) '0',
      c.isDigit = true := by
    intro c hc
    rcases List.mem_append.mp hc with hc | hc
    · exact isDigit_take hd n c hc
    · exact isDigit_zeros _ c hc
  rw [reading_positional hwhole (isDigit_drop hd n), List.length_drop]
  rcases Nat.le_total d.digits.length n with hle | hle
  · have hexp : (n : Int) - d.digits.length = ((n - d.digits.length : Nat) : Int) := by omega
    rw [List.take_of_length_le hle, List.drop_of_length_le hle, List.append_nil, natural_append,
      natural_zeros, List.length_replicate, Nat.sub_eq_zero_of_le hle, hexp, zpow_natCast]
    simp
  · have hexp : (n : Int) - d.digits.length = -((d.digits.length - n : Nat) : Int) := by omega
    rw [Nat.sub_eq_zero_of_le hle, List.replicate_zero, List.append_nil, List.take_append_drop,
      hexp]

include hne

/-- A decimal below one, with `n` zeros behind the point. -/
theorem reading_small (n : Nat) :
    reading ('0' :: '.' :: (List.replicate n '0' ++ d.digits)) =
      natural d.digits * 10 ^ (-(n : Int) - d.digits.length) := by
  have hfrac : ∀ c ∈ List.replicate n '0' ++ d.digits, c.isDigit = true := by
    intro c hc
    rcases List.mem_append.mp hc with hc | hc
    · exact isDigit_zeros n c hc
    · exact hd c hc
  have hshape : '0' :: '.' :: (List.replicate n '0' ++ d.digits) =
      List.replicate 1 '0' ++ fraction (List.replicate n '0' ++ d.digits) := by
    rw [fraction, if_neg]
    · rfl
    · rw [List.isEmpty_iff, List.append_eq_nil_iff]
      exact fun h => hne h.2
  rw [hshape, reading_positional (isDigit_zeros 1) hfrac, natural_append, natural_append,
    natural_zeros, natural_zeros, Nat.zero_mul, Nat.zero_mul, Nat.zero_add, Nat.zero_add,
    List.length_append, List.length_replicate]
  congr 2
  omega

/-- A decimal reads as its value, however it is laid out. -/
theorem reading_text : reading d.text = d.value := by
  have hlength : 0 < d.digits.length := List.length_pos_iff.mpr hne
  unfold text value
  split
  · have hmark : ∀ c ∈ (exponentText d.exponent).head?, c = 'e' :=
      fun c hc => (Option.some.inj (Option.mem_def.mp hc)).symm
    rw [reading_parts (isDigit_take hd 1) (isDigit_drop hd 1) hmark, readExponent_exponentText,
      List.take_append_drop, List.length_drop]
    congr 2
    omega
  · split
    · rw [reading_small hd hne]
      congr 2
      omega
    · rw [reading_whole hd]
      congr 2
      omega

end

end Decimal

end StackCode
