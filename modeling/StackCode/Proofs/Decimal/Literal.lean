import Mathlib.Data.Nat.Bitwise
import StackCode.Proofs.Decimal.Shortest

/-!
# Literals tell doubles apart

A literal shows the sign of a double and the shortest decimal of its magnitude, which reads back
as that magnitude alone. The only doubles that share a text are the NaNs.
-/
namespace StackCode

namespace Binary64

/-! ## The parts of a word -/

theorem toNat_isNegative (bits : UInt64) : (isNegative bits).toNat = bits.toNat / 2 ^ 63 := by
  have hlt := bits.toNat_lt
  have hbit : (bits &&& signBit).toNat = (bits.toNat.testBit 63).toNat * 2 ^ 63 := by
    rw [UInt64.toNat_and]
    exact Nat.and_two_pow _ 63
  have hneg : isNegative bits = bits.toNat.testBit 63 := by
    rw [Bool.eq_iff_iff, isNegative, bne_iff_ne, ne_eq, ← UInt64.toNat_inj, hbit]
    cases bits.toNat.testBit 63 <;> decide
  rw [hneg, Nat.toNat_testBit]
  omega

theorem isNaN_iff (bits : UInt64) :
    isNaN bits = true ↔ 2047 * 2 ^ 52 < bits.toNat % 2 ^ 63 := by
  have hmask : (bits &&& 0x7fffffffffffffff).toNat = bits.toNat % 2 ^ 63 := by
    rw [UInt64.toNat_and]
    exact Nat.and_two_pow_sub_one_eq_mod _ 63
  rw [isNaN, decide_eq_true_eq, UInt64.lt_iff_toNat_lt, hmask]
  rfl

theorem decode_eq (bits : UInt64) :
    decode bits =
      if bits.toNat / 2 ^ 52 % 2048 = 2047 then
        if bits.toNat % 2 ^ 52 = 0 then .inf (isNegative bits) else .nan (isNegative bits)
      else if bits.toNat / 2 ^ 52 % 2048 = 0 then
        .finite (isNegative bits) (bits.toNat % 2 ^ 52) (-1074)
      else .finite (isNegative bits) (bits.toNat % 2 ^ 52 + 2 ^ 52)
        (((bits.toNat / 2 ^ 52 % 2048 : Nat) : Int) - 1075) := rfl

theorem isNaN_of_decode {bits : UInt64} {neg : Bool} (h : decode bits = .nan neg) :
    isNaN bits = true := by
  rw [isNaN_iff]
  rw [decode_eq] at h
  split at h
  · split at h
    · cases h
    · omega
  · split at h <;> cases h

theorem toNat_of_decode_inf {bits : UInt64} {neg : Bool} (h : decode bits = .inf neg) :
    bits.toNat = neg.toNat * 2 ^ 63 + 2047 * 2 ^ 52 := by
  have hneg := toNat_isNegative bits
  rw [decode_eq] at h
  split at h
  · split at h
    · cases h
      omega
    · cases h
  · split at h <;> cases h

/-- Exponent and significand of a finite double stand in its word one after the other. -/
theorem toNat_of_decode_finite {bits : UInt64} {neg : Bool} {m : Nat} {e : Int}
    (h : decode bits = .finite neg m e) :
    bits.toNat = neg.toNat * 2 ^ 63 + (e + 1074).toNat * 2 ^ 52 + m ∧
      (m = 0 ∧ e = -1074 ∨ Decimal.Canonical m e) := by
  have hneg := toNat_isNegative bits
  have hlt := bits.toNat_lt
  rw [decode_eq] at h
  split at h
  · split at h <;> cases h
  next hfield =>
    split at h
    · cases h
      refine ⟨by omega, ?_⟩
      rcases Nat.eq_zero_or_pos (bits.toNat % 2 ^ 52) with hzero | hpos
      · exact .inl ⟨hzero, rfl⟩
      · exact .inr ⟨hpos, by omega, by omega, by omega, by omega⟩
    · cases h
      refine ⟨by omega, .inr ⟨by omega, by omega, by omega, by omega, by omega⟩⟩

theorem eq_of_decode_eq {a b : UInt64} {v : Value} (ha : decode a = v) (hb : decode b = v)
    (hv : ∀ neg, v ≠ .nan neg) : a = b := by
  rw [← UInt64.toNat_inj]
  cases v with
  | nan neg => exact absurd rfl (hv neg)
  | inf neg => rw [toNat_of_decode_inf ha, toNat_of_decode_inf hb]
  | finite neg m e => rw [(toNat_of_decode_finite ha).1, (toNat_of_decode_finite hb).1]

end Binary64

namespace Decimal

open Binary64

/-! ## Magnitudes -/

/-- The text of a finite double without its sign. -/
def magnitude (m : Nat) (e : Int) : List Char := if m = 0 then ['0'] else (shortest m e).text

theorem reading_zero (e : Int) : reading (magnitude 0 e) = 0 := by
  have hzero : natural ['0'] = 0 := natural_zeros 1
  have hreading : reading (['0'] ++ fraction []) = _ :=
    reading_positional (isDigit_zeros 1) (isDigit_zeros 0)
  rw [List.append_nil, hzero, Nat.cast_zero, zero_mul] at hreading
  exact hreading

theorem exists_text_eq_cons {d : Decimal} (hd : ∀ c ∈ d.digits, c.isDigit = true)
    (hne : d.digits ≠ []) : ∃ c cs, d.text = c :: cs ∧ c.isDigit = true := by
  obtain ⟨c, cs, hcs⟩ := List.exists_cons_of_ne_nil hne
  have hc : c.isDigit = true := hd c (hcs ▸ List.mem_cons_self)
  unfold text
  rw [hcs]
  split
  · exact ⟨c, _, rfl, hc⟩
  · split
    · exact ⟨'0', _, rfl, rfl⟩
    · exact ⟨c, _, rfl, hc⟩

section
variable {m : Nat} {e : Int}

/-- The magnitude of a double reads back as the double, and it starts with a digit. -/
theorem holds_reading_magnitude (h : Canonical m e) :
    (Interval.around m e).Holds (reading (magnitude m e)) ∧
      ∃ c cs, magnitude m e = c :: cs ∧ c.isDigit = true := by
  obtain ⟨c, k, hshort, hholds⟩ := exists_shortest h
  have hc : c ≠ 0 := by
    rintro rfl
    have hpos := Interval.pos_of_holds_around h hholds
    simp at hpos
  have hne := digits_ofScaled_ne_nil hc k
  rw [magnitude, if_neg h.pos.ne', hshort, reading_text isDigit_ofScaled hne, value_ofScaled]
  exact ⟨hholds, exists_text_eq_cons isDigit_ofScaled hne⟩

theorem exists_magnitude_eq_cons (h : m = 0 ∧ e = -1074 ∨ Canonical m e) :
    ∃ c cs, magnitude m e = c :: cs ∧ c.isDigit = true := by
  rcases h with ⟨rfl, -⟩ | h
  · exact ⟨'0', [], rfl, rfl⟩
  · exact (holds_reading_magnitude h).2

theorem eq_of_magnitude_eq {m' : Nat} {e' : Int} (h : m = 0 ∧ e = -1074 ∨ Canonical m e)
    (h' : m' = 0 ∧ e' = -1074 ∨ Canonical m' e') (heq : magnitude m e = magnitude m' e') :
    m = m' ∧ e = e' := by
  have hzero : ∀ {n f}, Canonical n f → reading (magnitude n f) ≠ 0 :=
    fun hn => (Interval.pos_of_holds_around hn (holds_reading_magnitude hn).1).ne'
  rcases h with ⟨rfl, rfl⟩ | h
  · rcases h' with ⟨rfl, rfl⟩ | h'
    · exact ⟨rfl, rfl⟩
    · exact absurd (heq ▸ reading_zero _) (hzero h')
  · rcases h' with ⟨rfl, rfl⟩ | h'
    · exact absurd (heq ▸ reading_zero _) (hzero h)
    · exact Interval.eq_of_holds_around h h' (holds_reading_magnitude h).1
        (heq ▸ (holds_reading_magnitude h').1)

end

/-! ## Literals -/

theorem spell_of_decode_finite {bits : UInt64} {neg : Bool} {m : Nat} {e : Int}
    (h : decode bits = .finite neg m e) :
    (literal.spell bits).toList = (if neg then ['-'] else []) ++ magnitude m e := by
  rw [Spelling.spell, h]
  cases m with
  | zero => cases neg <;> simp [magnitude]
  | succ m => exact String.toList_ofList

theorem spell_of_decode_inf {bits : UInt64} {neg : Bool} (h : decode bits = .inf neg) :
    (literal.spell bits).toList = (if neg then '-' else '+') :: ['I', 'n', 'f'] := by
  rw [Spelling.spell, h]
  cases neg <;> rfl

theorem spell_of_decode_nan {bits : UInt64} {neg : Bool} (h : decode bits = .nan neg) :
    (literal.spell bits).toList = ['N', 'a', 'N'] := by
  rw [Spelling.spell, h]
  cases neg <;> rfl

/-- Is the first character a digit, a minus aside? -/
def startsWithDigit (cs : List Char) : Bool := (cs.dropWhile (· == '-')).head?.any Char.isDigit

theorem startsWithDigit_spell_iff (bits : UInt64) :
    startsWithDigit (literal.spell bits).toList = true ↔
      ∃ neg m e, decode bits = .finite neg m e := by
  cases h : decode bits with
  | nan neg =>
      rw [spell_of_decode_nan h]
      exact ⟨nofun, nofun⟩
  | inf neg =>
      rw [spell_of_decode_inf h]
      cases neg <;> exact ⟨nofun, nofun⟩
  | finite neg m e =>
      obtain ⟨c, cs, hcs, hc⟩ := exists_magnitude_eq_cons (toNat_of_decode_finite h).2
      have hminus : (c == '-') = false := beq_eq_false_iff_ne.mpr (ne_of_isDigit rfl hc)
      rw [spell_of_decode_finite h, hcs]
      cases neg <;> simp [startsWithDigit, hminus, hc]

theorem sign_magnitude_inj {neg neg' : Bool} {m m' : Nat} {e e' : Int}
    (h : m = 0 ∧ e = -1074 ∨ Canonical m e) (h' : m' = 0 ∧ e' = -1074 ∨ Canonical m' e')
    (heq : (if neg then ['-'] else []) ++ magnitude m e =
      (if neg' then ['-'] else []) ++ magnitude m' e') :
    neg = neg' ∧ magnitude m e = magnitude m' e' := by
  have hminus : ∀ {n f cs}, (n = 0 ∧ f = -1074 ∨ Canonical n f) → magnitude n f ≠ '-' :: cs := by
    intro n f cs hn hmag
    obtain ⟨c, cs', hcs, hc⟩ := exists_magnitude_eq_cons hn
    exact ne_of_isDigit rfl hc (List.cons.inj (hcs.symm.trans hmag)).1
  cases neg with
  | false =>
      cases neg' with
      | false => exact ⟨rfl, heq⟩
      | true => exact absurd heq (hminus h)
  | true =>
      cases neg' with
      | false => exact absurd heq.symm (hminus h')
      | true => exact ⟨rfl, (List.cons.inj heq).2⟩

theorem decode_eq_of_finite {a b : UInt64}
    (h : (literal.spell a).toList = (literal.spell b).toList) {neg : Bool} {m : Nat} {e : Int}
    (ha : decode a = .finite neg m e) : decode b = .finite neg m e := by
  have hdigit := (startsWithDigit_spell_iff a).mpr ⟨neg, m, e, ha⟩
  rw [h] at hdigit
  obtain ⟨neg', m', e', hb⟩ := (startsWithDigit_spell_iff b).mp hdigit
  have hma := (toNat_of_decode_finite ha).2
  have hmb := (toNat_of_decode_finite hb).2
  rw [spell_of_decode_finite ha, spell_of_decode_finite hb] at h
  obtain ⟨rfl, hmag⟩ := sign_magnitude_inj hma hmb h
  obtain ⟨rfl, rfl⟩ := eq_of_magnitude_eq hma hmb hmag
  exact hb

theorem eq_or_isNaN_of_spell_eq {a b : UInt64} (h : literal.spell a = literal.spell b) :
    a = b ∨ isNaN a = true ∧ isNaN b = true := by
  have hchars := congrArg String.toList h
  cases ha : decode a with
  | finite neg m e =>
      exact .inl (eq_of_decode_eq ha (decode_eq_of_finite hchars ha) nofun)
  | nan neg =>
      cases hb : decode b with
      | finite neg' m e => cases ha.symm.trans (decode_eq_of_finite hchars.symm hb)
      | nan neg' => exact .inr ⟨isNaN_of_decode ha, isNaN_of_decode hb⟩
      | inf neg' =>
          rw [spell_of_decode_nan ha, spell_of_decode_inf hb] at hchars
          cases neg' <;> cases hchars
  | inf neg =>
      cases hb : decode b with
      | finite neg' m e => cases ha.symm.trans (decode_eq_of_finite hchars.symm hb)
      | nan neg' =>
          rw [spell_of_decode_inf ha, spell_of_decode_nan hb] at hchars
          cases neg <;> cases hchars
      | inf neg' =>
          rw [spell_of_decode_inf ha, spell_of_decode_inf hb] at hchars
          have hneg : neg = neg' := by
            cases neg <;> cases neg' <;> simp at hchars ⊢
          exact .inl (eq_of_decode_eq ha (hneg ▸ hb) nofun)

end Decimal

end StackCode
