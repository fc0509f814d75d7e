import Mathlib.Algebra.Ring.Int.Defs
import Mathlib.Algebra.Ring.Nat
import StackCode.Bytes

/-!
# Laws of byte strings

Words are read back as they were written, whatever follows them, and a byte string that
starts with a word is that word's bytes and a rest. A field laid over a string changes
the bytes of the field alone; so fields that do not meet can be written in any order, and
a field inside one part of a string leaves the other parts as they are.
-/
namespace StackCode.Bytes

theorem toNat_lt (bs : Bytes) : toNat bs < 256 ^ bs.length := by
  induction bs with
  | nil => simp [toNat]
  | cons b bs ih =>
      have hb : b.toNat < 256 := b.toNat_lt
      have hp : 256 ^ (bs.length + 1) = 256 * 256 ^ bs.length := Nat.pow_succ'
      simp only [toNat, List.length_cons, hp]
      omega

theorem ofNat_toNat (bs : Bytes) : ofNat bs.length (toNat bs) = bs := by
  induction bs with
  | nil => rfl
  | cons b bs ih =>
      have hb : b.toNat < 256 := b.toNat_lt
      have hhead : UInt8.ofNat (b.toNat + 256 * toNat bs) = b := by
        apply UInt8.toNat_inj.mp
        simp only [UInt8.toNat_ofNat']
        omega
      have htail : (b.toNat + 256 * toNat bs) / 256 = toNat bs := by omega
      rw [List.length_cons, toNat, ofNat, hhead, htail, ih]

theorem getElem?_ofNat (w n k : Nat) :
    (ofNat w n)[k]? = if k < w then some (UInt8.ofNat (n / 256 ^ k)) else none := by
  induction w generalizing n k with
  | zero => rfl
  | succ w ih =>
      cases k with
      | zero => simp [ofNat]
      | succ k =>
          rw [ofNat, List.getElem?_cons_succ, ih, Nat.div_div_eq_div_mul, ← Nat.pow_succ']
          simp only [Nat.add_lt_add_iff_right]

theorem ofNat_mod (w n : Nat) : ofNat w (n % 256 ^ w) = ofNat w n := by
  have hback := ofNat_toNat (ofNat w n)
  rwa [length_ofNat, toNat_ofNat] at hback

theorem take?_eq_some {w : Nat} {bs front : Bytes} (h : take? w bs = some front) :
    bs = front ++ bs.drop w := by
  induction w generalizing bs front with
  | zero =>
      simp only [take?, Option.some.injEq] at h
      subst front
      simp
  | succ w ih =>
      cases bs with
      | nil => simp [take?] at h
      | cons b bs =>
          obtain ⟨f, hf, rfl⟩ := Option.map_eq_some_iff.1 h
          have := ih hf
          simpa using this

@[simp] theorem word32?_ofWord32 (v : UInt32) (rest : Bytes) :
    word32? (ofWord32 v ++ rest) = some v := by
  have h : take? 4 (ofWord32 v ++ rest) = some (ofWord32 v) := by
    simpa using take?_append (ofWord32 v) rest
  have hv : v.toNat % Nat.pow 256 4 = v.toNat := Nat.mod_eq_of_lt v.toNat_lt
  rw [word32?, h, Option.map_some, ofWord32, toNat_ofNat, hv, UInt32.ofNat_toNat]

@[simp] theorem word64?_ofWord64 (v : UInt64) (rest : Bytes) :
    word64? (ofWord64 v ++ rest) = some v := by
  have h : take? 8 (ofWord64 v ++ rest) = some (ofWord64 v) := by
    simpa using take?_append (ofWord64 v) rest
  have hv : v.toNat % Nat.pow 256 8 = v.toNat := Nat.mod_eq_of_lt v.toNat_lt
  rw [word64?, h, Option.map_some, ofWord64, toNat_ofNat, hv, UInt64.ofNat_toNat]

theorem ofWord32_toNat {bs : Bytes} (h : bs.length = 4) :
    ofWord32 (UInt32.ofNat (toNat bs)) = bs := by
  have hn : toNat bs < 2 ^ 32 := by simpa [h] using toNat_lt bs
  rw [ofWord32, UInt32.toNat_ofNat_of_lt' hn, ← h, ofNat_toNat]

theorem ofWord64_toNat {bs : Bytes} (h : bs.length = 8) :
    ofWord64 (UInt64.ofNat (toNat bs)) = bs := by
  have hn : toNat bs < 2 ^ 64 := by simpa [h] using toNat_lt bs
  rw [ofWord64, UInt64.toNat_ofNat_of_lt' hn, ← h, ofNat_toNat]

theorem eq_ofWord32_append {bs : Bytes} {v : UInt32} (h : word32? bs = some v) :
    bs = ofWord32 v ++ bs.drop 4 := by
  obtain ⟨front, hf, rfl⟩ := Option.map_eq_some_iff.1 h
  rw [ofWord32_toNat (take?_length hf)]
  exact take?_eq_some hf

theorem eq_ofWord64_append {bs : Bytes} {v : UInt64} (h : word64? bs = some v) :
    bs = ofWord64 v ++ bs.drop 8 := by
  obtain ⟨front, hf, rfl⟩ := Option.map_eq_some_iff.1 h
  rw [ofWord64_toNat (take?_length hf)]
  exact take?_eq_some hf

/-! ## Fields -/

theorem getElem?_overwrite (bs : Bytes) (pos : Nat) (new : Bytes) (i : Nat) :
    (overwrite bs pos new)[i]? =
      if pos ≤ i ∧ i < pos + new.length ∧ i < bs.length then new[i - pos]? else bs[i]? := by
  by_cases hi : i < bs.length
  · rw [overwrite, List.append_assoc]
    rcases Nat.lt_or_ge i pos with hlo | hlo
    · rw [if_neg (by omega), List.getElem?_append_left (by rw [List.length_take]; omega),
        List.getElem?_take_of_lt hlo]
    · have hfront : (bs.take pos).length = pos := List.length_take_of_le (by omega)
      rw [List.getElem?_append_right (by omega), hfront]
      by_cases hin : i < pos + new.length
      · rw [if_pos ⟨hlo, hin, hi⟩, List.getElem?_append_left (by rw [List.length_take]; omega),
          List.getElem?_take_of_lt (by omega)]
      · have hfield : (new.take (bs.length - pos)).length = new.length := by
          rw [List.length_take]
          omega
        rw [if_neg (by omega), List.getElem?_append_right (by omega), hfield, List.getElem?_drop]
        congr 1
        omega
  · have hout := length_overwrite bs pos new
    rw [if_neg (by omega), List.getElem?_eq_none (by omega), List.getElem?_eq_none (by omega)]

theorem length_foldl_overwrite {α : Type} (pos : α → Nat) (field : α → Bytes) (xs : List α)
    (bs : Bytes) :
    (xs.foldl (fun bs x => overwrite bs (pos x) (field x)) bs).length = bs.length := by
  induction xs generalizing bs with
  | nil => rfl
  | cons x xs ih => rw [List.foldl_cons, ih, length_overwrite]

/-- Writing fields one after the other keeps the bytes of no field. -/
theorem getElem?_foldl_overwrite {α : Type} (pos : α → Nat) (field : α → Bytes) {xs : List α}
    (bs : Bytes) {i : Nat} (h : ∀ x ∈ xs, ¬ (pos x ≤ i ∧ i < pos x + (field x).length)) :
    (xs.foldl (fun bs x => overwrite bs (pos x) (field x)) bs)[i]? = bs[i]? := by
  induction xs generalizing bs with
  | nil => rfl
  | cons x xs ih =>
      have hkept : (overwrite bs (pos x) (field x))[i]? = bs[i]? := by
        rw [getElem?_overwrite, if_neg fun hin => h x (.head _) ⟨hin.1, hin.2.1⟩]
      rw [List.foldl_cons, ih _ fun y hy => h y (.tail _ hy), hkept]

theorem overwrite_comm (bs : Bytes) {p q : Nat} {a b : Bytes}
    (h : p + a.length ≤ q ∨ q + b.length ≤ p) :
    overwrite (overwrite bs p a) q b = overwrite (overwrite bs q b) p a := by
  apply List.ext_getElem?
  intro i
  simp only [getElem?_overwrite, length_overwrite]
  split <;> split <;> first | rfl | omega

/-- Of two fields of one length in the same place the second stays. -/
theorem overwrite_overwrite (bs : Bytes) (pos : Nat) {a b : Bytes} (h : a.length = b.length) :
    overwrite (overwrite bs pos a) pos b = overwrite bs pos b := by
  apply List.ext_getElem?
  intro i
  simp only [getElem?_overwrite, length_overwrite, h]
  split <;> rfl

theorem overwrite_append_left {a b : Bytes} {pos : Nat} {new : Bytes}
    (h : pos + new.length ≤ a.length) :
    overwrite (a ++ b) pos new = overwrite a pos new ++ b := by
  apply List.ext_getElem?
  intro i
  simp only [getElem?_overwrite, List.getElem?_append, length_overwrite, List.length_append]
  grind

theorem overwrite_append_right (a b : Bytes) (pos : Nat) (new : Bytes) :
    overwrite (a ++ b) (a.length + pos) new = a ++ overwrite b pos new := by
  apply List.ext_getElem?
  intro i
  simp only [getElem?_overwrite, List.getElem?_append, List.length_append]
  grind

theorem overwrite_front {bs new : Bytes} (h : new.length ≤ bs.length) :
    overwrite bs 0 new = new ++ bs.drop new.length := by
  simp [overwrite, List.take_of_length_le h]

theorem overwrite_whole {bs new : Bytes} (h : new.length = bs.length) :
    overwrite bs 0 new = new := by
  rw [overwrite_front (Nat.le_of_eq h), List.drop_of_length_le (Nat.le_of_eq h.symm),
    List.append_nil]

/-- From its position on, a string starts with the field laid over it. -/
theorem drop_overwrite {bs new : Bytes} {pos : Nat} (h : pos + new.length ≤ bs.length) :
    (overwrite bs pos new).drop pos = new ++ bs.drop (pos + new.length) := by
  have hnew : new.take (bs.length - pos) = new := List.take_of_length_le (by omega)
  have hpos : pos = (bs.take pos).length := (List.length_take_of_le (by omega)).symm
  rw [overwrite, hnew, List.append_assoc]
  exact List.drop_left' hpos.symm

theorem overwrite_middle (a old c new : Bytes) (h : old.length = new.length) :
    overwrite (a ++ old ++ c) a.length new = a ++ new ++ c := by
  have hr := overwrite_append_right a (old ++ c) 0 new
  have hm : overwrite (old ++ c) 0 new = new ++ c := by
    rw [overwrite_front (by simp [h]), ← h, List.drop_left]
  rw [List.append_assoc, ← Nat.add_zero a.length, hr, hm, List.append_assoc]

theorem length_slice {bs : Bytes} {pos width : Nat} (h : pos + width ≤ bs.length) :
    ((bs.drop pos).take width).length = width := by
  rw [List.length_take_of_le]
  rw [List.length_drop]
  omega

/-- Bytes that differ from others in one field only are these with that field. -/
theorem eq_overwrite {bs old : Bytes} {pos width : Nat} (hlen : bs.length = old.length)
    (hfit : pos + width ≤ old.length)
    (h : ∀ i : Nat, ¬ (pos ≤ i ∧ i < pos + width) → bs[i]? = old[i]?) :
    bs = old.overwrite pos ((bs.drop pos).take width) := by
  have hwidth := length_slice (hlen.symm ▸ hfit)
  apply List.ext_getElem?
  intro i
  rw [getElem?_overwrite, hwidth]
  split
  next hin =>
    have hat : pos + (i - pos) = i := by omega
    rw [List.getElem?_take_of_lt (by omega), List.getElem?_drop, hat]
  next hout =>
    by_cases hin : pos ≤ i ∧ i < pos + width
    · rw [List.getElem?_eq_none (by omega), List.getElem?_eq_none (by omega)]
    · exact h i hin

end StackCode.Bytes
