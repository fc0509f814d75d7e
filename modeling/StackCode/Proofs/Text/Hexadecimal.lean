import Mathlib.Data.List.Basic
import StackCode.Bytes
import StackCode.Text.Number

/-!
# Hexadecimal numbers read back

The hexadecimal text of a number, padded or not, reads back as the number, and the digits of a
byte string, with blanks between the bytes, read back as the bytes.
-/
namespace StackCode.Text

def hexDigit? (c : Char) : Option Nat :=
  if '0' ≤ c ∧ c ≤ '9' then some (c.toNat - '0'.toNat)
  else if 'a' ≤ c ∧ c ≤ 'f' then some (c.toNat - 'a'.toNat + 10)
  else none

def hexValue? (cs : List Char) : Option Nat :=
  cs.foldlM (fun n c => (hexDigit? c).map (16 * n + ·)) 0

/-- The bytes that lower-case hexadecimal digits spell, two to a byte. -/
def hexBytes? : List Char → Option Bytes
  | [] => some []
  | [_] => none
  | c :: d :: cs => do
      let n ← hexValue? [c, d]
      let bs ← hexBytes? cs
      some (.ofNat n :: bs)

theorem hexDigit?_digitChar {n : Nat} (h : n < 16) : hexDigit? n.digitChar = some n := by
  revert n
  decide

theorem hexValue?_concat (cs : List Char) (c : Char) :
    hexValue? (cs ++ [c]) = (hexValue? cs).bind fun n => (hexDigit? c).map (16 * n + ·) := by
  rw [hexValue?, List.foldlM_append]
  simp [hexValue?]

theorem hexValue?_toDigits (n : Nat) : hexValue? (Nat.toDigits 16 n) = some n := by
  induction n using Nat.strongRecOn with
  | ind n ih =>
      rw [Nat.toDigits_eq_if (by decide)]
      split
      next h => simp [hexValue?, hexDigit?_digitChar h]
      next h =>
        have hlast : n % 16 < 16 := Nat.mod_lt n (by decide)
        rw [hexValue?_concat, ih (n / 16) (by omega), Option.bind_some, hexDigit?_digitChar hlast,
          Option.map_some, Nat.div_add_mod]

theorem hexValue?_leftpad (width : Nat) (cs : List Char) :
    hexValue? (cs.leftpad width '0') = hexValue? cs := by
  have hzeros (k : Nat) : hexValue? (List.replicate k '0' ++ cs) = hexValue? cs := by
    induction k with
    | zero => rfl
    | succ k ih => exact ih
  exact hzeros _

theorem hexValue?_hex (width n : Nat) : hexValue? (hex width n).toList = some n := by
  rw [hex, digits, String.toList_ofList, hexValue?_leftpad, hexValue?_toDigits]

/-- Only digits spell a number. -/
theorem isSome_of_hexValue? {cs : List Char} {n : Nat} (h : hexValue? cs = some n) :
    ∀ c ∈ cs, (hexDigit? c).isSome := by
  unfold hexValue? at h
  -- the digits in front have been read, and they count as any number
  generalize 0 = start at h
  induction cs generalizing start with
  | nil => exact List.forall_mem_nil _
  | cons d cs ih =>
      rw [List.foldlM_cons] at h
      cases hd : hexDigit? d with
      | none =>
          rw [hd] at h
          cases h
      | some v =>
          rw [hd] at h
          exact List.forall_mem_cons.mpr ⟨by rw [hd]; rfl, ih _ h⟩

theorem isSome_of_mem_hex {width n : Nat} {c : Char} (h : c ∈ (hex width n).toList) :
    (hexDigit? c).isSome :=
  isSome_of_hexValue? (hexValue?_hex width n) c h

theorem length_hexByte (b : UInt8) : (hexByte b).toList.length = 2 := by
  have hb := b.toNat_lt
  have hshort : (Nat.toDigits 16 b.toNat).length ≤ 2 := by
    rw [Nat.toDigits_eq_if (by decide)]
    split
    next => simp
    next =>
      have hfirst : b.toNat / 16 < 16 := by omega
      simp [Nat.toDigits_of_lt_base hfirst]
  rw [hexByte, hex, digits, String.toList_ofList, List.length_leftpad]
  omega

theorem hexBytes?_hexByte (b : UInt8) (cs : List Char) :
    hexBytes? ((hexByte b).toList ++ cs) = (hexBytes? cs).map (b :: ·) := by
  obtain ⟨c, d, hcd⟩ := List.length_eq_two.mp (length_hexByte b)
  have hvalue : hexValue? [c, d] = some b.toNat := by
    rw [← hcd]
    exact hexValue?_hex 2 b.toNat
  rw [hcd, List.cons_append, List.cons_append, List.nil_append, hexBytes?, hvalue]
  cases hexBytes? cs with
  | none => rfl
  | some bs => simp

/-! ## Bytes in a column -/

def hexColumn (bs : Bytes) : String := " ".intercalate (bs.map hexByte)

theorem hexColumn_singleton (b : UInt8) : hexColumn [b] = hexByte b := by
  simp [hexColumn]

theorem hexColumn_cons (b c : UInt8) (bs : Bytes) :
    (hexColumn (b :: c :: bs)).toList =
      (hexByte b).toList ++ ' ' :: (hexColumn (c :: bs)).toList := by
  simp [hexColumn, String.toList_intercalate]

theorem mem_hexColumn {bs : Bytes} {c : Char} (h : c ∈ (hexColumn bs).toList) :
    c = ' ' ∨ (hexDigit? c).isSome := by
  induction bs with
  | nil => simp [hexColumn] at h
  | cons b bs ih =>
      cases bs with
      | nil =>
          rw [hexColumn_singleton] at h
          exact .inr (isSome_of_mem_hex h)
      | cons d bs =>
          rw [hexColumn_cons, List.mem_append, List.mem_cons] at h
          rcases h with hfirst | hblank | hrest
          · exact .inr (isSome_of_mem_hex hfirst)
          · exact .inl hblank
          · exact ih hrest

theorem length_hexColumn (bs : Bytes) : (hexColumn bs).toList.length ≤ 3 * bs.length := by
  induction bs with
  | nil => simp [hexColumn]
  | cons b bs ih =>
      have hb := length_hexByte b
      cases bs with
      | nil =>
          rw [hexColumn_singleton, hb, List.length_singleton]
          decide
      | cons c bs =>
          rw [hexColumn_cons, List.length_append, List.length_cons]
          simp only [List.length_cons] at ih ⊢
          omega

theorem hexBytes?_hexColumn (bs : Bytes) :
    hexBytes? ((hexColumn bs).toList.filter (· ≠ ' ')) = some bs := by
  have hdigits (b : UInt8) : (hexByte b).toList.filter (· ≠ ' ') = (hexByte b).toList := by
    refine List.filter_eq_self.mpr fun c hc => decide_eq_true ?_
    rintro rfl
    exact absurd (isSome_of_mem_hex hc) (by decide)
  induction bs with
  | nil => rfl
  | cons b bs ih =>
      cases bs with
      | nil =>
          have hone := hexBytes?_hexByte b []
          rw [List.append_nil] at hone
          rw [hexColumn_singleton, hdigits, hone]
          rfl
      | cons c bs =>
          rw [hexColumn_cons, List.filter_append, hdigits, List.filter_cons_of_neg (by decide),
            hexBytes?_hexByte, ih]
          rfl

end StackCode.Text
