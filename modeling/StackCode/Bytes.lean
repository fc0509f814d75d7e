/-!
# Byte strings and little-endian words

Code, images and stored values are plain lists of bytes. A word of `w` bytes is
written least significant byte first; reading it back gives the value modulo
`256 ^ w`. `overwrite` is the only way a byte string is changed in place: it
keeps the length and drops what does not fit.
-/
namespace StackCode

/-- A string of bytes. -/
abbrev Bytes := List UInt8

namespace Bytes

/-- The `w` low bytes of `n`, least significant first. -/
def ofNat : Nat → Nat → Bytes
  | 0, _ => []
  | w + 1, n => UInt8.ofNat n :: ofNat w (n / 256)

/-- The number whose little-endian bytes are given. -/
def toNat : Bytes → Nat
  | [] => 0
  | b :: bs => b.toNat + 256 * toNat bs

/-- The four bytes of a 32-bit word. -/
def ofWord32 (v : UInt32) : Bytes := ofNat 4 v.toNat

/-- The eight bytes of a 64-bit word. -/
def ofWord64 (v : UInt64) : Bytes := ofNat 8 v.toNat

/-- The first `w` bytes, if there are as many. -/
def take? : Nat → Bytes → Option Bytes
  | 0, _ => some []
  | _ + 1, [] => none
  | w + 1, b :: bs => (take? w bs).map (b :: ·)

/-- The 32-bit word at the front. -/
def word32? (bs : Bytes) : Option UInt32 := (take? 4 bs).map fun f => UInt32.ofNat (toNat f)

/-- The 64-bit word at the front. -/
def word64? (bs : Bytes) : Option UInt64 := (take? 8 bs).map fun f => UInt64.ofNat (toNat f)

/-- Lays `new` over `bs` from position `pos` on. Bytes past the end are dropped. -/
def overwrite (bs : Bytes) (pos : Nat) (new : Bytes) : Bytes :=
  bs.take pos ++ new.take (bs.length - pos) ++ bs.drop (pos + new.length)

@[simp] theorem length_ofNat (w n : Nat) : (ofNat w n).length = w := by
  induction w generalizing n with
  | zero => rfl
  | succ w ih => simp [ofNat, ih]

@[simp] theorem length_ofWord32 (v : UInt32) : (ofWord32 v).length = 4 := length_ofNat 4 _

@[simp] theorem length_ofWord64 (v : UInt64) : (ofWord64 v).length = 8 := length_ofNat 8 _

theorem toNat_ofNat (w n : Nat) : toNat (ofNat w n) = n % Nat.pow 256 w := by
  induction w generalizing n with
  | zero => simp [ofNat, toNat, Nat.mod_one]
  | succ w ih =>
    have h : (UInt8.ofNat n).toNat = n % 256 := by simp
    have hp : Nat.pow 256 (w + 1) = 256 * Nat.pow 256 w := Nat.mul_comm _ _
    rw [ofNat, toNat, ih, h, hp, Nat.mod_mul]

theorem take?_append (new rest : Bytes) : take? new.length (new ++ rest) = some new := by
  induction new with
  | nil => rfl
  | cons b bs ih => simp [take?, ih]

theorem take?_length {w : Nat} {bs front : Bytes} (h : take? w bs = some front) :
    front.length = w := by
  induction w generalizing bs front with
  | zero => simp_all [take?]
  | succ w ih =>
    cases bs with
    | nil => simp [take?] at h
    | cons b bs =>
      obtain ⟨f, hf, rfl⟩ := Option.map_eq_some_iff.1 h
      simp [ih hf]

@[simp] theorem length_overwrite (bs : Bytes) (pos : Nat) (new : Bytes) :
    (overwrite bs pos new).length = bs.length := by
  simp only [overwrite, List.length_append, List.length_take, List.length_drop]
  omega

end Bytes
end StackCode
