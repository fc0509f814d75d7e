import Mathlib.Data.List.Forall2
import Mathlib.Tactic.MkIffOfInductiveProp
import StackCode.Proofs.Bytes
import StackCode.Proofs.Lowering.Catalog

/-!
# What the fingerprint is taken of

A descriptor is written as seven words, its code and one word for each slot. Nothing stands between
these parts or between descriptors, and the code may look like anything. Still the bytes can be read
in one way only: a word has eight bytes, the seventh tells where the code ends, and the word of a
missing slot is that of no offset. So descriptors that do not say the same are written as different
bytes, and only a collision of the digest could give them the same fingerprint.
-/
namespace StackCode

/-- Two messages with the same digest. -/
def Blake2b.Collide (a b : Bytes) : Prop := a ≠ b ∧ digest a = digest b

instance (a b : Bytes) : Decidable (Blake2b.Collide a b) := inferInstanceAs (Decidable (_ ∧ _))

namespace Lowering

open Bytecode

namespace Descriptor

/-! ## Words -/

def InWord (n : Int) : Prop := -2 ^ 63 ≤ n ∧ n < 2 ^ 63

instance (n : Int) : Decidable (InWord n) := inferInstanceAs (Decidable (_ ∧ _))

theorem word_inj {m n : Int} (hm : InWord m) (hn : InWord n) (h : word m = word n) : m = n := by
  have hnat := congrArg Bytes.toNat h
  have hpow : Nat.pow 256 8 = 0x10000000000000000 := rfl
  rw [word, word, Bytes.toNat_ofNat, Bytes.toNat_ofNat, hpow] at hnat
  unfold InWord at hm hn
  omega

theorem word_append_inj {m n : Int} {r t : Bytes} (hm : InWord m) (hn : InWord n)
    (h : word m ++ r = word n ++ t) : m = n ∧ r = t := by
  obtain ⟨hword, hrest⟩ := List.append_inj h (by rw [word, word, Bytes.length_ofNat,
    Bytes.length_ofNat])
  exact ⟨word_inj hm hn hword, hrest⟩

theorem words_append_inj {α : Type} {f g : α → Int} (hf : ∀ a, InWord (f a))
    (hg : ∀ a, InWord (g a)) {as : List α} {r t : Bytes}
    (h : (as.flatMap fun a => word (f a)) ++ r = (as.flatMap fun a => word (g a)) ++ t) :
    (∀ a ∈ as, f a = g a) ∧ r = t := by
  induction as with
  | nil => exact ⟨List.forall_mem_nil _, h⟩
  | cons a as ih =>
      rw [List.flatMap_cons, List.flatMap_cons, List.append_assoc, List.append_assoc] at h
      obtain ⟨hhead, h⟩ := word_append_inj (hf a) (hg a) h
      obtain ⟨htail, hrest⟩ := ih h
      exact ⟨List.forall_mem_cons.mpr ⟨hhead, htail⟩, hrest⟩

/-! ## One descriptor -/

/-- The numbers of a descriptor are those of 64-bit words, and its slots are named ones with an
offset that is not negative. -/
@[mk_iff]
structure Fits (d : Descriptor) : Prop where
  form : InWord d.variant.form
  opClass : InWord d.opClass
  stackDelta : InWord d.stackDelta
  code : d.template.code.length < 2 ^ 63
  slots : ∀ m ∈ d.template.slots, m.1 ∈ Slot.all ∧ 0 ≤ m.2 ∧ m.2 < 2 ^ 63

instance (d : Descriptor) : Decidable d.Fits := decidable_of_iff _ (fits_iff d).symm

/-- Two descriptors say the same. Their slots are compared as maps. -/
structure Agrees (d e : Descriptor) : Prop where
  variant : d.variant = e.variant
  opClass : d.opClass = e.opClass
  stackDelta : d.stackDelta = e.stackDelta
  code : d.template.code = e.template.code
  slots : ∀ s, d.template.slot? s = e.template.slot? s

variable {d e : Descriptor}

/-- What is written of a slot: its offset, or a number that is none. -/
def slotMark (d : Descriptor) (s : Slot) : Int := (d.template.slot? s).getD (-1)

theorem Fits.of_slot? (h : d.Fits) {s : Slot} {pos : Int} (hs : d.template.slot? s = some pos) :
    s ∈ Slot.all ∧ 0 ≤ pos ∧ pos < 2 ^ 63 :=
  h.slots (s, pos) (Keyed.mem_of_lookup hs)

theorem Fits.slotMark (h : d.Fits) (s : Slot) : InWord (d.slotMark s) := by
  unfold Descriptor.slotMark InWord
  cases hs : d.template.slot? s with
  | none => decide
  | some pos =>
      have := h.of_slot? hs
      rw [Option.getD_some]
      omega

/-- A missing slot is never taken for one that is there. -/
theorem slot?_eq_of_slotMark (hd : d.Fits) (he : e.Fits)
    (h : ∀ s ∈ Slot.all, d.slotMark s = e.slotMark s) (s : Slot) :
    d.template.slot? s = e.template.slot? s := by
  unfold slotMark at h
  cases hds : d.template.slot? s with
  | none =>
      cases hes : e.template.slot? s with
      | none => rfl
      | some q =>
          obtain ⟨hs, hq⟩ := he.of_slot? hes
          have := h s hs
          rw [hds, hes, Option.getD_none, Option.getD_some] at this
          omega
  | some p =>
      obtain ⟨hs, hp⟩ := hd.of_slot? hds
      have := h s hs
      rw [hds, Option.getD_some] at this
      cases hes : e.template.slot? s with
      | none =>
          rw [hes, Option.getD_none] at this
          omega
      | some q =>
          rw [hes, Option.getD_some] at this
          rw [this]

theorem inWord_byte (b : UInt8) : InWord b.toNat := by
  have := b.toNat_lt
  unfold InWord
  omega

theorem inWord_flag (b : Bool) : InWord (if b then 1 else 0) := by
  cases b <;> decide

theorem flag_inj {a b : Bool} (h : (if a then 1 else 0 : Int) = if b then 1 else 0) : a = b := by
  cases a <;> cases b <;> simp_all

/-- The bytes of a descriptor tell what it says and where they end. -/
theorem serialize_append_inj (hd : d.Fits) (he : e.Fits) {r t : Bytes}
    (h : d.serialize ++ r = e.serialize ++ t) : Agrees d e ∧ r = t := by
  simp only [serialize, List.append_assoc] at h
  obtain ⟨hop, h⟩ := word_append_inj (inWord_byte _) (inWord_byte _) h
  obtain ⟨hform, h⟩ := word_append_inj hd.form he.form h
  obtain ⟨hreg, h⟩ := word_append_inj (inWord_byte _) (inWord_byte _) h
  obtain ⟨hpadded, h⟩ := word_append_inj (inWord_flag _) (inWord_flag _) h
  obtain ⟨hclass, h⟩ := word_append_inj hd.opClass he.opClass h
  obtain ⟨hdelta, h⟩ := word_append_inj hd.stackDelta he.stackDelta h
  have hcode := hd.code
  have hcode' := he.code
  obtain ⟨hlen, h⟩ := word_append_inj (by unfold InWord nativeLen; omega)
    (by unfold InWord nativeLen; omega) h
  obtain ⟨hbytes, h⟩ := List.append_inj h (Int.natCast_inj.mp hlen)
  obtain ⟨hslots, h⟩ := words_append_inj hd.slotMark he.slotMark h
  have hvariant : d.variant = e.variant := (Variant.mk.injEq _ _ _ _ _ _ _ _).mpr
    ⟨UInt8.toNat_inj.mp (Int.natCast_inj.mp hop), hform,
      UInt8.toNat_inj.mp (Int.natCast_inj.mp hreg), flag_inj hpadded⟩
  exact ⟨⟨hvariant, hclass, hdelta, hbytes, slot?_eq_of_slotMark hd he hslots⟩, h⟩

theorem serialize_congr (h : Agrees d e) : d.serialize = e.serialize := by
  simp only [serialize, nativeLen, h.variant, h.opClass, h.stackDelta, h.code, h.slots]

theorem serialize_ne_nil (d : Descriptor) : d.serialize ≠ [] := by
  intro h
  have hlen := congrArg List.length h
  simp [serialize, word] at hlen

end Descriptor

namespace Catalog

/-! ## Lists of descriptors -/

theorem forall₂_of_serialize {ds es : List Descriptor} (hds : ∀ d ∈ ds, d.Fits)
    (hes : ∀ e ∈ es, e.Fits) (h : serialize ds = serialize es) :
    List.Forall₂ Descriptor.Agrees ds es := by
  induction ds generalizing es with
  | nil =>
      cases es with
      | nil => exact .nil
      | cons e es =>
          have := (List.append_eq_nil_iff.mp h.symm).1
          exact absurd this e.serialize_ne_nil
  | cons d ds ih =>
      cases es with
      | nil => exact absurd (List.append_eq_nil_iff.mp h).1 d.serialize_ne_nil
      | cons e es =>
          obtain ⟨hd, hds⟩ := List.forall_mem_cons.mp hds
          obtain ⟨he, hes⟩ := List.forall_mem_cons.mp hes
          obtain ⟨hagrees, hrest⟩ := Descriptor.serialize_append_inj hd he h
          exact .cons hagrees (ih hds hes hrest)

theorem serialize_congr {ds es : List Descriptor} (h : List.Forall₂ Descriptor.Agrees ds es) :
    serialize ds = serialize es := by
  induction h with
  | nil => rfl
  | @cons d e ds es hde _ ih =>
      rw [serialize, serialize, List.flatMap_cons, List.flatMap_cons, Descriptor.serialize_congr hde]
      exact congrArg _ ih

theorem serialize_eq_iff {ds es : List Descriptor} (hds : ∀ d ∈ ds, d.Fits)
    (hes : ∀ e ∈ es, e.Fits) :
    serialize ds = serialize es ↔ List.Forall₂ Descriptor.Agrees ds es :=
  ⟨forall₂_of_serialize hds hes, serialize_congr⟩

theorem digest_eq_iff {ds es : List Descriptor} (hds : ∀ d ∈ ds, d.Fits)
    (hes : ∀ e ∈ es, e.Fits) (hc : ¬ Blake2b.Collide (serialize ds) (serialize es)) :
    Blake2b.digest (serialize ds) = Blake2b.digest (serialize es) ↔
      List.Forall₂ Descriptor.Agrees ds es := by
  rw [← serialize_eq_iff hds hes]
  constructor
  · intro h
    by_contra hne
    exact hc ⟨hne, h⟩
  · exact congrArg Blake2b.digest

theorem fits_descriptors : ∀ d ∈ descriptors, d.Fits := by
  have hall : (Opcode.all.flatMap ofOpcode).all (fun d => decide d.Fits) = true := by
    decide +kernel
  intro d hd
  have hd' := List.all_eq_true.mp hall d ((Descriptor.sort_perm _).mem_iff.mp hd)
  exact of_decide_eq_true hd'

/-- Lists of descriptors are written as the same bytes only if they have the same length and agree
entry by entry: in variant, class, stack effect, code and slots. So, where the digest has no
collision, two lists that differ in any of these have different digests, and a list that differs
from the catalog has not its fingerprint. -/
theorem fingerprint_tells_apart (ds es : List Descriptor) (hds : ∀ d ∈ ds, d.Fits)
    (hes : ∀ e ∈ es, e.Fits) :
    (serialize ds = serialize es ↔ List.Forall₂ Descriptor.Agrees ds es) ∧
      (¬ Blake2b.Collide (serialize ds) (serialize es) →
        (Blake2b.digest (serialize ds) = Blake2b.digest (serialize es) ↔
          List.Forall₂ Descriptor.Agrees ds es)) ∧
      (¬ Blake2b.Collide (serialize descriptors) (serialize es) →
        (fingerprint = Blake2b.digest (serialize es) ↔
          List.Forall₂ Descriptor.Agrees descriptors es)) :=
  ⟨serialize_eq_iff hds hes, digest_eq_iff hds hes, digest_eq_iff fits_descriptors hes⟩

def pair : List Descriptor := ofOpcode .ret ++ ofOpcode (.branch .jmp)

/-- One descriptor with the bytes of the pair in its code, from the return to the jump. Only the
length of its code is written differently. -/
def joined : Descriptor :=
  ⟨⟨0x12, 0, 0, false⟩, 1, 0, ⟨((serialize pair).drop 56).take 94, [(.rel32, 1)]⟩⟩

theorem fingerprint_tells_apart_joined :
    (∀ d ∈ pair, d.Fits) ∧ (∀ e ∈ [joined], e.Fits) ∧
      (serialize pair).take 48 = (serialize [joined]).take 48 ∧
      (serialize pair).drop 56 = (serialize [joined]).drop 56 ∧
      serialize pair ≠ serialize [joined] ∧
      Blake2b.digest (serialize pair) ≠ Blake2b.digest (serialize [joined]) := by
  have hpair : ∀ d ∈ pair, d.Fits := by
    intro d hd
    rcases List.mem_append.mp hd with hd | hd
    · exact fits_descriptors d (mem_descriptors hd)
    · exact fits_descriptors d (mem_descriptors hd)
  have hjoined : ∀ e ∈ [joined], e.Fits := by
    intro e he
    rw [List.mem_singleton.mp he]
    decide
  have hcollide : ¬ Blake2b.Collide (serialize pair) (serialize [joined]) := by decide +kernel
  have hlength : ¬ List.Forall₂ Descriptor.Agrees pair [joined] := by
    intro h
    exact absurd h.length_eq (by decide)
  obtain ⟨hbytes, hdigest, -⟩ := fingerprint_tells_apart pair [joined] hpair hjoined
  exact ⟨hpair, hjoined, by decide, by decide, fun h => hlength (hbytes.mp h),
    fun h => hlength ((hdigest hcollide).mp h)⟩

end Catalog
end Lowering
end StackCode
