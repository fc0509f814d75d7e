import StackCode.Cache.Entry
import StackCode.Proofs.Cache.Items

/-!
# Entries are read back

An entry that was written is read with all its fields, whatever integers they hold, as long as
its fixups do not outnumber the elements that an array may have. With more of them the whole
entry cannot be read, and neither can one with an image whose length does not fit a head.
-/
namespace StackCode.Cache

open Cbor

namespace Item

theorem int64?_ofInt (n : Int64) : int64? (ofInt n) = some (some n) := by
  have hlo := n.le_toInt
  have hhi := n.toInt_lt
  have hrange : -0x8000000000000000 ≤ n.toInt ∧ n.toInt ≤ 0x7fffffffffffffff := by omega
  have hwithin : int? (-0x8000000000000000) 0x7fffffffffffffff (ofInt n) = some (some n.toInt) := by
    unfold ofInt
    split
    next h =>
      have hn : 0 ≤ n.toInt := Int64.le_iff_toInt_le.mp h
      rw [int?, Int.toNat_of_nonneg hn, within, if_pos hrange]
    next h =>
      have hn : ¬0 ≤ n.toInt := fun hn => h (Int64.le_iff_toInt_le.mpr hn)
      have hback : -1 - ((-1 - n.toInt).toNat : Int) = n.toInt := by omega
      rw [int?, hback, within, if_pos hrange]
  rw [int64?, hwithin, Option.map_some, Option.map_some, Int64.ofInt_toInt]

theorem fields?_unsigned (parts : List (Nat × Bytes × Item)) :
    fields? (parts.flatMap fun p => [.unsigned p.1, p.2.2]) =
      some (parts.map fun p => (Int64.ofInt p.1, p.2.2)) := by
  induction parts with
  | nil => rfl
  | cons p parts ih => simp [fields?, key?, ih]

theorem field?_of_lookup {α : Type} {read : Item → Field α} {absent v : α}
    {fs : List (Int64 × Item)} {k : Int64} {i : Item} (h : fs.lookup k = some i)
    (hr : read i = some (some v)) : field? read absent fs k = some v := by
  simp [field?, h, hr]

end Item

/-! ## Fixups -/

namespace Fixup

def parts (f : Fixup) : List (Nat × Bytes × Item) :=
  [(1, Cbor.ofInt f.pos, .ofInt f.pos), (2, Cbor.ofInt f.helper, .ofInt f.helper)]

def item (f : Fixup) : Item := .map (f.parts.flatMap fun p => [.unsigned p.1, p.2.2])

theorem spells (f : Fixup) : Spells f.encode f.item 1 := by
  refine Spells.ofFields f.parts ?_ ?_
  · simp [parts, Spells.ofInt]
  · simp [parts, maxElements]

theorem fixup?_item (f : Fixup) : Item.fixup? f.item = some f := by
  have hrecord : Item.record? f.item = some (f.parts.map fun p => (Int64.ofInt p.1, p.2.2)) :=
    Item.fields?_unsigned f.parts
  generalize hfs : (f.parts.map fun p => (Int64.ofInt p.1, p.2.2)) = fs at hrecord
  have hpos : Item.field? Item.int64? 0 fs 1 = some f.pos :=
    Item.field?_of_lookup (by rw [← hfs]; rfl) (Item.int64?_ofInt f.pos)
  have hhelper : Item.field? Item.int64? 0 fs 2 = some f.helper :=
    Item.field?_of_lookup (by rw [← hfs]; rfl) (Item.int64?_ofInt f.helper)
  simp [Item.fixup?, hrecord, hpos, hhelper]

theorem mapM_fixup? (fs : List Fixup) : (fs.map item).mapM Item.fixup? = some fs := by
  induction fs with
  | nil => rfl
  | cons f fs ih => simp [List.mapM_cons, fixup?_item, ih]

theorem fixups?_array (fs : List Fixup) : Item.fixups? (.array (fs.map item)) = some (some fs) := by
  simp only [Item.fixups?, Item.untagged?, mapM_fixup?, Option.map_some]

end Fixup

/-! ## Entries -/

namespace Entry

/-- The fields in front of the fixups, as bytes and as items. -/
def front (e : Entry) : List (Nat × Bytes × Item) :=
  [(1, Cbor.ofBytes e.fingerprint.toList, .bytes e.fingerprint.toList),
    (2, Cbor.ofInt e.sourceLen, .ofInt e.sourceLen),
    (3, Cbor.ofInt e.nativeLen, .ofInt e.nativeLen),
    (4, Cbor.ofInt e.instructions, .ofInt e.instructions),
    (5, Cbor.ofInt e.relocations, .ofInt e.relocations)]

def picture : Option Bytes → Bytes × Item
  | some image => (Cbor.ofBytes image, .bytes image)
  | none => (Cbor.null, .simple 22)

/-- All fields, as bytes and as items, with a last one. -/
def partsWith (e : Entry) (last : Bytes × Item) : List (Nat × Bytes × Item) :=
  e.front ++
    (if e.fixups.isEmpty then []
      else [(6, Cbor.ofArray (e.fixups.map Fixup.encode), .array (e.fixups.map Fixup.item))]) ++
    [(7, last)]

def parts (e : Entry) : List (Nat × Bytes × Item) := e.partsWith (picture e.image)

theorem encode_eq (e : Entry) : e.encode = Cbor.ofFields (e.parts.map fun p => (p.1, p.2.1)) := by
  cases hf : e.fixups <;> cases hi : e.image <;> simp [encode, parts, partsWith, front, picture, hf, hi]

theorem spells_fixups {fs : List Fixup} (hf : fs.length ≤ maxElements) :
    Spells (Cbor.ofArray (fs.map Fixup.encode)) (.array (fs.map Fixup.item)) 2 := by
  have hall : ∀ p ∈ fs.map (fun f => (f.encode, f.item)), Spells p.1 p.2 1 := by
    intro p hp
    obtain ⟨f, -, rfl⟩ := List.mem_map.mp hp
    exact f.spells
  simpa [Function.comp_def] using Spells.ofArray _ hall (by simpa using hf)

theorem spells_front (e : Entry) : ∀ p ∈ e.front, p.1 < 2 ^ 64 ∧ Spells p.2.1 p.2.2 2 := by
  have hnumber (n : Int64) : Spells (Cbor.ofInt n) (.ofInt n) 2 := (Spells.ofInt n).mono (by omega)
  have hname : Spells (Cbor.ofBytes e.fingerprint.toList) (.bytes e.fingerprint.toList) 2 :=
    (Spells.ofBytes (by simp)).mono (by omega)
  simp [front, hnumber, hname]

theorem spells_picture {image : Option Bytes} (hi : (image.getD []).length < 2 ^ 64) :
    Spells (picture image).1 (picture image).2 2 := by
  cases image with
  | none => exact Spells.null.mono (by omega)
  | some image => exact (Spells.ofBytes hi).mono (by omega)

theorem spells_with {e : Entry} (hf : e.fixups.length ≤ maxElements) {last : Bytes × Item}
    (hlast : Spells last.1 last.2 2) :
    Spells (Cbor.ofFields ((e.partsWith last).map fun p => (p.1, p.2.1)))
      (.map ((e.partsWith last).flatMap fun p => [.unsigned p.1, p.2.2])) 3 := by
  have hfixups := spells_fixups hf
  have hkeys : (6 : Nat) < 2 ^ 64 ∧ (7 : Nat) < 2 ^ 64 := by decide
  have hall : ∀ p ∈ e.partsWith last, p.1 < 2 ^ 64 ∧ Spells p.2.1 p.2.2 2 := by
    intro p hp
    rcases List.mem_append.mp hp with hp | hp
    · rcases List.mem_append.mp hp with hp | hp
      · exact e.spells_front p hp
      · split at hp
        next => cases hp
        next =>
          obtain rfl := List.mem_singleton.mp hp
          exact ⟨hkeys.1, hfixups⟩
    · obtain rfl := List.mem_singleton.mp hp
      exact ⟨hkeys.2, hlast⟩
  refine Spells.ofFields (e.partsWith last) hall ?_
  simp only [partsWith, front, maxElements, List.length_append]
  split <;> simp

theorem spells {e : Entry} (hf : e.fixups.length ≤ maxElements)
    (hi : (e.image.getD []).length < 2 ^ 64) :
    Spells e.encode (.map (e.parts.flatMap fun p => [.unsigned p.1, p.2.2])) 3 := by
  rw [encode_eq]
  exact spells_with hf (spells_picture hi)

theorem ofBytes_toList (f : Fingerprint) : Fingerprint.ofBytes f.toList = f := by
  ext i hi
  simp [Fingerprint.ofBytes]

theorem entry?_item (e : Entry) :
    Item.entry? (.map (e.parts.flatMap fun p => [.unsigned p.1, p.2.2])) = some e := by
  have hrecord : Item.record? (.map (e.parts.flatMap fun p => [.unsigned p.1, p.2.2])) =
      some (e.parts.map fun p => (Int64.ofInt p.1, p.2.2)) := Item.fields?_unsigned e.parts
  generalize hfs : (e.parts.map fun p => (Int64.ofInt p.1, p.2.2)) = fs at hrecord
  have hname : Item.field? (Item.bytes? 32) [] fs 1 = some e.fingerprint.toList :=
    Item.field?_of_lookup (by rw [← hfs]; rfl) rfl
  have hnumber {k n : Int64} (h : fs.lookup k = some (.ofInt n)) :
      Item.field? Item.int64? 0 fs k = some n := Item.field?_of_lookup h (Item.int64?_ofInt n)
  have hsource := hnumber (by rw [← hfs]; rfl : fs.lookup 2 = some (.ofInt e.sourceLen))
  have hnative := hnumber (by rw [← hfs]; rfl : fs.lookup 3 = some (.ofInt e.nativeLen))
  have hinstrs := hnumber (by rw [← hfs]; rfl : fs.lookup 4 = some (.ofInt e.instructions))
  have hrelocs := hnumber (by rw [← hfs]; rfl : fs.lookup 5 = some (.ofInt e.relocations))
  have hfixups : Item.field? Item.fixups? [] fs 6 = some e.fixups := by
    cases hf : e.fixups with
    | nil =>
        -- an empty list is left out, and missing fixups are none
        have hlookup : fs.lookup 6 = none := by
          rw [← hfs, parts, partsWith, hf]
          rfl
        rw [Item.field?, hlookup]
    | cons f rest =>
        refine Item.field?_of_lookup ?_ (Fixup.fixups?_array (f :: rest))
        rw [← hfs, parts, partsWith, hf]
        rfl
  have himage : Item.field? Item.image? none fs 7 = some e.image := by
    have hlookup : fs.lookup 7 = some (picture e.image).2 := by
      rw [← hfs, parts, partsWith]
      cases e.fixups <;> rfl
    refine Item.field?_of_lookup hlookup ?_
    cases e.image <;> rfl
  simp [Item.entry?, hrecord, hname, hsource, hnative, hinstrs, hrelocs, hfixups, himage,
    ofBytes_toList]

/-- An entry with as many fixups as an array may have is read back. -/
theorem decode_encode {e : Entry} (hf : e.fixups.length ≤ maxElements)
    (hi : (e.image.getD []).length < 2 ^ 64) : decode e.encode = some e := by
  rw [decode, (spells hf hi).read (by decide), Option.bind_some, entry?_item]

/-- With more fixups nothing is read. -/
theorem decode_encode_eq_none {e : Entry} (hlo : maxElements < e.fixups.length)
    (hhi : e.fixups.length < 2 ^ 64) : decode e.encode = none := by
  have hsome : e.fixups.isEmpty = false := by
    cases hf : e.fixups with
    | nil => rw [hf] at hlo; cases hlo
    | cons f fs => rfl
  have hbefore : ∀ q ∈ keyed e.front ++ [(head 0 6, Item.unsigned 6)], Spells q.1 q.2 2 := by
    intro q hq
    rcases List.mem_append.mp hq with hq | hq
    · exact Spells.keyed e.spells_front q hq
    · obtain rfl := List.mem_singleton.mp hq
      have hsix : (6 : Nat) < 2 ^ 64 := by decide
      exact (Spells.unsigned hsix).mono (by omega)
  have hstops : Stops (Cbor.ofArray (e.fixups.map Fixup.encode) ++
      (head 0 7 ++ (picture e.image).1)) :=
    Stops.ofArray (by simpa using hlo) (by simpa using hhi) _
  have hbytes : e.encode = head 5 7 ++
      ((keyed e.front ++ [(head 0 6, Item.unsigned 6)]).flatMap Prod.fst ++
        (Cbor.ofArray (e.fixups.map Fixup.encode) ++ (head 0 7 ++ (picture e.image).1))) := by
    rw [encode_eq, parts, partsWith, hsome]
    simp [Cbor.ofFields, front, keyed]
  rw [decode, hbytes, hstops.read hbefore (by decide) (by decide) (by simp [keyed, front])]
  rfl

/-- What is read of an image that is longer than can be said, as bytes and as an item. -/
def cutPicture (image : Bytes) : Bytes × Item :=
  (head 2 image.length ++ image.take (image.length % 2 ^ 64),
    .bytes (image.take (image.length % 2 ^ 64)))

/-- Such an image leaves bytes behind its end, and nothing is read. -/
theorem decode_encode_of_overlong {e : Entry} (hf : e.fixups.length ≤ maxElements)
    (hi : 2 ^ 64 ≤ (e.image.getD []).length) : decode e.encode = none := by
  cases himage : e.image with
  | none =>
      rw [himage] at hi
      exact absurd hi (by decide)
  | some image =>
      rw [himage, Option.getD_some] at hi
      have hlast : Spells (cutPicture image).1 (cutPicture image).2 2 :=
        (Spells.ofBytes_cut hi).mono (by omega)
      have hover : image.drop (image.length % 2 ^ 64) ≠ [] := by
        have hlt := Nat.mod_lt image.length (by decide : 2 ^ 64 > 0)
        rw [Ne, List.drop_eq_nil_iff]
        omega
      have hbytes : e.encode =
          Cbor.ofFields ((e.partsWith (cutPicture image)).map fun p => (p.1, p.2.1)) ++
            image.drop (image.length % 2 ^ 64) := by
        rw [encode_eq, parts, partsWith, partsWith, himage]
        simp [Cbor.ofFields, picture, cutPicture, Cbor.ofBytes]
      rw [decode, hbytes, (spells_with hf hlast).read_append (by decide) hover]
      rfl

end Entry

end StackCode.Cache
