import StackCode.Memory.Region
import StackCode.Proofs.Bytes

/-!
# Words in memory

A stored word is read back, and storing one leaves the words that it does not meet as they
were. `Region.Live` says which words a stack holds from its pointer upwards and how much
room there is below; the bytes below are not described. Pushing, popping, making room and
storing at a depth act on the list of words, and nothing stored below the pointer shows.
-/
namespace StackCode.Memory

theorem toList_store (bytes : Array UInt8) (i : Nat) (bs : Bytes) :
    (store bytes i bs).toList = Bytes.overwrite bytes.toList i bs := by
  induction bs generalizing bytes i with
  | nil => simp [store, Bytes.overwrite]
  | cons b bs ih =>
      rw [store, ih, Array.toList_setIfInBounds]
      apply List.ext_getElem?
      intro j
      simp only [Bytes.getElem?_overwrite, List.length_set, List.getElem?_set, List.length_cons]
      grind

theorem wordAt_eq (bytes : Array UInt8) (i : Nat) :
    wordAt bytes i = UInt64.ofNat (Bytes.toNat ((bytes.toList.drop i).take 8)) := by
  rw [wordAt, Array.toList_extract, List.extract_eq_take_drop, Nat.add_sub_cancel_left]

theorem wordAt_store (bytes : Array UInt8) {i : Nat} (v : UInt64) (h : i + 8 ≤ bytes.size) :
    wordAt (store bytes i (Bytes.ofWord64 v)) i = v := by
  have hfield : ((Bytes.overwrite bytes.toList i (Bytes.ofWord64 v)).drop i).take 8 =
      Bytes.ofWord64 v := by
    apply List.ext_getElem?
    intro j
    have hl : (Bytes.ofWord64 v).length = 8 := Bytes.length_ofWord64 v
    simp only [List.getElem?_take, List.getElem?_drop, Bytes.getElem?_overwrite, hl,
      Array.length_toList]
    grind
  have hv : v.toNat % Nat.pow 256 8 = v.toNat := Nat.mod_eq_of_lt v.toNat_lt
  rw [wordAt_eq, toList_store, hfield, Bytes.ofWord64, Bytes.toNat_ofNat, hv,
    UInt64.ofNat_toNat]

theorem wordAt_store_of_apart (bytes : Array UInt8) {i j : Nat} (v : UInt64)
    (h : i + 8 ≤ j ∨ j + 8 ≤ i) :
    wordAt (store bytes i (Bytes.ofWord64 v)) j = wordAt bytes j := by
  have hfield : ((Bytes.overwrite bytes.toList i (Bytes.ofWord64 v)).drop j).take 8 =
      (bytes.toList.drop j).take 8 := by
    apply List.ext_getElem?
    intro k
    have hl : (Bytes.ofWord64 v).length = 8 := Bytes.length_ofWord64 v
    simp only [List.getElem?_take, List.getElem?_drop, Bytes.getElem?_overwrite, hl]
    grind
  rw [wordAt_eq, wordAt_eq, toList_store, hfield]

namespace Region

@[simp] theorem base_put (r : Region) (i : Nat) (v : UInt64) : (r.put i v).base = r.base := by
  simp only [put]

@[simp] theorem bytes_put (r : Region) (i : Nat) (v : UInt64) :
    (r.put i v).bytes = store r.bytes i (Bytes.ofWord64 v) := by
  simp only [put]

@[simp] theorem size_put (r : Region) (i : Nat) (v : UInt64) :
    (r.put i v).bytes.size = r.bytes.size := by
  have := congrArg List.length (toList_store r.bytes i (Bytes.ofWord64 v))
  rw [Bytes.length_overwrite, Array.length_toList, Array.length_toList] at this
  rw [bytes_put, this]

@[simp] theorem index?_put (r : Region) (i : Nat) (v addr : UInt64) :
    (r.put i v).index? addr = r.index? addr := by
  rw [index?, index?, size_put, base_put]

theorem index?_base_add (r : Region) {i : Nat} (hi : i + 8 ≤ r.bytes.size)
    (hs : r.bytes.size < 2 ^ 64) : r.index? (r.base + UInt64.ofNat i) = some i := by
  have hsub : r.base + UInt64.ofNat i - r.base = UInt64.ofNat i := by
    rw [UInt64.add_comm, UInt64.add_sub_cancel]
  have hn : (UInt64.ofNat i).toNat = i :=
    UInt64.toNat_ofNat_of_lt' (Nat.lt_of_le_of_lt (by omega) hs)
  rw [index?, hsub, hn]
  exact if_pos hi

/-- The words of a stack from address `sp` upwards; `below` bytes of it lie in front. -/
structure Live (r : Region) (sp : UInt64) (below : Nat) (ws : List UInt64) : Prop where
  address : sp = r.base + UInt64.ofNat below
  fits : below + 8 * ws.length ≤ r.bytes.size
  small : r.bytes.size < 2 ^ 64
  words : ∀ k w, ws[k]? = some w → wordAt r.bytes (below + 8 * k) = w

namespace Live

variable {r : Region} {sp : UInt64} {below : Nat} {ws : List UInt64} {w : UInt64}

theorem address_add (h : Live r sp below ws) (k : Nat) :
    sp + UInt64.ofNat (8 * k) = r.base + UInt64.ofNat (below + 8 * k) := by
  rw [h.address, UInt64.ofNat_add, UInt64.add_assoc]

theorem index?_add (h : Live r sp below ws) {k : Nat} (hk : k < ws.length) :
    r.index? (sp + UInt64.ofNat (8 * k)) = some (below + 8 * k) := by
  have := h.fits
  rw [h.address_add]
  exact r.index?_base_add (by omega) h.small

theorem load?_add (h : Live r sp below ws) {k : Nat} (hk : ws[k]? = some w) :
    r.load? (sp + UInt64.ofNat (8 * k)) = some w := by
  have hlt : k < ws.length := (List.getElem?_eq_some_iff.mp hk).choose
  rw [load?, h.index?_add hlt, Option.map_some, h.words k w hk]

theorem load?_top (h : Live r sp below (w :: ws)) : r.load? sp = some w := by
  have := h.load?_add (k := 0) rfl
  simpa using this

theorem sub_eight (h : Live r sp (below + 8) ws) : sp - 8 = r.base + UInt64.ofNat below := by
  rw [h.address, UInt64.ofNat_add, ← UInt64.add_assoc]
  exact UInt64.add_sub_cancel _ _

theorem index?_sub (h : Live r sp (below + 8) ws) : r.index? (sp - 8) = some below := by
  have := h.fits
  rw [h.sub_eight]
  exact r.index?_base_add (by omega) h.small

/-- Storing below the pointer does not show. -/
theorem put_below (h : Live r sp below ws) {i : Nat} (hi : i + 8 ≤ below) (v : UInt64) :
    Live (r.put i v) sp below ws where
  address := by rw [base_put, h.address]
  fits := by rw [size_put]; simpa using h.fits
  small := by rw [size_put]; exact h.small
  words := by
    intro k w hk
    rw [bytes_put, wordAt_store_of_apart r.bytes v (.inl (by omega)), h.words k w hk]

/-- The pointer moves down over a word that is not known. -/
theorem grow (h : Live r sp (below + 8) ws) :
    Live r (sp - 8) below (wordAt r.bytes below :: ws) where
  address := h.sub_eight
  fits := by
    have := h.fits
    simp only [List.length_cons]
    omega
  small := h.small
  words := by
    intro k w hk
    cases k with
    | zero => simpa using hk
    | succ k =>
        rw [← h.words k w (by simpa using hk)]
        congr 1
        omega

theorem put_add (h : Live r sp below ws) {k : Nat} (hk : k < ws.length) (v : UInt64) :
    Live (r.put (below + 8 * k) v) sp below (ws.set k v) where
  address := by rw [base_put, h.address]
  fits := by rw [size_put]; simpa using h.fits
  small := by rw [size_put]; exact h.small
  words := by
    intro j w hj
    have := h.fits
    by_cases hkj : k = j
    · subst j
      rw [List.getElem?_set_self hk] at hj
      cases hj
      rw [bytes_put, wordAt_store r.bytes v (by omega)]
    · rw [List.getElem?_set_ne hkj] at hj
      rw [bytes_put, wordAt_store_of_apart r.bytes v (by omega), h.words j w hj]

theorem push (h : Live r sp (below + 8) ws) (v : UInt64) :
    Live (r.put below v) (sp - 8) below (v :: ws) := by
  have := h.grow.put_add (k := 0) (by simp) v
  simpa using this

theorem pop (h : Live r sp below (w :: ws)) : Live r (sp + 8) (below + 8) ws where
  address := by
    rw [h.address, UInt64.ofNat_add, ← UInt64.add_assoc]
    rfl
  fits := by
    have := h.fits
    simp only [List.length_cons] at this
    omega
  small := h.small
  words := by
    intro k v hk
    rw [← h.words (k + 1) v (by simpa using hk)]
    congr 1
    omega

end Live

end Region

namespace Space

/-- No word of the data lies in the stack. -/
def Apart (stack data : Region) : Prop :=
  ∀ addr, (data.index? addr).isSome → stack.index? addr = none

theorem load?_stack {m : Space} {addr v : UInt64} (h : m.stack.load? addr = some v) :
    m.load? addr = some v := by
  simp [load?, h]

theorem load?_data {m : Space} {addr v : UInt64} (ha : Apart m.stack m.data)
    (h : m.data.load? addr = some v) : m.load? addr = some v := by
  obtain ⟨i, hi, -⟩ := Option.map_eq_some_iff.mp h
  have hs : m.stack.load? addr = none := by
    rw [Region.load?, ha addr (by simp [hi])]
    rfl
  simp [load?, hs, h]

theorem store?_stack {m : Space} {addr : UInt64} {i : Nat} (h : m.stack.index? addr = some i)
    (v : UInt64) : m.store? addr v = some ⟨m.stack.put i v, m.data⟩ := by
  simp [store?, h]

theorem store?_data {m : Space} {addr : UInt64} {i : Nat} (ha : Apart m.stack m.data)
    (h : m.data.index? addr = some i) (v : UInt64) :
    m.store? addr v = some ⟨m.stack, m.data.put i v⟩ := by
  have hs := ha addr (by simp [h])
  simp [store?, hs, h]

end Space

end StackCode.Memory
