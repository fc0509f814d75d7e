import StackCode.Cache.Cbor
import StackCode.Proofs.Bytes

/-!
# Data items are read back

What is written as a number, a byte string, an array or a record is read back as that item,
whatever follows it. Each step of reading takes at least one byte, so that fuel of four times
the length is enough at every level. An array with too many elements is not read at all.
-/
namespace StackCode.Cache

/-- The item that a 64-bit integer is written as. -/
def Item.ofInt (n : Int64) : Item :=
  if 0 ≤ n then .unsigned n.toInt.toNat else .negative (-1 - n.toInt).toNat

namespace Cbor

/-! ## Heads -/

theorem toNat_first {kind info : Nat} (hk : kind < 8) (hi : info < 32) :
    (UInt8.ofNat (32 * kind + info)).toNat = 32 * kind + info := by
  rw [UInt8.toNat_ofNat']
  omega

theorem readHead_short {kind info : Nat} (hk : kind < 7) (hi : info < 24) (rest : Bytes) :
    readHead (UInt8.ofNat (32 * kind + info) :: rest) = some (⟨kind, info, info⟩, rest) := by
  have hkind : (32 * kind + info) / 32 = kind := by omega
  have hinfo : (32 * kind + info) % 32 = info := by omega
  have hextra : extraBytes info = some 0 := if_pos (.inl hi)
  have hdefinite : ¬(info = 31 ∧ (kind < 2 ∨ 6 ≤ kind)) := by omega
  simp only [readHead, toNat_first (by omega : kind < 8) (by omega : info < 32), hkind, hinfo,
    hextra, if_neg hdefinite]

theorem readHead_long {kind info n : Nat} (hk : kind < 7) (hlo : 24 ≤ info) (hhi : info < 28)
    (hn : n < 256 ^ 2 ^ (info - 24)) (rest : Bytes) :
    readHead (UInt8.ofNat (32 * kind + info) :: (bigEndian (2 ^ (info - 24)) n ++ rest)) =
      some (⟨kind, info, n⟩, rest) := by
  have hkind : (32 * kind + info) / 32 = kind := by omega
  have hinfo : (32 * kind + info) % 32 = info := by omega
  have hextra : extraBytes info = some (2 ^ (info - 24)) := by
    rw [extraBytes, if_neg (by omega), if_pos hhi]
    rfl
  have hlen : (bigEndian (2 ^ (info - 24)) n).length = 2 ^ (info - 24) := by simp [bigEndian]
  have htake : Bytes.take? (2 ^ (info - 24)) (bigEndian (2 ^ (info - 24)) n ++ rest) =
      some (bigEndian (2 ^ (info - 24)) n) := by
    simpa only [hlen] using Bytes.take?_append (bigEndian (2 ^ (info - 24)) n) rest
  have hvalue : Bytes.toNat (bigEndian (2 ^ (info - 24)) n).reverse = n := by
    rw [bigEndian, List.reverse_reverse, Bytes.toNat_ofNat]
    exact Nat.mod_eq_of_lt hn
  have hdrop : (bigEndian (2 ^ (info - 24)) n ++ rest).drop (2 ^ (info - 24)) = rest :=
    List.drop_left' hlen
  obtain ⟨w, hw⟩ : ∃ w, 2 ^ (info - 24) = w + 1 :=
    Nat.exists_eq_succ_of_ne_zero (Nat.pos_iff_ne_zero.mp (Nat.two_pow_pos _))
  rw [hw] at hextra htake hdrop hvalue ⊢
  simp only [readHead, toNat_first (by omega : kind < 8) (by omega : info < 32), hkind, hinfo,
    hextra, htake, hdrop, hvalue, if_neg (by omega : ¬(kind = 7 ∧ info = 24 ∧ n < 32))]

/-- A head is read back; it never says that a length is indefinite. -/
theorem readHead_head {kind n : Nat} (hk : kind < 7) (hn : n < 2 ^ 64) (rest : Bytes) :
    ∃ info, info ≠ 31 ∧ readHead (head kind n ++ rest) = some (⟨kind, info, n⟩, rest) := by
  simp only [head]
  split
  next hlt => exact ⟨n, by omega, readHead_short hk hlt rest⟩
  next =>
    split
    next hlt => exact ⟨24, by omega, readHead_long hk (by omega) (by omega) hlt rest⟩
    next =>
      split
      next hlt => exact ⟨25, by omega, readHead_long hk (by omega) (by omega) hlt rest⟩
      next =>
        split
        next hlt => exact ⟨26, by omega, readHead_long hk (by omega) (by omega) hlt rest⟩
        next => exact ⟨27, by omega, readHead_long hk (by omega) (by omega) hn rest⟩

/-- A number too large for any head is read modulo `2 ^ 64`. -/
theorem readHead_head_wraps {kind n : Nat} (hk : kind < 7) (hn : 2 ^ 64 ≤ n) (rest : Bytes) :
    readHead (head kind n ++ rest) = some (⟨kind, 27, n % 2 ^ 64⟩, rest) := by
  have hlow : bigEndian 8 n = bigEndian 8 (n % 2 ^ 64) :=
    congrArg List.reverse (Bytes.ofNat_mod 8 n).symm
  have hwide : head kind n = UInt8.ofNat (32 * kind + 27) :: bigEndian 8 (n % 2 ^ 64) := by
    simp only [head]
    rw [if_neg (by omega), if_neg (by omega), if_neg (by omega), if_neg (by omega), hlow]
  rw [hwide]
  exact readHead_long hk (by omega) (by omega) (Nat.mod_lt n (by omega)) rest

theorem length_head_pos (kind n : Nat) : 0 < (head kind n).length := by
  simp only [head]
  repeat' split
  all_goals exact Nat.zero_lt_succ _

/-! ## Items -/

/-- The keys and values of a record in turn, as bytes and as items. -/
def keyed (parts : List (Nat × Bytes × Item)) : List (Bytes × Item) :=
  parts.flatMap fun p => [(head 0 p.1, .unsigned p.1), p.2]

/-- The bytes are read as the item, which has so many levels of contents. -/
structure Spells (bs : Bytes) (i : Item) (levels : Nat) : Prop where
  pos : 0 < bs.length
  reads : ∀ fuel depth rest, 4 * bs.length ≤ fuel → depth + levels ≤ maxNesting →
    readItem fuel depth (bs ++ rest) = some (i, rest)

namespace Spells

variable {levels : Nat}

theorem mono {bs : Bytes} {i : Item} {more : Nat} (h : Spells bs i levels)
    (hle : levels ≤ more) : Spells bs i more where
  pos := h.pos
  reads fuel depth rest hf hd := h.reads fuel depth rest hf (by omega)

theorem leaf {kind n : Nat} (hk : kind < 2) (hn : n < 2 ^ 64) :
    Spells (head kind n) (if kind = 0 then .unsigned n else .negative n) 0 where
  pos := length_head_pos kind n
  reads fuel depth rest hf hd := by
    have hpos := length_head_pos kind n
    obtain ⟨fuel, rfl⟩ := Nat.exists_eq_succ_of_ne_zero (by omega : fuel ≠ 0)
    obtain ⟨info, -, hread⟩ := readHead_head (by omega : kind < 7) hn rest
    rcases (by omega : kind = 0 ∨ kind = 1) with rfl | rfl
    · simp [readItem, hread, Cbor.leaf]
    · simp [readItem, hread, Cbor.leaf]

theorem unsigned {n : Nat} (hn : n < 2 ^ 64) : Spells (head 0 n) (.unsigned n) 0 :=
  leaf (by omega) hn

theorem ofInt (n : Int64) : Spells (Cbor.ofInt n) (Item.ofInt n) 0 := by
  have hlo := n.le_toInt
  have hhi := n.toInt_lt
  unfold Cbor.ofInt Item.ofInt
  split
  next h => exact unsigned (by omega)
  next h => exact leaf (by omega) (by omega)

theorem ofBytes {bs : Bytes} (hn : bs.length < 2 ^ 64) : Spells (Cbor.ofBytes bs) (.bytes bs) 0 where
  pos := by
    have := length_head_pos 2 bs.length
    simp only [Cbor.ofBytes, List.length_append]
    omega
  reads fuel depth rest hf hd := by
    have hpos := length_head_pos 2 bs.length
    simp only [Cbor.ofBytes, List.length_append] at hf
    obtain ⟨fuel, rfl⟩ := Nat.exists_eq_succ_of_ne_zero (by omega : fuel ≠ 0)
    obtain ⟨info, hinfo, hread⟩ := readHead_head (by omega : 2 < 7) hn (bs ++ rest)
    simp [readItem, Cbor.ofBytes, hread, readString, Head.indefinite, hinfo]

/-- Of a byte string that is longer than a head can say, only the beginning is read. -/
theorem ofBytes_cut {bs : Bytes} (hn : 2 ^ 64 ≤ bs.length) :
    Spells (head 2 bs.length ++ bs.take (bs.length % 2 ^ 64))
      (.bytes (bs.take (bs.length % 2 ^ 64))) 0 where
  pos := by
    have := length_head_pos 2 bs.length
    rw [List.length_append]
    omega
  reads fuel depth rest hf hd := by
    have hpos := length_head_pos 2 bs.length
    have hlen : (bs.take (bs.length % 2 ^ 64)).length = bs.length % 2 ^ 64 :=
      List.length_take_of_le (Nat.mod_le _ _)
    rw [List.length_append] at hf
    obtain ⟨fuel, rfl⟩ := Nat.exists_eq_succ_of_ne_zero (by omega : fuel ≠ 0)
    generalize bs.take (bs.length % 2 ^ 64) = front at hlen ⊢
    have hread := readHead_head_wraps (by omega : 2 < 7) hn (front ++ rest)
    rw [← hlen] at hread
    simp [readItem, hread, readString, Head.indefinite]

theorem null : Spells Cbor.null (.simple 22) 0 where
  pos := Nat.zero_lt_one
  reads fuel depth rest hf _ := by
    cases fuel with
    | zero => exact absurd hf (by decide)
    | succ fuel => rfl

theorem readMany {parts : List (Bytes × Item)} (h : ∀ p ∈ parts, Spells p.1 p.2 levels)
    {fuel depth : Nat} (rest : Bytes) (hf : 4 * (parts.flatMap Prod.fst).length < fuel)
    (hd : depth + levels ≤ maxNesting) :
    Cbor.readMany fuel depth parts.length (parts.flatMap Prod.fst ++ rest) =
      some (parts.map Prod.snd, rest) := by
  induction parts generalizing fuel with
  | nil => cases fuel <;> rfl
  | cons p parts ih =>
      obtain ⟨fuel, rfl⟩ := Nat.exists_eq_succ_of_ne_zero (by omega : fuel ≠ 0)
      have hp := h p (.head _)
      have hpos := hp.pos
      simp only [List.flatMap_cons, List.length_append] at hf
      have hless : 4 * (parts.flatMap Prod.fst).length < fuel := by omega
      have hrest := ih (fun q hq => h q (.tail _ hq)) hless
      simp [Cbor.readMany, hp.reads fuel depth _ (by omega) hd, hrest]

theorem readContents {parts : List (Bytes × Item)} (h : ∀ p ∈ parts, Spells p.1 p.2 levels)
    {kind info count width : Nat} (hinfo : info ≠ 31) (hcount : count ≤ maxElements)
    (hwidth : parts.length = width * count) {fuel depth : Nat} (rest : Bytes)
    (hf : 4 * (parts.flatMap Prod.fst).length + 1 < fuel) (hd : depth + levels ≤ maxNesting) :
    Cbor.readContents fuel depth ⟨kind, info, count⟩ width (parts.flatMap Prod.fst ++ rest) =
      some (parts.map Prod.snd, rest) := by
  obtain ⟨fuel, rfl⟩ := Nat.exists_eq_succ_of_ne_zero (by omega : fuel ≠ 0)
  have hmany := readMany h rest (by omega : _ < fuel) hd
  rw [hwidth] at hmany
  simp only [Cbor.readContents, Head.indefinite, beq_iff_eq, if_neg hinfo,
    if_neg (by omega : ¬maxNesting < depth), if_neg (Nat.not_lt.mpr hcount), hmany]

/-- A head and contents, one item to an element of an array and two to one of a map. -/
theorem contents {parts : List (Bytes × Item)} (h : ∀ p ∈ parts, Spells p.1 p.2 levels)
    {kind count : Nat} (hk : kind = 4 ∨ kind = 5) (hcount : count ≤ maxElements)
    (hlen : parts.length = (kind - 3) * count) :
    Spells (head kind count ++ parts.flatMap Prod.fst)
      (if kind = 4 then .array (parts.map Prod.snd) else .map (parts.map Prod.snd))
      (levels + 1) where
  pos := by
    have := length_head_pos kind count
    rw [List.length_append]
    omega
  reads fuel depth rest hf hd := by
    have hpos := length_head_pos kind count
    have hbound : maxElements < 2 ^ 64 := by decide
    rw [List.length_append] at hf
    obtain ⟨fuel, rfl⟩ := Nat.exists_eq_succ_of_ne_zero (by omega : fuel ≠ 0)
    obtain ⟨info, hinfo, hread⟩ := readHead_head (by omega : kind < 7)
      (Nat.lt_of_le_of_lt hcount hbound) (parts.flatMap Prod.fst ++ rest)
    have hcontents : Cbor.readContents fuel (depth + 1) ⟨kind, info, count⟩ (kind - 3)
        (parts.flatMap Prod.fst ++ rest) = some (parts.map Prod.snd, rest) :=
      readContents h hinfo hcount hlen rest (by omega) (by omega)
    rcases hk with rfl | rfl
    · simp [readItem, hread, hcontents]
    · simp [readItem, hread, hcontents]

theorem ofArray (parts : List (Bytes × Item)) (h : ∀ p ∈ parts, Spells p.1 p.2 levels)
    (hn : parts.length ≤ maxElements) :
    Spells (Cbor.ofArray (parts.map Prod.fst)) (.array (parts.map Prod.snd)) (levels + 1) := by
  have hall := contents h (.inl rfl) hn (Nat.one_mul _).symm
  rwa [List.flatMap_def, ← List.length_map Prod.fst] at hall

theorem keyed {parts : List (Nat × Bytes × Item)}
    (h : ∀ p ∈ parts, p.1 < 2 ^ 64 ∧ Spells p.2.1 p.2.2 levels) :
    ∀ q ∈ Cbor.keyed parts, Spells q.1 q.2 levels := by
  intro q hq
  obtain ⟨p, hp, hq⟩ := List.mem_flatMap.mp hq
  simp only [List.mem_cons, List.not_mem_nil, or_false] at hq
  rcases hq with rfl | rfl
  · exact (unsigned (h p hp).1).mono (Nat.zero_le _)
  · exact (h p hp).2

theorem ofFields (parts : List (Nat × Bytes × Item))
    (h : ∀ p ∈ parts, p.1 < 2 ^ 64 ∧ Spells p.2.1 p.2.2 levels) (hn : parts.length ≤ maxElements) :
    Spells (Cbor.ofFields (parts.map fun p => (p.1, p.2.1)))
      (.map (parts.flatMap fun p => [.unsigned p.1, p.2.2])) (levels + 1) := by
  have hlen : (Cbor.keyed parts).length = 2 * parts.length := by
    simp [Cbor.keyed, List.length_flatMap, List.map_const', Nat.mul_comm]
  have hall := contents (keyed h) (.inr rfl) hn hlen
  simpa [Cbor.ofFields, Cbor.keyed, List.flatMap_assoc, List.map_flatMap, List.flatMap_map]
    using hall

end Spells

/-! ## What is not read -/

/-- The reader stops at these bytes, whatever its fuel. -/
def Stops (bs : Bytes) : Prop := ∀ fuel depth, readItem fuel depth bs = none

theorem Stops.ofArray {items : List Bytes} (hlo : maxElements < items.length)
    (hhi : items.length < 2 ^ 64) (rest : Bytes) : Stops (Cbor.ofArray items ++ rest) := by
  intro fuel depth
  obtain ⟨info, hinfo, hread⟩ := readHead_head (by omega : 4 < 7) hhi (items.flatten ++ rest)
  cases fuel with
  | zero => rfl
  | succ fuel =>
      have hcontents : readContents fuel (depth + 1) ⟨4, info, items.length⟩ 1
          (items.flatten ++ rest) = none := by
        cases fuel with
        | zero => rfl
        | succ fuel =>
            simp only [readContents, Head.indefinite, beq_iff_eq, if_neg hinfo, if_pos hlo]
            split <;> rfl
      simp [readItem, Cbor.ofArray, hread, hcontents]

theorem Stops.readMany {parts : List (Bytes × Item)} {levels : Nat}
    (h : ∀ p ∈ parts, Spells p.1 p.2 levels) {bs : Bytes} (hs : Stops bs) {fuel depth n : Nat}
    (hlen : parts.length < n) (hf : 4 * (parts.flatMap Prod.fst).length < fuel)
    (hd : depth + levels ≤ maxNesting) :
    Cbor.readMany fuel depth n (parts.flatMap Prod.fst ++ bs) = none := by
  obtain ⟨n, rfl⟩ := Nat.exists_eq_succ_of_ne_zero (by omega : n ≠ 0)
  obtain ⟨fuel, rfl⟩ := Nat.exists_eq_succ_of_ne_zero (by omega : fuel ≠ 0)
  induction parts generalizing fuel n with
  | nil => simp [Cbor.readMany, hs fuel depth]
  | cons p parts ih =>
      have hp := h p (.head _)
      have hpos := hp.pos
      simp only [List.length_cons] at hlen
      simp only [List.flatMap_cons, List.length_append] at hf
      obtain ⟨n, rfl⟩ := Nat.exists_eq_succ_of_ne_zero (by omega : n ≠ 0)
      have hread := hp.reads fuel depth (parts.flatMap Prod.fst ++ bs) (by omega) hd
      obtain ⟨fuel, rfl⟩ := Nat.exists_eq_succ_of_ne_zero (by omega : fuel ≠ 0)
      have hrest := ih (fun q hq => h q (.tail _ hq)) n (by omega) fuel (by omega)
      rw [Cbor.readMany]
      simp [hread, hrest]

theorem Stops.read {parts : List (Bytes × Item)} {levels : Nat}
    (h : ∀ p ∈ parts, Spells p.1 p.2 levels) (hl : levels < maxNesting) {bs : Bytes}
    (hs : Stops bs) {count : Nat} (hcount : count ≤ maxElements) (hlen : parts.length < 2 * count) :
    Cbor.read (head 5 count ++ (parts.flatMap Prod.fst ++ bs)) = none := by
  have hpos := length_head_pos 5 count
  have hbound : maxElements < 2 ^ 64 := by decide
  obtain ⟨info, hinfo, hread⟩ := readHead_head (by omega : 5 < 7)
    (Nat.lt_of_le_of_lt hcount hbound) (parts.flatMap Prod.fst ++ bs)
  have hitem : ∀ fuel, 4 * (parts.flatMap Prod.fst).length + 1 < fuel →
      readItem (fuel + 1) 0 (head 5 count ++ (parts.flatMap Prod.fst ++ bs)) = none := by
    intro fuel hf
    obtain ⟨fuel, rfl⟩ := Nat.exists_eq_succ_of_ne_zero (by omega : fuel ≠ 0)
    have hmany : Cbor.readMany fuel (0 + 1) (2 * count) (parts.flatMap Prod.fst ++ bs) = none :=
      hs.readMany h hlen (by omega) (by omega)
    simp [readItem, hread, readContents, Head.indefinite, hinfo, hmany]
  rw [Cbor.read, hitem _ (by simp only [List.length_append]; omega)]

theorem Spells.read {bs : Bytes} {i : Item} {levels : Nat} (h : Spells bs i levels)
    (hl : levels ≤ maxNesting) : Cbor.read bs = some i := by
  have hread := h.reads (4 * bs.length + 4) 0 [] (by omega) (by omega)
  rw [List.append_nil] at hread
  rw [Cbor.read, hread]

theorem Spells.read_append {bs : Bytes} {i : Item} {levels : Nat} (h : Spells bs i levels)
    (hl : levels ≤ maxNesting) {rest : Bytes} (hrest : rest ≠ []) :
    Cbor.read (bs ++ rest) = none := by
  have hread := h.reads (4 * (bs ++ rest).length + 4) 0 rest
    (by rw [List.length_append]; omega) (by omega)
  rw [Cbor.read, hread]
  cases rest with
  | nil => exact absurd rfl hrest
  | cons b rest => rfl

end Cbor
end StackCode.Cache
