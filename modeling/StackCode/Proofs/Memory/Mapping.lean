import Mathlib.Algebra.Ring.Int.Defs
import Mathlib.Algebra.Ring.Nat
import StackCode.Memory.Executable
import StackCode.Proofs.Bytes

/-!
# When code can be mapped

Sizes are rounded up to whole pages in 64-bit arithmetic. Where that wraps around, the rounded
size is not positive, and the kernel is not asked. In all other cases it is asked for the fewest
pages with room for the size, and its answer decides. Fresh pages can be filled and sealed, and
what they were filled with is what is entered.
-/
namespace StackCode.Memory

theorem bmod_of_word {n : Int} (hlo : -2 ^ 63 ≤ n) (hhi : n < 2 ^ 63) : n.bmod (2 ^ 64) = n :=
  Int.bmod_eq_of_le (by omega) (by omega)

/-- The sum that is divided into pages wraps around at most once. -/
theorem toInt_page_sum {size : Int64} (h : 0 < size.toInt) :
    (pageSize + size - 1).toInt =
      if size.toInt + 4095 < 2 ^ 63 then size.toInt + 4095 else size.toInt + 4095 - 2 ^ 64 := by
  have hhi := size.toInt_lt
  have hpage : pageSize.toInt = 4096 := rfl
  have hone : (1 : Int64).toInt = 1 := rfl
  rw [Int64.toInt_sub, Int64.toInt_add, hpage, hone, Int.bmod_sub_bmod, Int.bmod_def]
  split <;> split <;> omega

theorem tdiv_page (n : Int) : n.tdiv 4096 = if 0 ≤ n then n / 4096 else -(-n / 4096) := by
  split
  next h => exact Int.tdiv_eq_ediv_of_nonneg h
  next h => rw [← Int.tdiv_eq_ediv_of_nonneg (by omega), Int.neg_tdiv, Int.neg_neg]

/-- Dividing into pages and multiplying back does not wrap around. -/
theorem toInt_pageRounded_eq (size : Int64) :
    (pageRounded size).toInt = 4096 * (pageSize + size - 1).toInt.tdiv 4096 := by
  have hpage : pageSize.toInt = 4096 := rfl
  have hlo := (pageSize + size - 1).le_toInt
  have hhi := (pageSize + size - 1).toInt_lt
  have hquot := tdiv_page (pageSize + size - 1).toInt
  have hdiv : ((pageSize + size - 1) / pageSize).toInt =
      (pageSize + size - 1).toInt.tdiv 4096 := by
    rw [Int64.toInt_div, hpage]
    exact bmod_of_word (by omega) (by omega)
  rw [pageRounded, Int64.toInt_mul, hpage, hdiv]
  exact bmod_of_word (by omega) (by omega)

theorem toInt_pageRounded {size : Int64} (h : 0 < size.toInt) :
    if size.toInt + 4095 < 2 ^ 63 then
      (pageRounded size).toInt = 4096 * ((size.toInt + 4095) / 4096)
    else (pageRounded size).toInt ≤ 0 := by
  have hhi := size.toInt_lt
  rw [toInt_pageRounded_eq, toInt_page_sum h, tdiv_page]
  split <;> split <;> omega

/-- The whole pages that `size` bytes need. -/
def wholePages (size : Nat) : Nat := 4096 * ((size + 4095) / 4096)

/-- A number of bytes is the least one of whole pages with room for `size` bytes. -/
structure FewestPages (size capacity : Nat) : Prop where
  whole : 4096 ∣ capacity
  room : size ≤ capacity
  least : ∀ other, 4096 ∣ other → size ≤ other → capacity ≤ other

theorem fewestPages (size : Nat) : FewestPages size (wholePages size) where
  whole := Nat.dvd_mul_right 4096 _
  room := by
    unfold wholePages
    omega
  least other hpages hroom := by
    unfold wholePages
    obtain ⟨count, rfl⟩ := hpages
    omega

/-- The kernel has pages for so many bytes. It is asked for them, since rounding up does not wrap
around. -/
structure Kernel.Maps (k : Kernel) (size : Nat) : Prop where
  positive : 0 < size
  short : size + 4095 < 2 ^ 63
  found : ∃ base, k.map (wholePages size) = .ok base

namespace Kernel

theorem map_simple (code : UInt64) (taken : List Span) {size : Nat} (h : size ≤ addressSpace) :
    (simple code taken).map (wholePages size) = .ok code := by
  have hpages := (fewestPages size).least addressSpace (by decide) h
  exact if_neg (Nat.not_lt.mpr hpages)

theorem maps_simple (code : UInt64) (taken : List Span) {size : Nat} (hpos : 0 < size)
    (h : size ≤ addressSpace) : (simple code taken).Maps size where
  positive := hpos
  short := by
    have hend : addressSpace + 4095 < 2 ^ 63 := by decide
    omega
  found := ⟨code, map_simple code taken h⟩

end Kernel

namespace Executable

variable {answer : Nat → Except String UInt64} {size : Int64}

/-- Where rounding does not wrap around, the kernel is asked for the fewest pages. Otherwise it
is not asked at all. -/
theorem map_eq (answer : Nat → Except String UInt64) (size : Int64) :
    map answer size =
      if size.toInt ≤ 0 then .error (.nothingToMap size)
      else if 2 ^ 63 ≤ size.toInt + 4095 then .error (.refused badLength)
      else
        match answer (wholePages size.toInt.toNat) with
        | .error reason => .error (.refused reason)
        | .ok base => .ok (blank base (wholePages size.toInt.toNat) size.toInt.toNat) := by
  have hrounded : (size + pageSize - 1) / pageSize * pageSize = pageRounded size := by
    rw [pageRounded, Int64.add_comm, Int64.mul_comm]
  have hle (n : Int64) : n ≤ 0 ↔ n.toInt ≤ 0 := Int64.le_iff_toInt_le
  simp only [map, hrounded, hle]
  by_cases hpos : size.toInt ≤ 0
  · rw [if_pos hpos, if_pos hpos]
  · have hround := toInt_pageRounded (Int.not_le.mp hpos)
    rw [if_neg hpos, if_neg hpos]
    split at hround
    next hfit =>
      have hpages : (pageRounded size).toNatClampNeg = wholePages size.toInt.toNat := by
        unfold Int64.toNatClampNeg wholePages
        omega
      rw [if_neg (by omega), if_neg (by omega), hpages]
      rfl
    next hwrap => rw [if_pos hround, if_pos (by omega)]

theorem map_eq_ok_iff {m : Executable} :
    map answer size = .ok m ↔ 0 < size.toInt ∧ size.toInt + 4095 < 2 ^ 63 ∧
      ∃ base, answer (wholePages size.toInt.toNat) = .ok base ∧
        m = blank base (wholePages size.toInt.toNat) size.toInt.toNat := by
  rw [map_eq]
  split
  next hneg => exact iff_of_false (fun h => nomatch h) fun h => by omega
  next hpos =>
    split
    next hwrap => exact iff_of_false (fun h => nomatch h) fun h => by omega
    next hfit =>
      cases answer (wholePages size.toInt.toNat) with
      | error reason => exact iff_of_false (fun h => nomatch h) fun ⟨_, _, _, h, _⟩ => nomatch h
      | ok base =>
          constructor
          · intro h
            cases h
            exact ⟨Int.not_le.mp hpos, Int.not_le.mp hfit, base, rfl, rfl⟩
          · rintro ⟨-, -, _, hbase, rfl⟩
            cases hbase
            rfl

theorem map_cases (k : Kernel) (size : Int64) :
    (¬ k.Maps size.toNatClampNeg ∧ ∃ f, map k.map size = .error f ∧
      ∃ failure, f.failure? = some failure) ∨
    k.Maps size.toNatClampNeg ∧ ∃ base, k.map (wholePages size.toNatClampNeg) = .ok base ∧
      map k.map size = .ok (blank base (wholePages size.toNatClampNeg) size.toNatClampNeg) := by
  have hmap := map_eq k.map size
  unfold Int64.toNatClampNeg
  split at hmap
  next hneg => exact .inl ⟨fun h => by have := h.positive; omega, _, hmap, _, rfl⟩
  next hpos =>
    split at hmap
    next hwrap => exact .inl ⟨fun h => by have := h.short; omega, _, hmap, _, rfl⟩
    next hfit =>
      split at hmap
      next reason hno =>
        refine .inl ⟨fun h => ?_, _, hmap, _, rfl⟩
        obtain ⟨base, hbase⟩ := h.found
        cases hno.symm.trans hbase
      next base hbase => exact .inr ⟨⟨by omega, by omega, base, hbase⟩, base, hbase, hmap⟩

theorem protect_reported {m : Executable} {refusal : Option String} {f : CodeFault}
    (h : m.protect refusal = .error f) : ∃ failure, f.failure? = some failure := by
  unfold protect at h
  split at h
  next =>
    cases h
    exact ⟨_, rfl⟩
  next =>
    split at h
    next => cases h
    next =>
      split at h
      next =>
        cases h
        exact ⟨_, rfl⟩
      next => cases h

/-! ## Filled pages -/

/-- Memory with `bs` at the start of its pages, sealed. -/
def filled (base : UInt64) (bs : Bytes) : Executable where
  buffer := some ⟨base, wholePages bs.length⟩
  size := bs.length
  isSealed := true
  pages := some ⟨Bytes.overwrite (List.replicate (wholePages bs.length) 0) 0 bs, ⟨false, true⟩⟩

section
variable (base : UInt64) (bs : Bytes)

theorem bytes?_blank (size : Nat) :
    (blank base (wholePages size) size).bytes? = some (List.replicate size 0) := by
  have hroom := (fewestPages size).room
  simp [bytes?, blank, List.take_replicate, Nat.min_eq_left hroom]

theorem write_blank (capacity size : Nat) : ∃ p : Pages,
    (blank base capacity size).write 0 bs =
      .ok { blank base capacity size with pages := some p } := by
  unfold write
  split
  next => exact ⟨_, rfl⟩
  next => exact ⟨_, rfl⟩

/-- Filling fresh pages with as many bytes as they are for, and sealing them. -/
theorem protect_write_blank {m : Executable}
    (h : (blank base (wholePages bs.length) bs.length).write 0 bs = .ok m) :
    m.protect none = .ok (filled base bs) := by
  have hroom : (blank base (wholePages bs.length) bs.length).room 0 bs = bs.length := by
    simp [room, bytes?_blank]
  unfold write at h
  rw [hroom, List.take_length] at h
  split at h
  next hnone =>
    cases h
    rw [List.length_eq_zero_iff] at hnone
    subst hnone
    rfl
  next =>
    cases h
    rfl

theorem take_overwrite_front {size : Nat} (h : bs.length ≤ size) :
    (Bytes.overwrite (List.replicate size 0) 0 bs).take bs.length = bs := by
  rw [Bytes.overwrite_front (by rwa [List.length_replicate]), List.take_left]

theorem bytes?_filled : (filled base bs).bytes? = some bs :=
  congrArg some (take_overwrite_front bs (fewestPages bs.length).room)

theorem call_filled {base : UInt64} (hbase : base ≠ 0) {bs : Bytes} (hbs : bs ≠ []) :
    (filled base bs).call = .ok ⟨base, bs⟩ := by
  have hroom := (fewestPages bs.length).room
  have hpos := List.length_pos_iff.mpr hbs
  have haddress : (filled base bs).address = base := if_neg (by simp only; omega)
  rw [call, haddress, if_neg hbase]
  simp only [filled, if_true, take_overwrite_front bs hroom]

end

end Executable

end StackCode.Memory
