import StackCode.Bytecode.Machine
import StackCode.Proofs.Memory.Mapping

/-!
# Where a window can be

Absolute operands reach the addresses below two gibibytes. `Placement.Reachable` says in exact
arithmetic which windows lie there. The check takes the end of a window from 64-bit sums, so it
also lets through the windows at the end of the address space whose end wraps around to a small
number (`Placement.WrapsAround`). What then comes of a placement is up to the kernel. A reachable
window comes about exactly if its pages are given where they are wanted. Of those that wrap around
none can come about, whatever the kernel answers, but the ones that end with the last address.
-/
namespace StackCode.Memory

/-! ## Whole pages -/

/-- The bytes of the pages that `size` bytes need, in exact arithmetic. -/
def exactPages (size : Int) : Int := 4096 * ((size + 4095) / 4096)

/-- The same as 64-bit arithmetic has it: for the last sizes the sum that is divided wraps
around, and the quotient of what is left of it goes toward zero. -/
def wordPages (size : Int) : Int :=
  if size ≤ 2 ^ 63 - 4095 then exactPages size else 2 ^ 63 + 4096

theorem wordPages_bounds {size : Int} (hpos : 0 < size) (hhi : size < 2 ^ 63) :
    4096 ≤ exactPages size ∧ exactPages size ≤ wordPages size ∧
      wordPages size ≤ 2 ^ 63 + 4096 := by
  unfold wordPages exactPages
  split <;> omega

/-- Pages that end before the last sizes are exact. -/
theorem wordPages_eq {size : Int} (hpos : 0 < size) (hhi : size < 2 ^ 63)
    (h : exactPages size < 2 ^ 63 ∨ wordPages size < 2 ^ 63) :
    wordPages size = exactPages size := by
  unfold wordPages exactPages at *
  split at * <;> omega

theorem toNat_toUInt64 (x : Int64) : (x.toUInt64.toNat : Int) = x.toInt % 2 ^ 64 := by
  have hword : x.toUInt64.toNat = x.toBitVec.toNat := rfl
  have hlt := x.toBitVec.isLt
  rw [hword, ← Int64.toInt_toBitVec, BitVec.toInt_eq_toNat_bmod, Int.bmod_def]
  split <;> omega

theorem toNat_pageRounded {size : Int64} (h : 0 < size.toInt) :
    ((pageRounded size).toUInt64.toNat : Int) = wordPages size.toInt := by
  have hhi := size.toInt_lt
  rw [toNat_toUInt64, toInt_pageRounded_eq, toInt_page_sum h, tdiv_page, wordPages, exactPages]
  split <;> split <;> split <;> omega

theorem pageRounded_neg_iff {size : Int64} (hpos : 0 < size.toInt) :
    pageRounded size < 0 ↔ ¬ wordPages size.toInt < 2 ^ 63 := by
  have hlo := (pageRounded size).le_toInt
  have hhi := (pageRounded size).toInt_lt
  have hmod := toNat_toUInt64 (pageRounded size)
  have hword := toNat_pageRounded hpos
  have hneg : pageRounded size < 0 ↔ (pageRounded size).toInt < 0 := Int64.lt_iff_toInt_lt
  rw [hneg]
  omega

/-! ## The check -/

namespace Placement

def exactStop (p : Placement) : Int := p.base.toNat + exactPages p.size.toInt

/-- Some bytes at a page other than the first, all of their pages below two gibibytes. -/
structure Reachable (p : Placement) : Prop where
  positive : 0 < p.size.toInt
  nonzero : 0 < p.base.toNat
  aligned : 4096 ∣ p.base.toNat
  below : p.exactStop ≤ 2 ^ 31

/-- Some bytes at a page from which their pages go past the end of the 64-bit addresses, by two
gibibytes at most. -/
structure WrapsAround (p : Placement) : Prop where
  positive : 0 < p.size.toInt
  aligned : 4096 ∣ p.base.toNat
  past : 2 ^ 64 ≤ p.base.toNat + wordPages p.size.toInt
  near : p.base.toNat + wordPages p.size.toInt ≤ 2 ^ 64 + 2 ^ 31

variable {p : Placement}

theorem Reachable.wordPages_eq (h : p.Reachable) :
    wordPages p.size.toInt = exactPages p.size.toInt := by
  have hbelow := h.below
  rw [exactStop] at hbelow
  exact Memory.wordPages_eq h.positive p.size.toInt_lt (.inl (by omega))

theorem Reachable.not_wrapsAround (h : p.Reachable) : ¬ p.WrapsAround := by
  intro hw
  have hbelow := h.below
  have hpast := hw.past
  rw [h.wordPages_eq] at hpast
  rw [exactStop] at hbelow
  omega

theorem check_eq_ok_iff (p : Placement) :
    p.check = .ok () ↔
      0 < p.size.toInt ∧ 4096 ∣ p.base.toNat ∧ 0 < p.base.toNat ∧ p.stop.toNat ≤ 2 ^ 31 := by
  have hsize : p.size ≤ 0 ↔ p.size.toInt ≤ 0 := Int64.le_iff_toInt_le
  have hpage : p.base % 4096 ≠ 0 ↔ ¬ 4096 ∣ p.base.toNat := by
    rw [Nat.dvd_iff_mod_eq_zero, ne_eq, ← UInt64.toNat_inj, UInt64.toNat_mod]
    rfl
  have hzero : p.base = 0 ↔ p.base.toNat = 0 := UInt64.toNat_inj.symm
  have hlimit : limit < p.stop ↔ 2 ^ 31 < p.stop.toNat := UInt64.lt_iff_toNat_lt
  simp only [check, hsize, hpage, hzero, hlimit]
  by_cases hs : p.size.toInt ≤ 0
  · rw [if_pos hs]
    exact ⟨fun h => (nomatch h), fun h => by omega⟩
  rw [if_neg hs]
  by_cases ha : 4096 ∣ p.base.toNat
  · rw [if_neg (not_not_intro ha)]
    split
    next => exact ⟨fun h => (nomatch h), fun h => by omega⟩
    next => exact ⟨fun _ => ⟨by omega, ha, by omega, by omega⟩, fun _ => rfl⟩
  · rw [if_pos ha]
    exact ⟨fun h => (nomatch h), fun h => absurd h.2.1 ha⟩

theorem toNat_stop (h : 0 < p.size.toInt) :
    (p.stop.toNat : Int) = (p.base.toNat + wordPages p.size.toInt) % 2 ^ 64 := by
  rw [stop, UInt64.toNat_add, Int.natCast_emod, Int.natCast_add, toNat_pageRounded h]
  rfl

/-- The check accepts what can be reached, and what wraps around. -/
theorem check_eq_ok_iff_or : p.check = .ok () ↔ p.Reachable ∨ p.WrapsAround := by
  have hbase := p.base.toNat_lt
  rw [check_eq_ok_iff]
  constructor
  · rintro ⟨hpos, ha, hzero, hstop⟩
    have hpages := wordPages_bounds hpos p.size.toInt_lt
    have hword := toNat_stop hpos
    by_cases hpast : 2 ^ 64 ≤ p.base.toNat + wordPages p.size.toInt
    · exact .inr ⟨hpos, ha, hpast, by omega⟩
    · refine .inl ⟨hpos, hzero, ha, ?_⟩
      rw [exactStop]
      omega
  · rintro (h | h)
    · have hword := toNat_stop h.positive
      have hpages := wordPages_bounds h.positive p.size.toInt_lt
      have hbelow := h.below
      rw [h.wordPages_eq] at hword
      rw [exactStop] at hbelow
      exact ⟨h.positive, h.aligned, h.nonzero, by omega⟩
    · have hword := toNat_stop h.positive
      have hpages := wordPages_bounds h.positive p.size.toInt_lt
      have hpast := h.past
      have hnear := h.near
      exact ⟨h.positive, h.aligned, by omega, by omega⟩

def Covers (p : Placement) (a : Nat) : Prop := p.base.toNat ≤ a ∧ (a : Int) < p.exactStop

end Placement

/-! ## Mapping -/

namespace Window

def Covers (w : Window) (a : Nat) : Prop := w.base.toNat ≤ a ∧ a < w.base.toNat + w.size

variable {answer : UInt64 → UInt64 → Except String UInt64} {p : Placement} {w : Window}

/-- The window of so many bytes where a placement asks for it. -/
def blank (p : Placement) (length : Int) : Window :=
  ⟨p.base.toUInt32, Array.replicate length.toNat 0⟩

theorem covers_blank (h : p.Reachable) (a : Nat) :
    (blank p (exactPages p.size.toInt)).Covers a ↔ p.Covers a := by
  have hbelow := h.below
  have hpages := wordPages_bounds h.positive p.size.toInt_lt
  simp only [Covers, Placement.Covers, Placement.exactStop, blank, size, Array.size_replicate,
    UInt64.toNat_toUInt32] at hbelow ⊢
  omega

/-- A window comes about if the check accepts the placement, the kernel puts the pages there, and
there are as many addresses from there on. -/
theorem map_eq_ok_iff :
    map answer p = .ok w ↔ p.check = .ok () ∧
      answer p.base (pageRounded p.size).toUInt64 = .ok p.base ∧
      wordPages p.size.toInt < 2 ^ 63 ∧ p.base.toNat + wordPages p.size.toInt ≤ 2 ^ 64 ∧
      w = blank p (wordPages p.size.toInt) := by
  cases hc : p.check with
  | error f =>
      rw [map, hc]
      refine iff_of_false (fun h => nomatch h) ?_
      rintro ⟨h, -⟩
      cases h
  | ok u =>
      have hpos := ((Placement.check_eq_ok_iff p).mp hc).1
      have hword := toNat_pageRounded hpos
      have hlength : (pageRounded p.size).toUInt64.toNat = (wordPages p.size.toInt).toNat := by
        omega
      cases ha : answer p.base (pageRounded p.size).toUInt64 with
      | error reason =>
          simp only [map, hc, ha]
          refine iff_of_false (fun h => nomatch h) ?_
          rintro ⟨-, h, -⟩
          cases h
      | ok landed =>
          simp only [map, hc, ha, Except.mapError, bind, Except.bind, pageRounded_neg_iff hpos,
            hlength, Except.ok.injEq, true_and]
          by_cases hland : landed = p.base
          · rw [if_neg (not_not_intro hland)]
            split
            next hout => exact iff_of_false (fun h => nomatch h) fun h => by omega
            next hin =>
              rw [Except.ok.injEq]
              exact ⟨fun h => ⟨hland, by omega, by omega, h.symm⟩, fun h => h.2.2.2.symm⟩
          · rw [if_pos hland]
            exact iff_of_false (fun h => nomatch h) fun h => hland h.1

end Window

theorem exists_abs_address {a : Nat} (h : a < 2 ^ 31) :
    ∃ d : Int32, ∀ rs, (Bytecode.Cell.abs d).address rs = UInt64.ofNat a := by
  refine ⟨Int32.ofNat a, fun rs => UInt64.toNat_inj.mp ?_⟩
  have hd : (Int32.ofNat a).toInt = a := Int32.toInt_ofNat_of_lt h
  have haddress : ((Bytecode.Cell.abs (Int32.ofNat a)).address rs).toNat =
      ((Int32.ofNat a).toInt64.toUInt64).toNat := rfl
  have hword := toNat_toUInt64 (Int32.ofNat a).toInt64
  rw [Int32.toInt_toInt64, hd] at hword
  rw [haddress, UInt64.toNat_ofNat_of_lt' (Nat.lt_trans h (by decide))]
  omega

/-- The check accepts the reachable placements and, besides, those that wrap around. A reachable
window comes about exactly if the kernel gives the pages where they are wanted, and then absolute
cells reach all of it. One that wraps around could only come about at the very end of the
addresses. -/
theorem placement_check_verdict (p : Placement) :
    (p.check = .ok () ↔ p.Reachable ∨ p.WrapsAround) ∧ ¬ (p.Reachable ∧ p.WrapsAround) ∧
    ∀ answer, (p.Reachable → ((∃ w, Window.map answer p = .ok w) ↔
        answer p.base (UInt64.ofNat (exactPages p.size.toInt).toNat) = .ok p.base)) ∧
      ∀ w, Window.map answer p = .ok w →
        (p.WrapsAround ∧ p.exactStop = 2 ^ 64) ∨
        (p.Reachable ∧ ∀ a, (w.Covers a ↔ p.Covers a) ∧
          (w.Covers a → a < Placement.limit.toNat ∧
            ∃ d : Int32, ∀ rs, (Bytecode.Cell.abs d).address rs = UInt64.ofNat a)) := by
  refine ⟨Placement.check_eq_ok_iff_or, fun h => h.1.not_wrapsAround h.2, fun answer => ⟨?_, ?_⟩⟩
  · intro hr
    have hlength : (pageRounded p.size).toUInt64 =
        UInt64.ofNat (exactPages p.size.toInt).toNat := by
      rw [← hr.wordPages_eq, ← toNat_pageRounded hr.positive, Int.toNat_natCast,
        UInt64.ofNat_toNat]
    have hbelow := hr.below
    have hbase := hr.nonzero
    rw [Placement.exactStop] at hbelow
    simp only [Window.map_eq_ok_iff, hlength, hr.wordPages_eq]
    exact ⟨fun ⟨_, h⟩ => h.2.1, fun h =>
      ⟨_, Placement.check_eq_ok_iff_or.mpr (.inl hr), h, by omega, by omega, rfl⟩⟩
  · intro w hmap
    obtain ⟨hcheck, -, hsign, hroom, rfl⟩ := Window.map_eq_ok_iff.mp hmap
    have hpos := ((Placement.check_eq_ok_iff p).mp hcheck).1
    rw [wordPages_eq hpos p.size.toInt_lt (.inr hsign)] at hroom ⊢
    rcases Placement.check_eq_ok_iff_or.mp hcheck with hr | hw
    · refine .inr ⟨hr, fun a => ⟨Window.covers_blank hr a, fun ha => ?_⟩⟩
      have hbelow := hr.below
      have hlast := ((Window.covers_blank hr a).mp ha).2
      have hlt : a < 2 ^ 31 := by omega
      exact ⟨hlt, exists_abs_address hlt⟩
    · have hpast := hw.past
      rw [wordPages_eq hpos p.size.toInt_lt (.inr hsign)] at hpast
      exact .inl ⟨hw, by rw [Placement.exactStop]; omega⟩

/-- One byte at the last page below the end of the 64-bit addresses is accepted. -/
theorem check_accepts_last_page :
    let p : Placement := ⟨0xfffffffffffff000, 1⟩
    p.check = .ok () ∧ ¬ p.Reachable := by
  refine ⟨by decide, fun h => ?_⟩
  have hbelow := h.below
  revert hbelow
  decide

end StackCode.Memory
