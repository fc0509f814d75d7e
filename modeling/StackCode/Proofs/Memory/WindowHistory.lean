import Mathlib.Data.List.Induction
import StackCode.Proofs.Memory.Words

/-!
# What a window holds after any use

A window is used by reading and writing words at 32-bit addresses, aligned or not. Whether an
access is let through depends on its address alone, and what is let through lies in the bytes of
the window. After any history of reads and writes, the byte at an address is that of the last
write that was let through and lies over it, and the byte from before if there is none. A read
gives the word of eight such bytes.
-/
namespace StackCode.Memory

/-- Byte `k` of a word, counted from the least significant one. -/
def byteOf (v : UInt64) (k : Nat) : UInt8 := UInt8.ofNat (v.toNat / 256 ^ k)

theorem getElem?_ofWord64 (v : UInt64) {k : Nat} (h : k < 8) :
    (Bytes.ofWord64 v)[k]? = some (byteOf v k) := by
  rw [Bytes.ofWord64, Bytes.getElem?_ofNat, if_pos h, byteOf]

theorem eq_of_byteOf {u v : UInt64} (h : ∀ k < 8, byteOf u k = byteOf v k) : u = v := by
  have hbytes : Bytes.ofWord64 u = Bytes.ofWord64 v := by
    apply List.ext_getElem?
    intro k
    by_cases hk : k < 8
    · rw [getElem?_ofWord64 u hk, getElem?_ofWord64 v hk, h k hk]
    · rw [List.getElem?_eq_none (by rw [Bytes.length_ofWord64]; omega),
        List.getElem?_eq_none (by rw [Bytes.length_ofWord64]; omega)]
  have hword := Bytes.word64?_ofWord64 u []
  rw [hbytes, Bytes.word64?_ofWord64] at hword
  exact (Option.some.inj hword).symm

theorem byteOf_wordAt {bytes : Array UInt8} {i k : Nat} (h : i + 8 ≤ bytes.size) (hk : k < 8) :
    some (byteOf (wordAt bytes i) k) = bytes[i + k]? := by
  have hlen : ((bytes.toList.drop i).take 8).length = 8 := Bytes.length_slice (by simpa using h)
  rw [← getElem?_ofWord64 _ hk, wordAt_eq, Bytes.ofWord64_toNat hlen, List.getElem?_take_of_lt hk,
    List.getElem?_drop, Array.getElem?_toList]

namespace Window

/-- The eight bytes from `addr` on are bytes of the window, in exact arithmetic. -/
def Inside (w : Window) (addr : UInt32) : Prop :=
  w.base.toNat ≤ addr.toNat ∧ addr.toNat + 8 ≤ w.base.toNat + w.size

instance (w : Window) (addr : UInt32) : Decidable (w.Inside addr) :=
  inferInstanceAs (Decidable (_ ∧ _))

/-- The byte at an address of the window. -/
def byteAt? (w : Window) (a : Nat) : Option UInt8 :=
  if w.base.toNat ≤ a then w.bytes[a - w.base.toNat]? else none

def Addressable (w : Window) : Prop := w.base.toNat + w.size ≤ 2 ^ 32

variable {w : Window} {addr : UInt32}

/-! ## One access -/

/-- The sums of the guard do not wrap around. -/
theorem contains_iff (hw : w.Addressable) : w.contains addr 8 = true ↔ w.Inside addr := by
  have haddr := addr.toNat_lt
  have hsize : (UInt64.ofNat w.size).toNat = w.size := by
    apply UInt64.toNat_ofNat_of_lt'
    unfold Addressable at hw
    exact Nat.lt_of_le_of_lt (Nat.le_trans (Nat.le_add_left _ _) hw) (by decide)
  have hend : (addr.toUInt64 + 8).toNat = addr.toNat + 8 := by
    rw [UInt64.toNat_add, UInt32.toNat_toUInt64]
    exact Nat.mod_eq_of_lt (by simp; omega)
  have hstop : (w.base.toUInt64 + UInt64.ofNat w.size).toNat = w.base.toNat + w.size := by
    rw [UInt64.toNat_add, UInt32.toNat_toUInt64, hsize]
    exact Nat.mod_eq_of_lt (Nat.lt_of_le_of_lt hw (by decide))
  rw [contains, Bool.and_eq_true, decide_eq_true_iff, decide_eq_true_iff, UInt32.le_iff_toNat_le,
    UInt64.le_iff_toNat_le, hend, hstop, Inside]

theorem toNat_index (h : w.Inside addr) : (addr - w.base).toNat = addr.toNat - w.base.toNat :=
  UInt32.toNat_sub_of_le _ _ (UInt32.le_iff_toNat_le.mpr h.1)

theorem index_le (h : w.Inside addr) : addr.toNat - w.base.toNat + 8 ≤ w.size := by
  have := h.1
  have := h.2
  omega

theorem read_eq (hw : w.Addressable) (addr : UInt32) :
    w.read addr =
      if w.Inside addr then .ok (wordAt w.bytes (addr.toNat - w.base.toNat))
      else .error (.read addr) := by
  rw [read]
  by_cases h : w.Inside addr
  · simp only [(contains_iff hw).mpr h, toNat_index h, if_pos (index_le h), if_pos h]
    rfl
  · rw [if_neg (mt (contains_iff hw).mp h), if_neg h]

theorem write_eq (hw : w.Addressable) (addr : UInt32) (v : UInt64) :
    w.write addr v =
      if w.Inside addr then
        .ok ⟨w.base, store w.bytes (addr.toNat - w.base.toNat) (Bytes.ofWord64 v)⟩
      else .error (.write addr) := by
  rw [write]
  by_cases h : w.Inside addr
  · simp only [(contains_iff hw).mpr h, toNat_index h, if_pos (index_le h), if_pos h]
    rfl
  · rw [if_neg (mt (contains_iff hw).mp h), if_neg h]

theorem read_eq_ok (hw : w.Addressable) {u : UInt64} :
    w.read addr = .ok u ↔
      w.Inside addr ∧ ∀ k < 8, w.byteAt? (addr.toNat + k) = some (byteOf u k) := by
  have hbytes (h : w.Inside addr) {k : Nat} (hk : k < 8) : w.byteAt? (addr.toNat + k) =
      some (byteOf (wordAt w.bytes (addr.toNat - w.base.toNat)) k) := by
    have hlow := h.1
    have hat : addr.toNat + k - w.base.toNat = addr.toNat - w.base.toNat + k := by omega
    rw [byteOf_wordAt (index_le h) hk, byteAt?, if_pos (by omega), hat]
  rw [read_eq hw]
  constructor
  · intro hread
    split at hread
    next h =>
      cases hread
      exact ⟨h, fun k hk => hbytes h hk⟩
    next => cases hread
  · rintro ⟨h, hu⟩
    rw [if_pos h]
    refine congrArg Except.ok (eq_of_byteOf fun k hk => ?_)
    exact Option.some.inj ((hbytes h hk).symm.trans (hu k hk))

theorem exists_read (hw : w.Addressable) : (∃ u, w.read addr = .ok u) ↔ w.Inside addr := by
  rw [read_eq hw]
  split
  next h => exact ⟨fun _ => h, fun _ => ⟨_, rfl⟩⟩
  next h => exact ⟨fun ⟨u, hu⟩ => (nomatch hu), fun hin => absurd hin h⟩

theorem exists_write (hw : w.Addressable) (v : UInt64) :
    (∃ w', w.write addr v = .ok w') ↔ w.Inside addr := by
  rw [write_eq hw]
  split
  next h => exact ⟨fun _ => h, fun _ => ⟨_, rfl⟩⟩
  next h => exact ⟨fun ⟨w', hw'⟩ => (nomatch hw'), fun hin => absurd hin h⟩

theorem read_congr {w' : Window} (hw : w.Addressable) (hbase : w'.base = w.base)
    (hsize : w'.size = w.size)
    (h : ∀ k < 8, w'.byteAt? (addr.toNat + k) = w.byteAt? (addr.toNat + k)) :
    w'.read addr = w.read addr := by
  have hw' : w'.Addressable := by rwa [Addressable, hbase, hsize]
  have hin : w'.Inside addr ↔ w.Inside addr := by rw [Inside, hbase, hsize, Inside]
  by_cases hread : w.Inside addr
  · obtain ⟨u, hu⟩ := (exists_read hw).mpr hread
    obtain ⟨-, hbytes⟩ := (read_eq_ok hw).mp hu
    rw [hu, read_eq_ok hw']
    exact ⟨hin.mpr hread, fun k hk => (h k hk).trans (hbytes k hk)⟩
  · rw [read_eq hw', read_eq hw, if_neg (mt hin.mp hread), if_neg hread]

/-- A write that is let through lays its bytes over the window, from its address on. -/
structure Overlaid (w : Window) (addr : UInt32) (v : UInt64) (w' : Window) : Prop where
  base_eq : w'.base = w.base
  size_eq : w'.size = w.size
  byte_eq : ∀ a, w'.byteAt? a =
    if addr.toNat ≤ a ∧ a < addr.toNat + 8 then some (byteOf v (a - addr.toNat)) else w.byteAt? a

theorem overlaid_of_write (hw : w.Addressable) {v : UInt64} {w' : Window}
    (h : w.write addr v = .ok w') : w.Inside addr ∧ w.Overlaid addr v w' := by
  rw [write_eq hw] at h
  split at h
  next hin =>
    cases h
    have hlow := hin.1
    have hfit := index_le hin
    have hbytes := toList_store w.bytes (addr.toNat - w.base.toNat) (Bytes.ofWord64 v)
    refine ⟨hin, rfl, ?_, fun a => ?_⟩
    · have hlen := congrArg List.length hbytes
      rw [Bytes.length_overwrite] at hlen
      simpa [size] using hlen
    · unfold byteAt?
      by_cases ha : w.base.toNat ≤ a
      · simp only [if_pos ha, ← Array.getElem?_toList, hbytes, Bytes.getElem?_overwrite,
          Bytes.length_ofWord64, Array.length_toList]
        by_cases hover : addr.toNat ≤ a ∧ a < addr.toNat + 8
        · have hat : a - w.base.toNat - (addr.toNat - w.base.toNat) = a - addr.toNat := by omega
          unfold size at hfit
          rw [if_pos (by omega), if_pos hover, hat, getElem?_ofWord64 v (by omega)]
        · rw [if_neg (by omega), if_neg hover]
      · simp only [if_neg ha]
        rw [if_neg (by omega)]
  next => cases h

/-! ## Any history -/

inductive Transfer where
  | read (addr : UInt32)
  | write (addr : UInt32) (v : UInt64)
deriving DecidableEq, Repr

/-- The window after one use. A read leaves it as it is, and so does a write that fails. -/
def use (w : Window) : Transfer → Window
  | .read _ => w
  | .write addr v =>
      match w.write addr v with
      | .ok w' => w'
      | .error _ => w

def after (w : Window) (history : List Transfer) : Window := history.foldl use w

/-- A use writes the byte at address `a`. -/
def Transfer.Hits (w : Window) (a : Nat) : Transfer → Prop
  | .read _ => False
  | .write addr _ => w.Inside addr ∧ addr.toNat ≤ a ∧ a < addr.toNat + 8

/-- The byte at an address after a history: that of the last write over it, or the one that `w`
had there. -/
inductive LastWritten (w : Window) (a : Nat) : List Transfer → UInt8 → Prop
  | untouched {history : List Transfer} {b : UInt8} :
      (∀ t ∈ history, ¬ t.Hits w a) → w.byteAt? a = some b → LastWritten w a history b
  | written {before later : List Transfer} {addr : UInt32} {v : UInt64} :
      (Transfer.write addr v).Hits w a → (∀ t ∈ later, ¬ t.Hits w a) →
      LastWritten w a (before ++ .write addr v :: later) (byteOf v (a - addr.toNat))

theorem LastWritten.concat {a : Nat} {history : List Transfer} {b : UInt8} {t : Transfer}
    (h : LastWritten w a history b) (ht : ¬ t.Hits w a) : LastWritten w a (history ++ [t]) b := by
  have hlast {ts : List Transfer} (hts : ∀ s ∈ ts, ¬ s.Hits w a) :
      ∀ s ∈ ts ++ [t], ¬ s.Hits w a := by
    intro s hs
    rcases List.mem_append.mp hs with hs | hs
    · exact hts s hs
    · rw [List.mem_singleton.mp hs]
      exact ht
  cases h with
  | untouched hno hb => exact .untouched (hlast hno) hb
  | written hit hno =>
      rw [List.append_assoc, List.cons_append]
      exact .written hit (hlast hno)

theorem after_concat (history : List Transfer) (t : Transfer) :
    w.after (history ++ [t]) = (w.after history).use t := by
  rw [after, List.foldl_append]
  rfl

/-- A use lays a word over the window, or leaves it as it is. -/
theorem use_cases (hw : w.Addressable) (t : Transfer) :
    (∃ addr v, t = .write addr v ∧ w.Inside addr ∧ w.Overlaid addr v (w.use t)) ∨
      w.use t = w ∧ ∀ a, ¬ t.Hits w a := by
  cases t with
  | read addr => exact .inr ⟨rfl, fun _ => not_false⟩
  | write addr v =>
      cases h : w.write addr v with
      | ok w' =>
          obtain ⟨hin, hover⟩ := overlaid_of_write hw h
          refine .inl ⟨addr, v, rfl, hin, ?_⟩
          simpa only [use, h] using hover
      | error f =>
          refine .inr ⟨by simp only [use, h], fun a hit => ?_⟩
          rw [write_eq hw, if_pos hit.1] at h
          cases h

theorem after_place (hw : w.Addressable) (history : List Transfer) :
    (w.after history).base = w.base ∧ (w.after history).size = w.size := by
  induction history using List.reverseRecOn with
  | nil => exact ⟨rfl, rfl⟩
  | append_singleton history t ih =>
      have hnow : (w.after history).Addressable := by rwa [Addressable, ih.1, ih.2]
      rw [after_concat]
      rcases use_cases hnow t with ⟨addr, v, -, -, hover⟩ | ⟨hsame, -⟩
      · exact ⟨hover.base_eq.trans ih.1, hover.size_eq.trans ih.2⟩
      · rwa [hsame]

theorem addressable_after (hw : w.Addressable) (history : List Transfer) :
    (w.after history).Addressable := by
  obtain ⟨hbase, hsize⟩ := after_place hw history
  rwa [Addressable, hbase, hsize]

theorem inside_after (hw : w.Addressable) (history : List Transfer) (addr : UInt32) :
    (w.after history).Inside addr ↔ w.Inside addr := by
  obtain ⟨hbase, hsize⟩ := after_place hw history
  rw [Inside, hbase, hsize, Inside]

theorem hits_after (hw : w.Addressable) (history : List Transfer) (t : Transfer) (a : Nat) :
    t.Hits (w.after history) a ↔ t.Hits w a := by
  cases t with
  | read addr => exact Iff.rfl
  | write addr v => exact and_congr_left fun _ => inside_after hw history addr

/-- Every byte of a window is the last one that was written there. -/
theorem lastWritten_after (hw : w.Addressable) (history : List Transfer) {a : Nat} {b : UInt8}
    (hb : (w.after history).byteAt? a = some b) : LastWritten w a history b := by
  induction history using List.reverseRecOn generalizing b with
  | nil => exact .untouched (fun _ ht => nomatch ht) hb
  | append_singleton history t ih =>
      rw [after_concat] at hb
      rcases use_cases (addressable_after hw history) t with
        ⟨addr, v, rfl, hin, hover⟩ | ⟨hsame, hno⟩
      · rw [hover.byte_eq] at hb
        split at hb
        next hat =>
          cases hb
          exact .written ⟨(inside_after hw history addr).mp hin, hat⟩ fun _ ht => nomatch ht
        next hat => exact (ih hb).concat fun hit => hat hit.2
      · rw [hsame] at hb
        exact (ih hb).concat (mt (hits_after hw history t a).mpr (hno a))

/-- What accesses at an address do to a window after a history. -/
structure Serves (w : Window) (history : List Transfer) (addr : UInt32) : Prop where
  /-- An access succeeds just if its bytes are inside. -/
  read_iff : (∃ u, (w.after history).read addr = .ok u) ↔ w.Inside addr
  write_iff : ∀ v, (∃ w', (w.after history).write addr v = .ok w') ↔ w.Inside addr
  /-- No access goes out of range. -/
  read_in_range : (w.after history).read addr ≠ .error .outOfRange
  write_in_range : ∀ v, (w.after history).write addr v ≠ .error .outOfRange
  /-- Reads and failed writes change nothing. -/
  after_read : w.after (history ++ [.read addr]) = w.after history
  after_failed : ∀ v f, (w.after history).write addr v = .error f →
    w.after (history ++ [.write addr v]) = w.after history
  /-- Any other write changes its eight bytes alone. -/
  after_write : ∀ v, w.Inside addr →
    (w.after history).Overlaid addr v (w.after (history ++ [.write addr v]))
  /-- A read gives the bytes that were written last. -/
  read_last : ∀ u, (w.after history).read addr = .ok u →
    ∀ k < 8, LastWritten w (addr.toNat + k) history (byteOf u k)
  /-- A word is read back where it was written, and not seen from eight bytes away. -/
  read_back : ∀ v, w.Inside addr → (w.after (history ++ [.write addr v])).read addr = .ok v
  read_apart : ∀ other v, addr.toNat + 8 ≤ other.toNat ∨ other.toNat + 8 ≤ addr.toNat →
    (w.after (history ++ [.write other v])).read addr = (w.after history).read addr

theorem overlaid_after (hw : w.Addressable) (history : List Transfer) (v : UInt64)
    (h : w.Inside addr) :
    (w.after history).Overlaid addr v (w.after (history ++ [.write addr v])) := by
  have hnow := addressable_after hw history
  obtain ⟨w', hwrite⟩ := (exists_write hnow v).mpr ((inside_after hw history addr).mpr h)
  rw [after_concat, use, hwrite]
  exact (overlaid_of_write hnow hwrite).2

theorem after_of_failed {history : List Transfer} {v : UInt64} {f : AccessFault}
    (h : (w.after history).write addr v = .error f) :
    w.after (history ++ [.write addr v]) = w.after history := by
  rw [after_concat, use, h]

/-- A window in the 32-bit addresses keeps what is written to it, whatever was done to it
before. -/
theorem window_serves (w : Window) (hw : w.base.toNat + w.size ≤ 2 ^ 32)
    (history : List Transfer) (addr : UInt32) : w.Serves history addr where
  read_iff := (exists_read (addressable_after hw history)).trans (inside_after hw history addr)
  write_iff v :=
    (exists_write (addressable_after hw history) v).trans (inside_after hw history addr)
  read_in_range := by
    rw [read_eq (addressable_after hw history)]
    split <;> exact fun h => nomatch h
  write_in_range v := by
    rw [write_eq (addressable_after hw history)]
    split <;> exact fun h => nomatch h
  after_read := after_concat history _
  after_failed v f h := after_of_failed h
  after_write v h := overlaid_after hw history v h
  read_last u hu k hk :=
    lastWritten_after hw history (((read_eq_ok (addressable_after hw history)).mp hu).2 k hk)
  read_back v h := by
    have hover := overlaid_after hw history v h
    rw [read_eq_ok (addressable_after hw _)]
    refine ⟨(inside_after hw _ addr).mpr h, fun k hk => ?_⟩
    rw [hover.byte_eq, if_pos (by omega), Nat.add_sub_cancel_left]
  read_apart other v hapart := by
    by_cases h : w.Inside other
    · have hover := overlaid_after hw history v h
      refine read_congr (addressable_after hw history) hover.base_eq hover.size_eq fun k hk => ?_
      rw [hover.byte_eq, if_neg (by omega)]
    · rw [after_of_failed (f := .write other)]
      rw [write_eq (addressable_after hw history), if_neg (mt (inside_after hw history other).mp h)]

/-- Sixteen bytes at the end of the 32-bit addresses. -/
def lastBytes : Window := ⟨0xfffffff0, Array.replicate 16 0⟩

/-- Of two words that overlap the second is read back, the first shows in front of it, and behind
it there is no room for another word. -/
theorem window_serves_at_the_end :
    let first : List Transfer := [.write 0xfffffff0 0x1111111111111111]
    let both := first ++ [.write 0xfffffff4 0x2222222222222222]
    lastBytes.base.toNat + lastBytes.size ≤ 2 ^ 32 ∧
      (lastBytes.after both).read 0xfffffff4 = .ok 0x2222222222222222 ∧
      (∃ u, (lastBytes.after both).read 0xfffffff0 = .ok u ∧
        LastWritten lastBytes 0xfffffff3 both (byteOf u 3)) ∧
      ¬ ∃ u, (lastBytes.after both).read 0xfffffffc = .ok u := by
  intro first both
  have hfit : lastBytes.base.toNat + lastBytes.size ≤ 2 ^ 32 := by decide
  have hback := (window_serves lastBytes hfit first 0xfffffff4).read_back 0x2222222222222222
  obtain ⟨u, hu⟩ := (window_serves lastBytes hfit both 0xfffffff0).read_iff.mpr (by decide)
  refine ⟨hfit, hback (by decide), ⟨u, hu, ?_⟩, ?_⟩
  · exact (window_serves lastBytes hfit both 0xfffffff0).read_last u hu 3 (by decide)
  · rw [(window_serves lastBytes hfit both 0xfffffffc).read_iff]
    decide

end Window
end StackCode.Memory
