import Mathlib.Data.List.Induction
import StackCode.Proofs.Lowering.Acceptance
import StackCode.Proofs.Lowering.Image

/-!
# Filling to any length

The second pass takes the length of the image from a layout that need not be the program's
own. `Filled.Answer` says what is due then. The blocks of instructions are written one behind
the other as long as instructions can be read and their blocks fit. It is a fault if a block
would pass the length, if an instruction cannot be read, or if the program ends before the
length is reached; what was written until then stays, and every other byte is as it was. The
pass gives exactly this answer, and never leaves its buffer.
-/
namespace StackCode.Lowering

open Bytecode

namespace Expected

/-- The code of an instruction before branches are patched: its template with every slot
filled in but that of a branch. -/
def unpatchedBlock (h : Helpers) (ls : List Located) (l : Located) : Bytes :=
  match template? ls l with
  | none => []
  | some t =>
      (t.slots.filter fun m => m.1 ≠ .rel32).foldl
        (fun code m => code.overwrite m.2.toNat (field h ls l m.2.toNat m.1)) t.code

def unpatched (h : Helpers) (ls : List Located) : Bytes := ls.flatMap (unpatchedBlock h ls)

def nativeLen (ls : List Located) : Nat := (ls.map (blockLen ls)).sum

theorem unpatchedBlock_eq {ls : List Located} (h : Helpers) {s : Step}
    (hs : s.desc = .ofInstr s.instr s.depth)
    (ht : template? ls ⟨s.ip, s.instr⟩ = some s.desc.template) :
    unpatchedBlock h ls ⟨s.ip, s.instr⟩ = s.filled h := by
  rw [unpatchedBlock, ht, Step.filled_eq h ls]
  cases hslot : Slot.ofInstr? s.instr with
  | none => simp [Step.slots_eq_nil hs hslot]
  | some slot =>
      obtain ⟨hslots, -, -⟩ := Step.slots_eq hs hslot
      by_cases hrel : slot = .rel32
      · simp [hslots, hrel]
      · simp [hslots, hrel]

section
variable {ls : List Located} (hasc : ls.Pairwise fun a b => a.ip < b.ip)
include hasc

theorem unpatched_eq (h : Helpers) :
    unpatched h ls = (Step.along 0 0 ls).flatMap (Step.filled h) := by
  have hmap : ls.flatMap (unpatchedBlock h ls) =
      (Step.along 0 0 ls).flatMap fun s => unpatchedBlock h ls ⟨s.ip, s.instr⟩ := by
    conv_lhs => rw [← Step.map_along 0 0 ls, List.flatMap_map, Step.map_along 0 0 ls]
  rw [unpatched, hmap]
  refine List.flatMap_congr fun s hs => ?_
  exact unpatchedBlock_eq h (Step.desc_of_mem_along hs) (template?_step hasc hs)

theorem nativeLen_eq : nativeLen ls = span 0 ls := by
  have hall : ls = [] ++ (ls ++ []) := by simp
  rw [nativeLen, sum_blockLen hasc hall, rise_nil]

theorem length_unpatched (h : Helpers) : (unpatched h ls).length = nativeLen ls := by
  rw [unpatched_eq hasc, Step.length_filled_along, nativeLen_eq hasc]

end

theorem depth_of_lt {ls : List Located} {ip : Nat} (h : ∀ l ∈ ls, l.ip < ip) :
    depth ls ip = rise ls := by
  have hfront : front ls ip = ls :=
    List.filter_eq_self.mpr fun l hl => decide_eq_true (Int.ofNat_lt.mpr (h l hl))
  rw [depth, hfront, rise]

end Expected

open Expected in
/-- What is due if the first `n` bytes of `dst` are to be filled with the code of a program. -/
inductive Filled.Answer (code : Bytes) (n : Nat) (dst : Bytes) (h : Helpers) : Filled → Prop
  /-- the program ends where the length does -/
  | whole {ls : List Located} :
      Reads code 0 ls code.length → nativeLen ls = n →
      Answer code n dst h ⟨n, some (unpatched h ls ++ dst.drop n), .done⟩
  /-- the program ends before the length does -/
  | short {ls : List Located} :
      Reads code 0 ls code.length → nativeLen ls < n →
      Answer code n dst h ⟨nativeLen ls, some (unpatched h ls ++ dst.drop (nativeLen ls)),
        .failed (.report .invariantViolation (-1) ("emitted " ++ toString (nativeLen ls) ++
          " bytes, layout says " ++ toString n))⟩
  /-- the block of the next instruction would pass the length -/
  | overrun {ls : List Located} {ip : Nat} {i : Instr} :
      Reads code 0 ls ip → nativeLen ls ≤ n → Instr.decode (some code) ip = .ok i →
      n < nativeLen (ls ++ [⟨ip, i⟩]) →
      Answer code n dst h ⟨0, some (unpatched h ls ++ dst.drop (nativeLen ls)),
        .failed (.report .invariantViolation ip ((Variant.ofInstr i (depth ls ip)).text ++
          " overruns the " ++ toString n ++ "-byte layout"))⟩
  /-- the next instruction cannot be read -/
  | unreadable {ls : List Located} {ip : Nat} {f : Failure} :
      Reads code 0 ls ip → nativeLen ls ≤ n → ip < code.length →
      Instr.decode (some code) ip = .error f →
      Answer code n dst h ⟨0, some (unpatched h ls ++ dst.drop (nativeLen ls)), .failed f⟩

namespace Filled

theorem fits_or_overruns (ls : List Located) (n : Nat) :
    span 0 ls ≤ n ∨ ∃ before l after, ls = before ++ l :: after ∧ span 0 before ≤ n ∧
      n < span 0 (before ++ [l]) := by
  induction ls using List.reverseRecOn with
  | nil => exact .inl (Nat.zero_le n)
  | append_singleton ls l ih =>
      rcases ih with hfit | ⟨before, k, after, rfl, hfit, hover⟩
      · rcases Nat.lt_or_ge n (span 0 (ls ++ [l])) with hover | hall
        · exact .inr ⟨ls, l, [], rfl, hfit, hover⟩
        · exact .inl hall
      · exact .inr ⟨before, k, after ++ [l], by simp, hfit, hover⟩

section
variable {code dst : Bytes} {n : Nat} (hne : code ≠ []) (hn : n ≤ dst.length) (h : Helpers)
include hn

/-- Behind the code that was written the buffer is as it was. -/
theorem written_eq {written : Bytes} {k : Nat} (hk : k ≤ n) :
    written ++ (dst.take n).drop k ++ dst.drop n = written ++ dst.drop k := by
  have hjoin : (dst.take n).drop k ++ dst.drop n = dst.drop k := by
    conv_rhs => rw [← List.take_append_drop n dst]
    rw [List.drop_append_of_le_length (by rw [List.length_take_of_le hn]; exact hk)]
  rw [List.append_assoc, hjoin]

include hne

theorem follow_reads {ls more : List Located} {ip : Nat} (hr : Reads code 0 ls ip)
    (hfit : Expected.nativeLen ls ≤ n)
    (hmore : (Scan.ofCode code).instrs = ls ++ more) :
    follow h (Walk.ofCode (some code)).steps ⟨dst.take n, 0⟩ =
      follow h (Step.along (Expected.nativeLen ls) (rise ls) more)
        ⟨Expected.unpatched h ls ++ (dst.take n).drop (Expected.nativeLen ls),
          Expected.nativeLen ls⟩ := by
  have hasc := hr.ascending
  rw [Expected.nativeLen_eq hasc] at hfit ⊢
  rw [Walk.ofCode_eq hne, hmore, Step.along_append, follow_front h hn hfit,
    Expected.unpatched_eq hasc, Nat.zero_add, Int.zero_add]

theorem follow_overruns {ls : List Located} {ip : Nat} {i : Instr} (hr : Reads code 0 ls ip)
    (hfit : Expected.nativeLen ls ≤ n) (hd : Instr.decode (some code) ip = .ok i)
    (hover : n < Expected.nativeLen (ls ++ [⟨ip, i⟩])) :
    follow h (Walk.ofCode (some code)).steps ⟨dst.take n, 0⟩ =
      (⟨Expected.unpatched h ls ++ (dst.take n).drop (Expected.nativeLen ls),
          Expected.nativeLen ls⟩,
        .failed (.report .invariantViolation ip ((Variant.ofInstr i (Expected.depth ls ip)).text ++
          " overruns the " ++ toString n ++ "-byte layout"))) := by
  have hnext := hr.concat hd
  have hmore : (Scan.ofCode code).instrs = ls ++ ⟨ip, i⟩ ::
      (Scan.ofBytes (ip + i.len) 0 (code.drop (ip + i.len))).instrs := by
    have hs := hnext.scan
    rw [List.drop_zero] at hs
    rw [Scan.ofCode, hs, List.append_assoc]
    rfl
  have hdepth : Expected.depth ls ip = rise ls := by
    obtain ⟨-, -, hlast⟩ := List.pairwise_append.mp hnext.ascending
    exact Expected.depth_of_lt fun k hk => hlast k hk _ (.head _)
  have hlead := Expected.length_unpatched hr.ascending h
  have hrest : ((dst.take n).drop (Expected.nativeLen ls)).length =
      n - Expected.nativeLen ls := by
    rw [List.length_drop, List.length_take_of_le hn]
  let s : Step := ⟨ip, i, .ofInstr i (rise ls), Expected.nativeLen ls, rise ls⟩
  have hroom : ((dst.take n).drop (Expected.nativeLen ls)).length < s.desc.nativeLen := by
    rw [Expected.nativeLen_eq hnext.ascending, span_append, span, span, Int.zero_add,
      ← Expected.nativeLen_eq hr.ascending, Nat.add_zero] at hover
    rw [hrest]
    exact Nat.sub_lt_left_of_lt_add hfit hover
  have hemit := Step.emit_overruns h (s := s) hlead hroom
  rw [List.length_append, hlead, hrest, Nat.add_sub_cancel' hfit] at hemit
  rw [follow_reads hne hn h hr hfit hmore, Step.along, follow, hemit, hdepth]
  rfl

/-- What is due is what the pass answers. -/
theorem Answer.given {a : Filled} (ha : Answer code n dst h a) :
    ofCode (some code) (some n) (some dst) h = a := by
  rw [ofCode_of_le hn, into]
  cases ha with
  | @whole ls hr hlen =>
      have hs := hr.scan_end
      have hrun := follow_reads hne hn h hr (Nat.le_of_eq hlen) (by rw [hs, List.append_nil])
      have hfault : (Walk.ofCode (some code)).fault = none := by rw [Walk.ofCode_eq hne, hs]; rfl
      simp only [hrun, Step.along, follow, hfault, hlen, if_pos, written_eq hn (Nat.le_refl n)]
  | @short ls hr hlen =>
      have hs := hr.scan_end
      have hrun := follow_reads hne hn h hr (Nat.le_of_lt hlen) (by rw [hs, List.append_nil])
      have hfault : (Walk.ofCode (some code)).fault = none := by rw [Walk.ofCode_eq hne, hs]; rfl
      simp only [hrun, Step.along, follow, hfault, if_neg (Nat.ne_of_lt hlen),
        written_eq hn (Nat.le_of_lt hlen), wrongLength]
  | overrun hr hfit hd hover =>
      simp only [follow_overruns hne hn h hr hfit hd hover, written_eq hn hfit]
  | @unreadable ls ip f hr hfit hip hd =>
      obtain ⟨fault, hs, rfl⟩ := hr.scan_fault hip hd
      have hrun := follow_reads hne hn h hr hfit (by rw [hs, List.append_nil])
      have hfault : (Walk.ofCode (some code)).fault = some (fault.report ip) := by
        rw [Walk.ofCode_eq hne, hs]
        rfl
      simp only [hrun, Step.along, follow, hfault, written_eq hn hfit]

end

theorem exists_answer (code : Bytes) (n : Nat) (dst : Bytes) (h : Helpers) :
    ∃ a, Answer code n dst h a := by
  obtain ⟨ls, stop, hr, hstop⟩ := Scan.exists_reads code (Nat.zero_le _)
  rcases fits_or_overruns ls n with hfit | ⟨before, l, after, rfl, hfit, hover⟩
  · rw [← Expected.nativeLen_eq hr.ascending] at hfit
    rcases hstop with rfl | ⟨hlt, f, hd⟩
    · rcases Nat.lt_or_eq_of_le hfit with hlt | heq
      · exact ⟨_, .short hr hlt⟩
      · exact ⟨_, .whole hr heq⟩
    · exact ⟨_, .unreadable hr hfit hlt hd⟩
  · obtain ⟨hbefore, hd⟩ := hr.split
    rw [← Expected.nativeLen_eq hbefore.ascending] at hfit
    rw [← Expected.nativeLen_eq (hbefore.concat hd).ascending] at hover
    exact ⟨_, .overrun hbefore hfit hd hover⟩

theorem Answer.keeps {code dst : Bytes} {n : Nat} (hn : n ≤ dst.length) {h : Helpers} {a : Filled}
    (ha : Answer code n dst h a) :
    a.outcome ≠ .outOfRange ∧ ∃ image, a.native = some image ∧ image.length = dst.length ∧
      image.drop n = dst.drop n := by
  have kept : ∀ {ls ip}, Reads code 0 ls ip → Expected.nativeLen ls ≤ n →
      (Expected.unpatched h ls ++ dst.drop (Expected.nativeLen ls)).length = dst.length ∧
        (Expected.unpatched h ls ++ dst.drop (Expected.nativeLen ls)).drop n = dst.drop n := by
    intro ls ip hr hfit
    have hlead := Expected.length_unpatched hr.ascending h
    constructor
    · rw [List.length_append, hlead, List.length_drop]
      omega
    · rw [List.drop_append, hlead, List.drop_of_length_le (by omega), List.nil_append,
        List.drop_drop]
      congr 1
      omega
  cases ha with
  | whole hr hlen =>
      subst hlen
      exact ⟨nofun, _, rfl, kept hr (Nat.le_refl _)⟩
  | short hr hlen => exact ⟨nofun, _, rfl, kept hr (Nat.le_of_lt hlen)⟩
  | overrun hr hfit _ _ => exact ⟨nofun, _, rfl, kept hr hfit⟩
  | unreadable hr hfit _ _ => exact ⟨nofun, _, rfl, kept hr hfit⟩

end Filled

/-- Filling answers every program that is not empty, and every length that the buffer has, with
what is due. It never leaves the buffer and changes nothing behind the length, and it succeeds
with all of the length if and only if the program can be read to its end and its templates are
as long. -/
theorem filling_answers_any_length {code dst : Bytes} {n : Nat} (hne : code ≠ [])
    (hn : n ≤ dst.length) (h : Helpers) :
    let answer := Filled.ofCode (some code) (some n) (some dst) h
    (∀ a, Filled.Answer code n dst h a ↔ answer = a) ∧
      answer.outcome ≠ .outOfRange ∧
      (∃ image, answer.native = some image ∧ image.length = dst.length ∧
        image.drop n = dst.drop n) ∧
      (answer.emitted = n ∧ answer.outcome = .done ↔
        ∃ ls, Reads code 0 ls code.length ∧ Expected.nativeLen ls = n) := by
  intro answer
  obtain ⟨a, ha⟩ := Filled.exists_answer code n dst h
  have hgiven : answer = a := ha.given hne hn h
  refine ⟨fun b => ⟨fun hb => hb.given hne hn h, ?_⟩, ?_, ?_, ?_, ?_⟩
  · rintro rfl
    rwa [hgiven]
  · rw [hgiven]
    exact (ha.keeps hn).1
  · rw [hgiven]
    exact (ha.keeps hn).2
  · rw [hgiven]
    rintro ⟨-, hdone⟩
    cases ha with
    | whole hr hlen => exact ⟨_, hr, hlen⟩
    | _ => cases hdone
  · rintro ⟨ls, hr, hlen⟩
    have hwhole : answer = _ := (Filled.Answer.whole hr hlen).given hne hn h
    rw [hwhole]
    exact ⟨rfl, rfl⟩

/-- A jump to nowhere is written, and the return behind it passes the length. -/
theorem filling_answers_any_length_overrun :
    let code : Bytes := [0x0a, 99, 0, 0, 0, 0x12]
    let dst : Bytes := [1, 2, 3, 4, 5, 6, 7]
    code ≠ [] ∧ 5 ≤ dst.length ∧ Filled.ofCode (some code) (some 5) (some dst) ⟨1, 2⟩ =
      ⟨0, some [0xe9, 0, 0, 0, 0, 6, 7],
        .failed (.report .invariantViolation 5 "ret overruns the 5-byte layout")⟩ := by
  intro code dst
  have hreads : Reads code 0 [⟨0, .branch .jmp 99⟩] 5 := .next rfl (.here 5)
  have hret : Instr.decode (some code) 5 = .ok .ret := rfl
  have hdue : Filled.Answer code 5 dst ⟨1, 2⟩ _ := .overrun hreads (by decide) hret (by decide)
  exact ⟨by decide, by decide, ((filling_answers_any_length (by decide) (by decide) _).1 _).mp hdue⟩

end StackCode.Lowering
