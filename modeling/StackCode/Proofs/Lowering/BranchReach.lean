import StackCode.Proofs.Lowering.Placement

/-!
# How far branches reach

The field of a branch keeps the low 32 bits of the distance to the target and is read as a
signed number. No pass looks at what is cut off: every program that is laid out is filled
and patched. So a branch goes to its target exactly if the distance fits the field, and
otherwise it misses the target by a multiple of 2 ^ 32. A jump over enough reads is laid
out, patched and misses.
-/
namespace StackCode.Lowering

open Bytecode

namespace Relocation

/-- Where the branch goes whose field is in the image. -/
def destination? (r : Relocation) (native : Bytes) : Option Int :=
  (Bytes.word32? (native.drop r.nativeFrom.toNat)).map fun field =>
    r.nativeFrom + 4 + field.toInt32.toInt

def Fits (r : Relocation) (target : Nat) : Prop :=
  -2 ^ 31 ≤ (target : Int) - (r.nativeFrom + 4) ∧ (target : Int) - (r.nativeFrom + 4) < 2 ^ 31

/-- A written field leads to the target up to what was cut off. -/
theorem destination?_of_distance {r : Relocation} {native rest : Bytes} {target : Nat}
    (h : native.drop r.nativeFrom.toNat =
      distance ((target : Int) - (r.nativeFrom + 4)) ++ rest) :
    ∃ dest, r.destination? native = some dest ∧ (dest = target ↔ r.Fits target) ∧
      (2 ^ 32 : Int) ∣ dest - target := by
  refine ⟨r.nativeFrom + 4 + ((target : Int) - (r.nativeFrom + 4)).bmod (2 ^ 32), ?_, ?_, ?_⟩
  · have hfield : (Int32.ofInt ((target : Int) - (r.nativeFrom + 4))).toInt =
        ((target : Int) - (r.nativeFrom + 4)).bmod (2 ^ 32) := Int32.toInt_ofInt
    rw [destination?, h, distance_eq, Bytes.word32?_ofWord32, Option.map_some,
      Int32.toInt32_toUInt32, hfield]
  · unfold Fits
    rw [Int.bmod_def]
    constructor <;> intro <;> omega
  · obtain ⟨k, hk⟩ : ((2 ^ 32 : Nat) : Int) ∣ _ - ((target : Int) - (r.nativeFrom + 4)) :=
      Int.dvd_bmod_sub_self
    exact ⟨k, by omega⟩

end Relocation

theorem Step.drop_image {ls : List Located} (hasc : ls.Pairwise fun a b => a.ip < b.ip)
    (h : Helpers) (tail : Bytes) {s : Step} (hs : s ∈ Step.along 0 0 ls) {r : Relocation}
    (hj : s.jump? = some r) :
    ∃ rest, (Expected.image h ls ++ tail).drop r.nativeFrom.toNat =
      distance ((Expected.offset ls r.sourceTo : Int) - (r.nativeFrom + 4)) ++ rest := by
  obtain ⟨before, after, hl, hn, -, -⟩ := Step.mem_along.mp hs
  have hdesc := Step.desc_of_mem_along hs
  obtain ⟨hfrom, hlo, hhi⟩ := Step.jump?_field hdesc hj
  have hblock := Step.expected_block hdesc h (Expected.template?_step hasc hs)
    (Expected.offset_step hasc hs)
  simp only [hj] at hblock
  have hlead := Expected.length_blocks hasc h hl
  have hat : r.nativeFrom.toNat = (before.flatMap (Expected.block h ls)).length + s.fieldPos := by
    unfold Step.fieldPos
    omega
  have hfit : s.fieldPos + (distance ((Expected.offset ls r.sourceTo : Int) -
      (r.nativeFrom + 4))).length ≤ (s.filled h).length := by
    rw [Relocation.length_distance, Step.length_filled]
    unfold Step.fieldPos
    omega
  rw [Expected.image_eq_append h hl, hat, List.append_assoc, List.drop_length_add_append,
    List.append_assoc, hblock,
    List.drop_append_of_le_length (by rw [Bytes.length_overwrite]; omega),
    Bytes.drop_overwrite hfit, List.append_assoc]
  exact ⟨_, rfl⟩

namespace Layout

/-- A relocation is that of a branch, and its target is laid out where the image expects it. -/
theorem exists_branch {code : Bytes} {layout : Layout} (hl : ofCode (some code) = .ok layout)
    {r : Relocation} (hr : r ∈ layout.relocations) :
    (∃ s ∈ Step.along 0 0 (Scan.ofCode code).instrs, s.jump? = some r) ∧
      layout.offset? r.sourceTo = some (Expected.offset (Scan.ofCode code).instrs r.sourceTo) := by
  obtain ⟨-, hf, hlayout, htargets⟩ := ofCode_eq_ok hl
  have hboundary := htargets r hr
  rw [hlayout] at hr hboundary ⊢
  obtain ⟨k, hk, hip⟩ := exists_step_of_isBoundary hboundary
  refine ⟨List.mem_filterMap.mp hr, ?_⟩
  rw [← hip, offset?_step hf hk, Expected.offset_step (Scan.instrs_ascending hf) hk]

theorem exists_destination {code : Bytes} {layout : Layout} (hl : ofCode (some code) = .ok layout)
    {r : Relocation} (hr : r ∈ layout.relocations) (h : Helpers) (tail : Bytes) :
    ∃ target dest, layout.offset? r.sourceTo = some target ∧
      r.destination? (Expected.image h (Scan.ofCode code).instrs ++ tail) = some dest ∧
      (dest = target ↔ r.Fits target) ∧ (2 ^ 32 : Int) ∣ dest - target := by
  obtain ⟨-, hf, -⟩ := ofCode_eq_ok hl
  obtain ⟨⟨s, hs, hj⟩, htarget⟩ := exists_branch hl hr
  obtain ⟨rest, hdrop⟩ := Step.drop_image (Scan.instrs_ascending hf) h tail hs hj
  obtain ⟨dest, hdest⟩ := Relocation.destination?_of_distance hdrop
  exact ⟨_, dest, htarget, hdest⟩

end Layout

/-- Every program that is laid out is patched, and a branch of it goes exactly to its target
if and only if the distance fits the field; a branch that misses is off by a multiple of
2 ^ 32. -/
theorem branch_lands_iff_fits {code dst : Bytes} {layout : Layout} (h : Helpers)
    (hl : Layout.ofCode (some code) = .ok layout) (hd : layout.nativeLen ≤ dst.length)
    {r : Relocation} (hr : r ∈ layout.relocations) :
    let filled := Filled.ofCode (some code) (some layout.nativeLen) (some dst) h
    let patched := Patched.ofCode (some code) layout.relocations filled.native
    (filled.outcome = .done ∧ patched.outcome = .done) ∧
      ∃ native target dest, patched.native = some native ∧
        layout.offset? r.sourceTo = some target ∧ r.destination? native = some dest ∧
        (dest = target ↔ r.Fits target) ∧ (2 ^ 32 : Int) ∣ dest - target := by
  have hfilled := Filled.ofCode_eq h hl hd
  have hpatched := @Patched.ofCode_eq code (dst.drop layout.nativeLen) layout h hl
  obtain ⟨target, dest, hdest⟩ := Layout.exists_destination hl hr h (dst.drop layout.nativeLen)
  simp only [hfilled, hpatched]
  exact ⟨⟨trivial, trivial⟩, _, target, dest, rfl, hdest⟩

/-! ## A jump over reads -/

/-- A jump over `2 * n` reads, from the first of which on the code of every second one is
padded. -/
def overReads (n : Nat) : List Instr :=
  .branch .jmp (.ofNat (5 + 2 * n)) :: (List.replicate (2 * n) .input ++ [.ret])

theorem span_reads (ip n : Nat) {depth : Int} (heven : depth % 2 = 0) :
    span depth (Located.place ip (List.replicate (2 * n) .input)) = 62 * n := by
  -- two reads at a time: the parity of the depth is back where it was
  induction n generalizing ip depth with
  | zero => rfl
  | succ n ih =>
      have hplain : Variant.needsPadding .input depth = false := by
        simp [Variant.needsPadding, heven]
      have hpadded : Variant.needsPadding .input (depth + 1) = true := by
        simp only [Variant.needsPadding, decide_eq_true_eq]
        omega
      have hfirst : (Descriptor.ofInstr .input depth).nativeLen = 30 := by
        rw [Descriptor.ofInstr, hplain]
        rfl
      have hsecond : (Descriptor.ofInstr .input (depth + 1)).nativeLen = 32 := by
        rw [Descriptor.ofInstr, hpadded]
        rfl
      have hdelta : Instr.input.opcode.stackDelta = 1 := rfl
      rw [Nat.mul_succ, List.replicate_succ, List.replicate_succ]
      simp only [Located.place, span, hdelta, hfirst, hsecond]
      rw [ih _ (by omega)]
      omega

theorem place_overReads (n : Nat) :
    Located.place 0 (overReads n) =
      (⟨0, .branch .jmp (.ofNat (5 + 2 * n))⟩ ::
        Located.place 5 (List.replicate (2 * n) .input)) ++ [⟨5 + 2 * n, .ret⟩] := by
  have hreads (ip m : Nat) : Located.place ip (List.replicate m .input ++ [.ret]) =
      Located.place ip (List.replicate m .input) ++ [⟨ip + m, .ret⟩] := by
    induction m generalizing ip with
    | zero => rfl
    | succ m ih =>
        have hlen : Instr.input.len = 1 := rfl
        rw [List.replicate_succ, List.cons_append, Located.place, Located.place, ih, hlen,
          List.cons_append, Nat.add_right_comm, Nat.add_assoc]
  rw [overReads, Located.place, List.cons_append, ← hreads]
  rfl

/-- The jump is the only branch. -/
theorem Step.jumps_overReads {n : Nat} (hn : 5 + 2 * n < 2 ^ 31) :
    (Step.along 0 0 (Located.place 0 (overReads n))).filterMap Step.jump? =
      [⟨0, (5 + 2 * n : Nat), 1, .direct⟩] := by
  have htarget : (Int32.ofNat (5 + 2 * n)).toInt = (5 + 2 * n : Nat) :=
    Int32.toInt_ofNat_of_lt hn
  have hrest (native : Nat) (depth : Int) : (Step.along native depth (Located.place 5
      (List.replicate (2 * n) .input ++ [.ret]))).filterMap Step.jump? = [] := by
    refine List.filterMap_eq_nil_iff.mpr fun s hs => ?_
    obtain ⟨before, after, hl, -⟩ := Step.mem_along.mp hs
    have hmem : s.instr ∈ List.replicate (2 * n) .input ++ [.ret] :=
      Located.instr_mem_of_mem_place (hl ▸ List.mem_append_right before (.head after))
    rcases List.mem_append.mp hmem with hi | hi
    · rw [Step.jump?, List.eq_of_mem_replicate hi]
    · rw [Step.jump?, List.mem_singleton.mp hi]
  have hjump : Step.jump? ⟨0, .branch .jmp (.ofNat (5 + 2 * n)),
      .ofInstr (.branch .jmp (.ofNat (5 + 2 * n))) 0, 0, 0⟩ =
        some ⟨0, (5 + 2 * n : Nat), 1, .direct⟩ := by
    rw [← htarget]
    rfl
  rw [overReads, Located.place, Step.along, List.filterMap_cons_some hjump]
  exact congrArg _ (hrest _ _)

namespace Layout

theorem ofCode_eq_ok_of {code : Bytes} (hne : code ≠ []) (hf : (Scan.ofCode code).fault = none)
    (ht : ∀ r ∈ (Step.along 0 0 (Scan.ofCode code).instrs).filterMap Step.jump?,
      (ofInstrs code.length (Scan.ofCode code).instrs).isBoundary r.sourceTo = true) :
    ofCode (some code) = .ok (ofInstrs code.length (Scan.ofCode code).instrs) := by
  have hnone : (ofInstrs code.length (Scan.ofCode code).instrs).relocations.find?
      (fun r => !(ofInstrs code.length (Scan.ofCode code).instrs).isBoundary r.sourceTo) = none :=
    List.find?_eq_none.mpr fun r hr => by simp [ht r hr]
  rw [ofCode_eq hne hf, checkTargets, hnone]

/-- A jump over reads is laid out; its target has 62 bytes of code for every two reads in
front of it. -/
theorem ofCode_overReads {n : Nat} (hn : 5 + 2 * n < 2 ^ 31) :
    ∃ layout, ofCode (some ((overReads n).flatMap Instr.encode)) = .ok layout ∧
      layout.relocations = [⟨0, (5 + 2 * n : Nat), 1, .direct⟩] ∧
      layout.offset? (5 + 2 * n : Nat) = some (5 + 62 * n) := by
  have hscan : Scan.ofCode ((overReads n).flatMap Instr.encode) =
      ⟨Located.place 0 (overReads n), none⟩ := Scan.ofBytes_encodeAll 0 _
  have hf : (Scan.ofCode ((overReads n).flatMap Instr.encode)).fault = none := by rw [hscan]
  have hne : (overReads n).flatMap Instr.encode ≠ [] := by simp [overReads, Instr.encode_branch]
  have hinstrs := (congrArg Scan.instrs hscan).trans (place_overReads n)
  have hoffset : (ofInstrs ((overReads n).flatMap Instr.encode).length
      (Scan.ofCode ((overReads n).flatMap Instr.encode)).instrs).offset? (5 + 2 * n : Nat) =
        some (5 + 62 * n) := by
    have hreads : span 0 (Located.place 5 (List.replicate (2 * n) .input)) = 62 * n :=
      span_reads 5 n rfl
    rw [← hreads]
    exact offset?_append hf hinstrs
  have hret : (⟨5 + 2 * n, .ret⟩ : Located) ∈
      (Scan.ofCode ((overReads n).flatMap Instr.encode)).instrs := by
    rw [hinstrs]
    exact List.mem_append_right _ (.head _)
  have hend : 5 + 2 * n + 1 ≤ ((overReads n).flatMap Instr.encode).length := Scan.next_le hf hret
  have hjumps := Step.jumps_overReads hn
  rw [place_overReads, ← hinstrs] at hjumps
  refine ⟨_, ofCode_eq_ok_of hne hf fun r hr => ?_, hjumps, hoffset⟩
  rw [hjumps] at hr
  rw [List.mem_singleton.mp hr, isBoundary, hoffset]
  have hlt : ((5 + 2 * n : Nat) : Int) < ((overReads n).flatMap Instr.encode).length := by omega
  exact Bool.and_eq_true_iff.mpr ⟨decide_eq_true hlt, rfl⟩

end Layout

theorem overReads_misses {n : Nat} (hfar : 2 ^ 31 ≤ 62 * n) (hn : 5 + 2 * n < 2 ^ 31)
    (h : Helpers) :
    ∃ image : Image, Image.ofCode (some ((overReads n).flatMap Instr.encode)) h = .ok image ∧
      ∃ r ∈ image.layout.relocations, ∃ target dest,
        image.layout.offset? r.sourceTo = some target ∧
        r.destination? image.native = some dest ∧ dest ≠ target := by
  obtain ⟨layout, hl, hr, ho⟩ := Layout.ofCode_overReads hn
  have hmem : (⟨0, (5 + 2 * n : Nat), 1, .direct⟩ : Relocation) ∈ layout.relocations := by
    rw [hr]
    exact .head _
  obtain ⟨target, dest, htarget, hdest, hfits, -⟩ := Layout.exists_destination hl hmem h []
  rw [List.append_nil] at hdest
  refine ⟨_, Image.ofCode_eq h hl, _, hmem, target, dest, htarget, hdest, fun heq => ?_⟩
  have hfit := (hfits.mp heq).2
  have htarget : 5 + 62 * n = target := Option.some.inj (ho.symm.trans htarget)
  simp only at hfit
  omega

/-- The shortest of these programs. -/
theorem overReads_misses_shortest :
    ∃ image : Image, Image.ofCode (some ((overReads 34636834).flatMap Instr.encode)) ⟨0, 0⟩ =
        .ok image ∧
      ∃ r ∈ image.layout.relocations, ∃ target dest,
        image.layout.offset? r.sourceTo = some target ∧
        r.destination? image.native = some dest ∧ dest ≠ target :=
  overReads_misses (by decide) (by decide) ⟨0, 0⟩

end StackCode.Lowering
