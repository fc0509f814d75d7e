import StackCode.Proofs.Lowering.Placement

/-!
# Images under other helper addresses

The addresses of the helpers stand in the helper fields of an image and nowhere else. So an
image that was made for one pair of helpers becomes the image for another pair when the new
addresses are laid over its helper fields.
-/
namespace StackCode.Lowering

open Bytecode

/-- Lays the addresses of the helpers over the fields of an image. -/
def HelperField.writeAll (h : Helpers) (fields : List HelperField) (native : Bytes) : Bytes :=
  fields.foldl
    (fun native f => native.overwrite f.nativeAt.toNat (Bytes.ofWord64 (h.addr f.helper))) native

theorem Slot.eq_call {i : Instr} (h : Slot.ofInstr? i = some .helper) :
    i = .input ∨ i = .output := by
  cases i with
  | input => exact .inl rfl
  | output => exact .inr rfl
  | push src =>
      cases src with
      | mem c => cases c <;> simp [ofInstr?, ofCell?, disp32, helper] at h
      | _ => simp [ofInstr?, imm64, helper] at h
  | pop dst =>
      cases dst with
      | mem c => cases c <;> simp [ofInstr?, ofCell?, disp32, helper] at h
      | _ => simp [ofInstr?] at h
  | branch b t => simp [ofInstr?, rel32, helper] at h
  | _ => simp [ofInstr?] at h

namespace Step

theorem call?_eq_some {s : Step} {f : HelperField} (h : s.call? = some f) :
    f.nativeAt = s.fieldAt ∧ (s.instr = .input ∧ f.helper = .input ∨
      s.instr = .output ∧ f.helper = .output) := by
  obtain ⟨helper, hh, rfl⟩ := Option.map_eq_some_iff.mp h
  refine ⟨rfl, ?_⟩
  unfold helper? at hh
  split at hh
  next hi =>
    cases hh
    exact .inl ⟨hi, rfl⟩
  next hi =>
    cases hh
    exact .inr ⟨hi, rfl⟩
  next => cases hh

section
variable {s : Step} (hs : s.desc = .ofInstr s.instr s.depth)
include hs

theorem call?_field {f : HelperField} (h : s.call? = some f) :
    Slot.ofInstr? s.instr = some .helper ∧ f.nativeAt = (s.nativeIp + s.fieldPos : Nat) ∧
      s.fieldPos + 8 ≤ s.desc.nativeLen := by
  obtain ⟨hat, hi⟩ := call?_eq_some h
  have hslot : Slot.ofInstr? s.instr = some .helper := by
    rcases hi with ⟨hi, -⟩ | ⟨hi, -⟩ <;> rw [hi] <;> rfl
  obtain ⟨-, hfield, hlen⟩ := slots_eq hs hslot
  exact ⟨hslot, by rw [hat, hfield], hlen⟩

/-- Only helper fields depend on where the helpers are. -/
theorem block_helpers {all : List Located}
    (ht : Expected.template? all ⟨s.ip, s.instr⟩ = some s.desc.template) (h h' : Helpers) :
    Expected.block h' all ⟨s.ip, s.instr⟩ =
      match s.call? with
      | none => Expected.block h all ⟨s.ip, s.instr⟩
      | some f => (Expected.block h all ⟨s.ip, s.instr⟩).overwrite s.fieldPos
          (Bytes.ofWord64 (h'.addr f.helper)) := by
  simp only [Expected.block, ht]
  cases hcall : s.call? with
  | some f =>
      obtain ⟨hslot, -, -⟩ := call?_field hs hcall
      have hfield (h : Helpers) : Expected.field h all ⟨s.ip, s.instr⟩ s.fieldPos .helper =
          Bytes.ofWord64 (h.addr f.helper) := by
        rcases (call?_eq_some hcall).2 with ⟨hi, hf⟩ | ⟨hi, hf⟩ <;> rw [hi, hf] <;> rfl
      simp only [(slots_eq hs hslot).1, List.foldl_cons, List.foldl_nil, Int.toNat_natCast,
        hfield]
      rw [Bytes.overwrite_overwrite _ _ (by simp)]
  | none =>
      cases hslot : Slot.ofInstr? s.instr with
      | none => simp only [slots_eq_nil hs hslot, List.foldl_nil]
      | some slot =>
          have hother : slot ≠ .helper := by
            rintro rfl
            rcases Slot.eq_call hslot with hi | hi <;> simp [call?, helper?, hi] at hcall
          simp only [(slots_eq hs hslot).1, List.foldl_cons, List.foldl_nil, Expected.field,
            if_neg hother]

end

/-- Laying new addresses over the helper fields of a walk's blocks, wherever they stand. -/
theorem relink_along {all : List Located} (h h' : Helpers) {native : Nat} {depth : Int}
    {ls : List Located} {lead : Bytes} (hlead : lead.length = native)
    (ht : ∀ s ∈ along native depth ls,
      Expected.template? all ⟨s.ip, s.instr⟩ = some s.desc.template) :
    HelperField.writeAll h' ((along native depth ls).filterMap call?)
        (lead ++ ls.flatMap (Expected.block h all)) =
      lead ++ ls.flatMap (Expected.block h' all) := by
  induction ls generalizing native depth lead with
  | nil => rfl
  | cons l ls ih =>
      let s : Step := ⟨l.ip, l.instr, .ofInstr l.instr depth, native, depth⟩
      have hs : s.desc = .ofInstr s.instr s.depth := rfl
      have hmem : s ∈ along native depth (l :: ls) := .head _
      have hblock : Expected.block h' all l = _ := block_helpers hs (ht s hmem) h h'
      have hlen (h : Helpers) : (Expected.block h all l).length = s.desc.nativeLen := by
        rw [Expected.length_block, Expected.blockLen, ht s hmem]
        rfl
      -- the finished block moves to the bytes in front, where no later field lies
      have hnext := @ih (native + s.desc.nativeLen) (depth + l.instr.opcode.stackDelta)
        (lead ++ Expected.block h' all l) (by rw [List.length_append, hlead, hlen])
        (fun t htail => ht t (.tail _ htail))
      rw [List.append_assoc, List.append_assoc] at hnext
      rw [along, List.flatMap_cons, List.flatMap_cons]
      cases hcall : s.call? with
      | none =>
          simp only [hcall] at hblock
          rw [List.filterMap_cons_none hcall]
          rw [hblock] at hnext ⊢
          exact hnext
      | some f =>
          simp only [hcall] at hblock
          obtain ⟨-, hat, hfit⟩ := call?_field hs hcall
          have hpos : f.nativeAt.toNat = lead.length + s.fieldPos := by
            rw [hat, hlead]
            rfl
          have hover : (lead ++ (Expected.block h all l ++ ls.flatMap (Expected.block h all))).overwrite
              f.nativeAt.toNat (Bytes.ofWord64 (h'.addr f.helper)) =
              lead ++ (Expected.block h' all l ++ ls.flatMap (Expected.block h all)) := by
            rw [hpos, Bytes.overwrite_append_right, Bytes.overwrite_append_left, hblock]
            rw [hlen, Bytes.length_ofWord64]
            exact hfit
          rw [List.filterMap_cons_some hcall, HelperField.writeAll, List.foldl_cons, hover]
          exact hnext

end Step

namespace Layout

section
variable {code : Bytes} {layout : Layout} (hl : ofCode (some code) = .ok layout)
include hl

theorem helperFields_eq : layout.helperFields =
    (Step.along 0 0 (Scan.ofCode code).instrs).filterMap Step.call? := by
  obtain ⟨-, -, hlayout, -⟩ := ofCode_eq_ok hl
  rw [hlayout]
  rfl

theorem helperField_inside {f : HelperField} (hf : f ∈ layout.helperFields) :
    0 ≤ f.nativeAt ∧ f.nativeAt + 8 ≤ layout.nativeLen := by
  rw [helperFields_eq hl] at hf
  obtain ⟨s, hs, hcall⟩ := List.mem_filterMap.mp hf
  obtain ⟨-, hat, hfit⟩ := Step.call?_field (Step.desc_of_mem_along hs) hcall
  have hend := Step.end_le hs
  rw [nativeLen_eq hl]
  omega

/-- New addresses over the helper fields make the image for the new helpers. -/
theorem writeAll_image (h h' : Helpers) :
    HelperField.writeAll h' layout.helperFields (Expected.image h (Scan.ofCode code).instrs) =
      Expected.image h' (Scan.ofCode code).instrs := by
  obtain ⟨-, hf, -, -⟩ := ofCode_eq_ok hl
  have hlead : ([] : Bytes).length = 0 := rfl
  rw [helperFields_eq hl]
  exact Step.relink_along h h' hlead fun s hs =>
    Expected.template?_step (Scan.instrs_ascending hf) hs

end

theorem length_instrs_le {code : Bytes} {layout : Layout} (hl : ofCode (some code) = .ok layout) :
    (Scan.ofCode code).instrs.length ≤ layout.nativeLen := by
  rw [nativeLen_eq hl]
  exact (span_bounds 0 _).1

theorem length_helperFields_le {code : Bytes} {layout : Layout}
    (hl : ofCode (some code) = .ok layout) : layout.helperFields.length ≤ layout.nativeLen := by
  have hinstrs := length_instrs_le hl
  obtain ⟨-, -, rfl, -⟩ := ofCode_eq_ok hl
  calc
    _ ≤ (Step.along 0 0 (Scan.ofCode code).instrs).length := List.length_filterMap_le ..
    _ = (Scan.ofCode code).instrs.length := Step.length_along 0 0 _
    _ ≤ _ := hinstrs

theorem nativeLen_pos {code : Bytes} {layout : Layout} (hl : ofCode (some code) = .ok layout) :
    0 < layout.nativeLen := by
  obtain ⟨hne, hf, -, -⟩ := ofCode_eq_ok hl
  obtain ⟨is, hcode, hinstrs⟩ := Scan.exists_place hf
  have hlen := length_instrs_le hl
  cases is with
  | nil => exact absurd hcode hne
  | cons i is =>
      rw [hinstrs, Located.place, List.length_cons] at hlen
      omega

end Layout

/-- Filling a buffer and patching it ends with this buffer. -/
def Produces (code : Bytes) (layout : Layout) (dst : Bytes) (h : Helpers) (native : Bytes) : Prop :=
  let filled := Filled.ofCode (some code) (some layout.nativeLen) (some dst) h
  let patched := Patched.ofCode (some code) layout.relocations filled.native
  filled.outcome = .done ∧ patched.outcome = .done ∧ patched.native = some native

theorem HelperField.getElem?_writeAll {h : Helpers} {fields : List HelperField} {native : Bytes}
    {i : Nat} (hin : ∀ f ∈ fields, 0 ≤ f.nativeAt)
    (hi : ∀ f ∈ fields, (i : Int) < f.nativeAt ∨ f.nativeAt + 8 ≤ i) :
    (writeAll h fields native)[i]? = native[i]? := by
  refine Bytes.getElem?_foldl_overwrite _ _ native fun f hf => ?_
  have h0 := hin f hf
  have hout := hi f hf
  rw [Bytes.length_ofWord64]
  omega

/-- The image of an accepted program for one pair of helpers becomes its image for another
pair when the new addresses are laid over the helper fields of its layout, whatever the two
buffers held before. All these fields lie in the image, and outside of them the two images
are the same. -/
theorem relinking_makes_other_image {code dst dst' : Bytes} {layout : Layout} (h h' : Helpers)
    (hl : Layout.ofCode (some code) = .ok layout) (hd : layout.nativeLen ≤ dst.length)
    (hd' : layout.nativeLen ≤ dst'.length) :
    ∃ native native', Produces code layout dst h native ∧ Produces code layout dst' h' native' ∧
      (∀ f ∈ layout.helperFields, 0 ≤ f.nativeAt ∧ f.nativeAt + 8 ≤ layout.nativeLen) ∧
      HelperField.writeAll h' layout.helperFields (native.take layout.nativeLen) =
        native'.take layout.nativeLen ∧
      ∀ i < layout.nativeLen,
        (∀ f ∈ layout.helperFields, (i : Int) < f.nativeAt ∨ f.nativeAt + 8 ≤ i) →
          native[i]? = native'[i]? := by
  have hmade {dst : Bytes} (h : Helpers) (hd : layout.nativeLen ≤ dst.length) :
      Produces code layout dst h
        (Expected.image h (Scan.ofCode code).instrs ++ dst.drop layout.nativeLen) := by
    have hpatched := @Patched.ofCode_eq code (dst.drop layout.nativeLen) layout h hl
    simp only [Produces, Filled.ofCode_eq h hl hd, hpatched, and_self]
  have hlen (h : Helpers) : (Expected.image h (Scan.ofCode code).instrs).length =
      layout.nativeLen := by
    obtain ⟨-, hf, -, -⟩ := Layout.ofCode_eq_ok hl
    rw [Expected.length_image (Scan.instrs_ascending hf), Layout.nativeLen_eq hl]
  have hrelinked := Layout.writeAll_image hl h h'
  have hinside := fun f => @Layout.helperField_inside code layout hl f
  refine ⟨_, _, hmade h hd, hmade h' hd', hinside, ?_, fun i hi hout => ?_⟩
  · rw [List.take_left' (hlen h), List.take_left' (hlen h'), hrelinked]
  · rw [List.getElem?_append_left (by rwa [hlen]), List.getElem?_append_left (by rwa [hlen]),
      ← hrelinked, HelperField.getElem?_writeAll (fun f hmem => (hinside f hmem).1) hout]

theorem relinking_makes_other_image_sample :
    Layout.ofCode (some Expected.sample) = .ok Expected.sampleLayout ∧
      ∃ native native',
        Produces Expected.sample Expected.sampleLayout (List.replicate 57 0) ⟨1, 2⟩ native ∧
        Produces Expected.sample Expected.sampleLayout (List.replicate 60 0xcc)
          ⟨0x1122334455667788, 2⟩ native' ∧
        Bytes.overwrite (native.take 57) 27 [0x88, 0x77, 0x66, 0x55, 0x44, 0x33, 0x22, 0x11] =
          native'.take 57 := by
  have hl : Layout.ofCode (some Expected.sample) = .ok Expected.sampleLayout := rfl
  have hd : Expected.sampleLayout.nativeLen ≤ (List.replicate 57 (0 : UInt8)).length := by decide
  have hd' : Expected.sampleLayout.nativeLen ≤ (List.replicate 60 (0xcc : UInt8)).length := by
    decide
  obtain ⟨native, native', hmade, hmade', -, hwrite, -⟩ :=
    relinking_makes_other_image ⟨1, 2⟩ ⟨0x1122334455667788, 2⟩ hl hd hd'
  exact ⟨hl, native, native', hmade, hmade', hwrite⟩

end StackCode.Lowering
