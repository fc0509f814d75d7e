import StackCode.Proofs.Lowering.Acceptance
import StackCode.Proofs.Lowering.Image

/-!
# Patching with any relocations

The third pass takes relocations that need not be the program's own: in any order, repeated,
with fields that overlap and targets anywhere. It treats each one by itself, in the stable order
of the targets. A relocation whose target is the start of an instruction has its field written,
and the others are counted and the first of them reported.

A field that is not in the image ends the pass when its target is reached, and what was written
until then stays. The guard does not see all such fields, though: it adds the width of a field
in 64-bit arithmetic, so a field at the very end of the signed words passes it and the write
leaves the buffer.
-/
namespace StackCode.Lowering

open Bytecode

namespace Relocation

def lands (ls : List Located) (r : Relocation) : Bool := ls.any fun l => (l.ip : Int) == r.sourceTo

/-- Relocations in the order of their targets, by a stable sort. -/
def inOrder (rs : List Relocation) : List Relocation :=
  rs.mergeSort fun a b => a.sourceTo ≤ b.sourceTo

def Covers (r : Relocation) (i : Nat) : Prop := r.nativeFrom ≤ i ∧ i < r.nativeFrom + 4

theorem insert_eq {r : Relocation} {a b : List Relocation}
    (ha : ∀ s ∈ a, ¬ r.sourceTo ≤ s.sourceTo) (hb : ∀ s ∈ b, r.sourceTo ≤ s.sourceTo) :
    insert r (a ++ b) = a ++ r :: b := by
  induction a with
  | nil =>
      cases b with
      | nil => rfl
      | cons s b => exact if_pos (hb s (.head _))
  | cons s a ih =>
      rw [List.cons_append, insert, if_neg (ha s (.head _)), ih fun t ht => ha t (.tail _ ht)]
      rfl

/-- Putting relocations into place one by one is the stable sort. -/
theorem sortByTarget_eq (rs : List Relocation) : sortByTarget rs = inOrder rs := by
  have trans : ∀ a b c : Relocation, decide (a.sourceTo ≤ b.sourceTo) = true →
      decide (b.sourceTo ≤ c.sourceTo) = true → decide (a.sourceTo ≤ c.sourceTo) = true := by
    simpa using fun a b c : Relocation => Int.le_trans
  have total : ∀ a b : Relocation,
      (decide (a.sourceTo ≤ b.sourceTo) || decide (b.sourceTo ≤ a.sourceTo)) = true := by
    simpa using fun a b : Relocation => Int.le_total a.sourceTo b.sourceTo
  induction rs with
  | nil => simp [sortByTarget, inOrder]
  | cons r rs ih =>
      obtain ⟨a, b, hcons, hrest, ha⟩ := List.mergeSort_cons trans total r rs
      have hsorted := List.pairwise_mergeSort trans total (r :: rs)
      rw [hcons] at hsorted
      have hb := (List.pairwise_cons.mp (List.pairwise_append.mp hsorted).2.1).1
      have hplace : insert r (a ++ b) = a ++ r :: b :=
        insert_eq (by simpa using ha) (by simpa using hb)
      rw [inOrder, hcons, ← hplace, ← hrest]
      exact congrArg (insert r) ih

theorem mem_inOrder {rs : List Relocation} {r : Relocation} : r ∈ inOrder rs ↔ r ∈ rs :=
  List.mem_mergeSort

theorem getElem?_writeAll {target : Int → Nat} {rs : List Relocation} {native : Bytes} {i : Nat}
    (hin : ∀ r ∈ rs, 0 ≤ r.nativeFrom) (hi : ∀ r ∈ rs, ¬ r.Covers i) :
    (writeAll target rs native)[i]? = native[i]? := by
  refine Bytes.getElem?_foldl_overwrite _ _ native fun r hr => ?_
  have h0 := hin r hr
  have hcovers := hi r hr
  unfold Covers at hcovers
  rw [length_distance]
  omega

/-- Among relocations with fields in an image of `size` bytes, the first one without. -/
def FirstOutside (size : Nat) (rs done : List Relocation) (r : Relocation) : Prop :=
  ∃ rest, rs = done ++ r :: rest ∧ (∀ t ∈ done, t.Inside size) ∧ ¬ r.Inside size

theorem inside_or_first (size : Nat) (rs : List Relocation) :
    (∀ r ∈ rs, r.Inside size) ∨ ∃ done r, FirstOutside size rs done r := by
  cases hfind : rs.find? fun r => !decide (r.Inside size) with
  | none => exact .inl (by simpa using hfind)
  | some r =>
      obtain ⟨hout, done, rest, hsplit, hdone⟩ := List.find?_eq_some_iff_append.mp hfind
      exact .inr ⟨done, r, rest, hsplit, by simpa using hdone, by simpa using hout⟩

end Relocation

theorem Patching.reached_along (ls : List Located) :
    Patching.reached (Step.along 0 0 ls) = Relocation.lands ls := by
  funext r
  conv_rhs => rw [← Step.map_along 0 0 ls, Relocation.lands, List.any_map]
  rfl

namespace Patched

section
variable (code : Option Bytes) (relocs : List Relocation) (native : Bytes)

open Relocation

def hits : List Relocation := (inOrder relocs).filter (lands (Scan.ofCode (code.getD [])).instrs)

def strays : List Relocation :=
  (inOrder relocs).filter fun r => !lands (Scan.ofCode (code.getD [])).instrs r

variable {code relocs native}

theorem ofCode_inside (hin : ∀ r ∈ hits code relocs, r.Inside native.length) :
    ofCode code relocs (some native) =
      ⟨(hits code relocs).length,
        some (writeAll (Expected.offset (Scan.ofCode (code.getD [])).instrs) (hits code relocs)
          native),
        match (Walk.ofCode code).fault, strays code relocs with
        | some f, _ => .failed f
        | none, [] => .done
        | none, r :: rs => .failed (r.unreached (rs.length + 1))⟩ := by
  obtain ⟨stop, hr⟩ := Scan.reads_instrs (code.getD [])
  have hreached := Patching.reached_along (Scan.ofCode (code.getD [])).instrs
  obtain ⟨rest, missed, hfollow, hleft⟩ := Patching.follow_eq
    (Step.along_ascending hr.ascending 0 0) (fun s hs => Expected.offset_step hr.ascending hs)
    (sortByTarget_ordered relocs) (p := ⟨native, 0, []⟩)
    (by rwa [hreached, sortByTarget_eq])
  rw [hreached, sortByTarget_eq] at hfollow hleft
  have hstrays : missed ++ rest = strays code relocs := hleft
  simp only [ofCode, into, Walk.steps_ofCode, sortByTarget_eq, hfollow, hstrays, hits,
    Nat.zero_add]
  cases (Walk.ofCode code).fault <;> cases strays code relocs <;> rfl

theorem ofCode_outside {done rest : List Relocation} {r : Relocation}
    (hsplit : hits code relocs = done ++ r :: rest) (hin : ∀ t ∈ done, t.Inside native.length)
    (hout : ¬ r.Inside native.length) (hword : r.Word) :
    ofCode code relocs (some native) =
      ⟨done.length,
        some (writeAll (Expected.offset (Scan.ofCode (code.getD [])).instrs) done native),
        r.rejection native.length⟩ := by
  obtain ⟨stop, hr⟩ := Scan.reads_instrs (code.getD [])
  have hreached := Patching.reached_along (Scan.ofCode (code.getD [])).instrs
  -- between the fields that are written, the queue also has relocations that are passed by
  obtain ⟨front, more, hqueue, hfront, hmore⟩ := List.filter_eq_append_iff.mp hsplit
  obtain ⟨passed, back, rfl, hpassed, hlands, -⟩ := List.filter_eq_cons_iff.mp hmore
  have hdone : (front ++ passed).filter (lands (Scan.ofCode (code.getD [])).instrs) = done := by
    rw [List.filter_append, hfront, List.filter_eq_nil_iff.mpr hpassed, List.append_nil]
  have hordered := sortByTarget_ordered relocs
  rw [sortByTarget_eq, hqueue, ← List.append_assoc] at hordered
  obtain ⟨left, missed, hfollow⟩ := Patching.follow_stops
    (Step.along_ascending hr.ascending 0 0) (fun s hs => Expected.offset_step hr.ascending hs)
    hordered (p := ⟨native, 0, []⟩) (by rwa [hreached, hdone]) (by rwa [hreached]) hout hword
  rw [hreached, hdone] at hfollow
  simp only [ofCode, into, Walk.steps_ofCode, sortByTarget_eq, hqueue, ← List.append_assoc,
    hfollow, Nat.zero_add]

end

end Patched

open Relocation

/-- Patching follows the rule for single relocations. Of the relocations in the stable order of
their targets, those that land on an instruction have their fields written one after the other,
and no other byte changes; of those that do not, the first is reported with the number of all. -/
theorem patching_follows_rule {code native : Bytes} {relocs : List Relocation} {ls : List Located}
    (hne : code ≠ []) (hr : Reads code 0 ls code.length)
    (hin : ∀ r ∈ relocs, r.Inside native.length) :
    let hits := (inOrder relocs).filter (lands ls)
    let strays := (inOrder relocs).filter fun r => !lands ls r
    let image := writeAll (Expected.offset ls) hits native
    let answer := Patched.ofCode (some code) relocs (some native)
    answer.native = some image ∧
      (∀ i, (∀ r ∈ hits, ¬ r.Covers i) → image[i]? = native[i]?) ∧
      answer.patched = hits.length ∧
      (answer.outcome = .done ↔ ∀ r ∈ relocs, lands ls r = true) ∧
      ∀ r rest, strays = r :: rest → answer.outcome =
        .failed (.report .undefinedJumpTarget r.sourceFrom ("target " ++ toString r.sourceTo ++
          " never reached (" ++ toString strays.length ++ " unresolved)")) := by
  intro hits strays image answer
  have hs := hr.scan_end
  have hinside : ∀ r ∈ hits, r.Inside native.length :=
    fun r hr => hin r (mem_inOrder.mp (List.mem_of_mem_filter hr))
  have hhits : Patched.hits (some code) relocs = hits := by rw [Patched.hits, Option.getD_some, hs]
  have hstrays : Patched.strays (some code) relocs = strays := by
    rw [Patched.strays, Option.getD_some, hs]
  have hfault : (Walk.ofCode (some code)).fault = none := by rw [Walk.ofCode_eq hne, hs]; rfl
  have hanswer : answer = _ := Patched.ofCode_inside (by rwa [hhits])
  rw [hhits, hstrays, hfault, Option.getD_some, hs] at hanswer
  have hdone : strays = [] ↔ ∀ r ∈ relocs, lands ls r = true := by
    simp [strays, List.filter_eq_nil_iff, mem_inOrder]
  refine ⟨by rw [hanswer], fun i hi => ?_, by rw [hanswer], ?_, fun r rest hcons => ?_⟩
  · exact getElem?_writeAll (fun r hr => (hinside r hr).1) hi
  · rw [← hdone, hanswer]
    cases strays with
    | nil => exact iff_of_true rfl rfl
    | cons r rest => exact iff_of_false nofun nofun
  · rw [hanswer, hcons]
    rfl

/-- Two fields that overlap, between a target in front of the program and one in the middle of
the jump. -/
theorem patching_follows_rule_overlap :
    let code : Bytes := [0x0a, 5, 0, 0, 0, 0x12]
    let native : Bytes := [0xcc, 0xcc, 0xcc, 0xcc, 0xcc, 0xcc, 0xcc]
    let relocs : List Relocation :=
      [⟨7, 5, 2, .direct⟩, ⟨8, 3, 0, .direct⟩, ⟨0, 0, 1, .direct⟩, ⟨9, -1, 0, .conditional⟩]
    let answer := Patched.ofCode (some code) relocs (some native)
    (∀ r ∈ relocs, r.Inside native.length) ∧
      answer.native = some [0xcc, 0xfb, 0xff, 0xff, 0xff, 0xff, 0xcc] ∧ answer.patched = 2 ∧
      answer.outcome = .failed (.report .undefinedJumpTarget 9
        "target -1 never reached (2 unresolved)") := by
  intro code native relocs answer
  have hreads : Reads code 0 [⟨0, .branch .jmp 5⟩, ⟨5, .ret⟩] 6 := .next rfl (.next rfl (.here 6))
  have hin : ∀ r ∈ relocs, r.Inside native.length := by decide
  have horder : inOrder relocs =
      [⟨9, -1, 0, .conditional⟩, ⟨0, 0, 1, .direct⟩, ⟨8, 3, 0, .direct⟩, ⟨7, 5, 2, .direct⟩] :=
    (sortByTarget_eq relocs).symm.trans (by decide)
  obtain ⟨himage, -, hcount, -, hstray⟩ := patching_follows_rule (by decide) hreads hin
  rw [horder] at himage hcount hstray
  exact ⟨hin, himage, hcount, hstray _ _ rfl⟩

/-- Patching ends at the first field that it reaches and that is not in the image. Until then
all fields were written. The field is reported if its end is a signed 64-bit word. Otherwise the
write leaves the buffer, and nothing else makes it do so. -/
theorem patching_stops_at_bad_field (code : Option Bytes) {relocs : List Relocation}
    (native : Bytes) (hword : ∀ r ∈ relocs, r.Word) :
    let ls := (Scan.ofCode (code.getD [])).instrs
    let hits := (inOrder relocs).filter (lands ls)
    let answer := Patched.ofCode code relocs (some native)
    (∀ done r, FirstOutside native.length hits done r →
        answer.native = some (writeAll (Expected.offset ls) done native) ∧
        answer.patched = done.length ∧
        (r.nativeFrom < 2 ^ 63 - 4 → answer.outcome =
          .failed (.report .invariantViolation r.sourceFrom ("rel32 field at " ++
            Text.markedHex r.nativeFrom ++ " outside " ++ toString native.length ++
            "-byte image")))) ∧
      (answer.outcome = .outOfRange ↔
        ∃ done r, FirstOutside native.length hits done r ∧ 2 ^ 63 - 4 ≤ r.nativeFrom) := by
  intro ls hits answer
  have hstop : ∀ {done r}, FirstOutside native.length hits done r → answer =
      ⟨done.length, some (writeAll (Expected.offset ls) done native),
        r.rejection native.length⟩ := by
    rintro done r ⟨rest, hsplit, hdone, hout⟩
    have hr : r ∈ hits := hsplit ▸ List.mem_append_right _ (.head _)
    exact Patched.ofCode_outside hsplit hdone hout (hword r (mem_inOrder.mp
      (List.mem_of_mem_filter hr)))
  refine ⟨fun done r hfirst => ?_, fun hrange => ?_, ?_⟩
  · rw [hstop hfirst]
    exact ⟨rfl, rfl, fun hlt => if_neg (Int.not_le.mpr hlt)⟩
  · rcases inside_or_first native.length hits with hin | ⟨done, r, hfirst⟩
    · have hanswer : answer = _ := Patched.ofCode_inside hin
      rw [hanswer] at hrange
      cases hfault : (Walk.ofCode code).fault <;> cases hs : Patched.strays code relocs <;>
        simp only [hfault, hs, reduceCtorEq] at hrange
    · rw [hstop hfirst] at hrange
      by_cases hover : r.Overlooked
      · exact ⟨done, r, hfirst, hover⟩
      · rw [rejection, if_neg hover] at hrange
        cases hrange
  · rintro ⟨done, r, hfirst, hover⟩
    rw [hstop hfirst]
    exact if_pos hover

/-- The field in front of the image is reported, behind one that was written. -/
theorem patching_stops_at_bad_field_reported :
    let code : Bytes := [0x0a, 5, 0, 0, 0, 0x12]
    let native : Bytes := [0xcc, 0xcc, 0xcc, 0xcc, 0xcc, 0xcc]
    let relocs : List Relocation :=
      [⟨3, 5, -1, .direct⟩, ⟨1, 0, 0, .direct⟩, ⟨2, 5, 1, .conditional⟩]
    let answer := Patched.ofCode (some code) relocs (some native)
    (∀ r ∈ relocs, r.Word) ∧
      answer.native = some [0xfc, 0xff, 0xff, 0xff, 0xcc, 0xcc] ∧ answer.patched = 1 ∧
      answer.outcome = .failed (.report .invariantViolation 3
        "rel32 field at -0x1 outside 6-byte image") := by
  intro code native relocs answer
  have hword : ∀ r ∈ relocs, r.Word := by decide
  have horder : inOrder relocs =
      [⟨1, 0, 0, .direct⟩, ⟨3, 5, -1, .direct⟩, ⟨2, 5, 1, .conditional⟩] :=
    (sortByTarget_eq relocs).symm.trans (by decide)
  obtain ⟨hbad, -⟩ := patching_stops_at_bad_field (some code) native hword
  rw [horder] at hbad
  obtain ⟨himage, hcount, hreport⟩ :=
    hbad [⟨1, 0, 0, .direct⟩] ⟨3, 5, -1, .direct⟩ ⟨_, rfl, by decide, by decide⟩
  exact ⟨hword, himage.trans (by decide), hcount, (hreport (by decide)).trans (by decide)⟩

/-- A field at the last signed 64-bit word passes the guard, and the write leaves the buffer. -/
theorem patching_goes_out_of_range :
    let r : Relocation := ⟨7, 0, 2 ^ 63 - 1, .direct⟩
    r.Word ∧ ¬ r.Inside 4 ∧
      Patched.ofCode (some [0x12]) [r] (some [0xcc, 0xcc, 0xcc, 0xcc]) =
        ⟨0, some [0xcc, 0xcc, 0xcc, 0xcc], .outOfRange⟩ := by
  decide

end StackCode.Lowering
