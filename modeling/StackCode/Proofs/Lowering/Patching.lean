import Mathlib.Data.List.Basic
import StackCode.Lowering.Patched
import StackCode.Proofs.Bytes

/-!
# What patching does

Sorting by target keeps the relocations and puts them in order. The walk meets ascending
offsets, so one pass over the sorted queue takes every relocation at its target: the
fields of the relocations whose target is a step are written, in the order of the queue,
and the others are left over. This holds of any queue, with targets that are repeated,
passed by or behind the end, as long as the fields that are written lie in the image. The
first of them that does not ends the walk.
-/
namespace StackCode.Lowering

namespace Relocation

theorem insert_perm (r : Relocation) (rs : List Relocation) : (insert r rs).Perm (r :: rs) := by
  induction rs with
  | nil => exact .refl _
  | cons s ss ih =>
      unfold insert
      split
      next => exact .refl _
      next => exact (ih.cons s).trans (.swap r s ss)

theorem sortByTarget_perm (rs : List Relocation) : (sortByTarget rs).Perm rs := by
  induction rs with
  | nil => exact .refl _
  | cons r rs ih => exact (insert_perm r _).trans (ih.cons r)

def Ordered (rs : List Relocation) : Prop := rs.Pairwise fun a b => a.sourceTo ≤ b.sourceTo

theorem insert_ordered (r : Relocation) {rs : List Relocation} (h : Ordered rs) :
    Ordered (insert r rs) := by
  induction rs with
  | nil => exact List.pairwise_singleton _ _
  | cons s ss ih =>
      obtain ⟨hs, hss⟩ := List.pairwise_cons.mp h
      unfold insert
      split
      next hle =>
        refine .cons (fun t ht => ?_) h
        rcases List.mem_cons.mp ht with rfl | ht
        · exact hle
        · exact Int.le_trans hle (hs t ht)
      next hlt =>
        refine .cons (fun t ht => ?_) (ih hss)
        rcases List.mem_cons.mp ((insert_perm r ss).mem_iff.mp ht) with rfl | ht
        · omega
        · exact hs t ht

theorem sortByTarget_ordered (rs : List Relocation) : Ordered (sortByTarget rs) := by
  induction rs with
  | nil => exact .nil
  | cons r rs ih => exact insert_ordered r ih

/-- The relocations with a target before, at and behind an offset. -/
def before (ip : Int) (rs : List Relocation) : List Relocation := rs.filter (·.sourceTo < ip)

def landing (ip : Int) (rs : List Relocation) : List Relocation := rs.filter (·.sourceTo = ip)

def beyond (ip : Int) (rs : List Relocation) : List Relocation := rs.filter (ip < ·.sourceTo)

theorem mem_before {ip : Int} {rs : List Relocation} {r : Relocation} :
    r ∈ before ip rs ↔ r ∈ rs ∧ r.sourceTo < ip := by
  simp [before]

theorem mem_landing {ip : Int} {rs : List Relocation} {r : Relocation} :
    r ∈ landing ip rs ↔ r ∈ rs ∧ r.sourceTo = ip := by
  simp [landing]

theorem mem_beyond {ip : Int} {rs : List Relocation} {r : Relocation} :
    r ∈ beyond ip rs ↔ r ∈ rs ∧ ip < r.sourceTo := by
  simp [beyond]

theorem Ordered.parts_of_lt {ip : Int} {r : Relocation} {rs : List Relocation}
    (h : Ordered (r :: rs)) (hr : ip < r.sourceTo) :
    before ip (r :: rs) = [] ∧ landing ip (r :: rs) = [] ∧ beyond ip (r :: rs) = r :: rs := by
  have hall : ∀ t ∈ r :: rs, ip < t.sourceTo := by
    intro t ht
    rcases List.mem_cons.mp ht with rfl | ht
    · exact hr
    · exact Int.lt_of_lt_of_le hr ((List.pairwise_cons.mp h).1 t ht)
  refine ⟨List.filter_eq_nil_iff.mpr fun t ht => ?_, List.filter_eq_nil_iff.mpr fun t ht => ?_,
    List.filter_eq_self.mpr fun t ht => decide_eq_true (hall t ht)⟩
  · have := hall t ht
    simp only [decide_eq_true_eq]
    omega
  · have := hall t ht
    simp only [decide_eq_true_eq]
    omega

theorem Ordered.before_of_le {ip : Int} {r : Relocation} {rs : List Relocation}
    (h : Ordered (r :: rs)) (hr : ip ≤ r.sourceTo) : before ip rs = [] := by
  refine List.filter_eq_nil_iff.mpr fun t ht => ?_
  have := (List.pairwise_cons.mp h).1 t ht
  simp only [decide_eq_true_eq]
  omega

/-- An ordered queue falls into three parts at an offset. -/
theorem Ordered.split {rs : List Relocation} (h : Ordered rs) (ip : Int) :
    rs = before ip rs ++ (landing ip rs ++ beyond ip rs) := by
  induction rs with
  | nil => rfl
  | cons r rs ih =>
      have htail := ih (List.pairwise_cons.mp h).2
      rcases Int.lt_trichotomy r.sourceTo ip with hlt | heq | hgt
      · have h1 : ¬ r.sourceTo = ip := by omega
        have h2 : ¬ ip < r.sourceTo := by omega
        simpa [before, landing, beyond, List.filter_cons, hlt, h1, h2] using htail
      · have hnone := h.before_of_le (Int.le_of_eq heq.symm)
        have hb : before ip (r :: rs) = [] := by
          rw [← hnone]
          exact List.filter_cons_of_neg (by simp [heq])
        have hl : landing ip (r :: rs) = r :: landing ip rs :=
          List.filter_cons_of_pos (by simp [heq])
        have hy : beyond ip (r :: rs) = beyond ip rs :=
          List.filter_cons_of_neg (by simp [heq])
        rw [hb, hl, hy, List.nil_append, List.cons_append]
        rw [hnone, List.nil_append] at htail
        rw [← htail]
      · obtain ⟨h1, h2, h3⟩ := h.parts_of_lt hgt
        rw [h1, h2, h3]
        rfl

def Inside (r : Relocation) (size : Nat) : Prop := 0 ≤ r.nativeFrom ∧ r.nativeFrom + 4 ≤ size

instance (r : Relocation) (size : Nat) : Decidable (r.Inside size) :=
  inferInstanceAs (Decidable (_ ∧ _))

def Word (r : Relocation) : Prop := -2 ^ 63 ≤ r.nativeFrom ∧ r.nativeFrom < 2 ^ 63

instance (r : Relocation) : Decidable r.Word := inferInstanceAs (Decidable (_ ∧ _))

/-- The end of the field is behind the signed 64-bit words. The guard, which adds the width of
the field in 64-bit arithmetic, lets it pass. -/
def Overlooked (r : Relocation) : Prop := 2 ^ 63 - 4 ≤ r.nativeFrom

instance (r : Relocation) : Decidable r.Overlooked := inferInstanceAs (Decidable (_ ≤ _))

/-- How patching ends at a field outside an image of `size` bytes. -/
def rejection (r : Relocation) (size : Nat) : Outcome :=
  if r.Overlooked then .outOfRange else .failed (r.outside size)

def write (r : Relocation) (target : Nat) (native : Bytes) : Bytes :=
  native.overwrite r.nativeFrom.toNat (distance ((target : Int) - (r.nativeFrom + 4)))

@[simp] theorem length_write (r : Relocation) (target : Nat) (native : Bytes) :
    (r.write target native).length = native.length := by
  simp [write]

/-- Writes each field in turn; `target` says where targets are. -/
def writeAll (target : Int → Nat) (rs : List Relocation) (native : Bytes) : Bytes :=
  rs.foldl (fun native r => r.write (target r.sourceTo) native) native

theorem writeAll_append (target : Int → Nat) (a b : List Relocation) (native : Bytes) :
    writeAll target (a ++ b) native = writeAll target b (writeAll target a native) := by
  simp [writeAll]

/-- Fields that share a target need only its own offset. -/
theorem writeAll_landing {target : Int → Nat} {ip : Int} {n : Nat} (h : target ip = n)
    (rs : List Relocation) (native : Bytes) :
    writeAll (fun _ => n) (landing ip rs) native = writeAll target (landing ip rs) native := by
  refine List.foldl_ext _ _ _ fun native r hr => ?_
  rw [(mem_landing.mp hr).2, h]

@[simp] theorem length_writeAll (target : Int → Nat) (rs : List Relocation) (native : Bytes) :
    (writeAll target rs native).length = native.length :=
  Bytes.length_foldl_overwrite _ _ rs native

end Relocation

namespace Patching

open Relocation

theorem apply_inside {p : Patching} {r : Relocation} (h : r.Inside p.native.length)
    (nativeIp : Nat) :
    p.apply nativeIp r =
      .ok { p with native := r.write nativeIp p.native, patched := p.patched + 1 } := by
  obtain ⟨h0, h4⟩ := h
  have hwrap : wrap64 (r.nativeFrom + 4) ≤ p.native.length := by
    unfold wrap64
    omega
  rw [apply, if_neg (by omega), if_neg (by omega)]
  rfl

theorem apply_outside {p : Patching} {r : Relocation} (h : ¬ r.Inside p.native.length)
    (hword : r.Word) (nativeIp : Nat) :
    p.apply nativeIp r = .error (r.rejection p.native.length) := by
  obtain ⟨hlo, hhi⟩ := hword
  unfold Inside at h
  unfold apply rejection wrap64
  -- the end of the field is a word exactly if the field is not overlooked
  by_cases hover : r.Overlooked
  · have hplace : 2 ^ 63 - 4 ≤ r.nativeFrom := hover
    rw [if_neg (by omega), if_pos (by omega), if_pos hover]
  · have hplace : ¬ 2 ^ 63 - 4 ≤ r.nativeFrom := hover
    rw [if_pos (by omega), if_neg hover]

/-! Relocations in front of the queue are passed by, written or left where they are. -/

section
variable {ip nativeIp : Nat} {p : Patching}

theorem drain_passed {passed : List Relocation} (h : ∀ r ∈ passed, r.sourceTo < ip)
    (queue : List Relocation) :
    drain ip nativeIp (passed ++ queue) p =
      drain ip nativeIp queue { p with missed := p.missed ++ passed } := by
  induction passed generalizing p with
  | nil => simp
  | cons r rs ih =>
      rw [List.cons_append, drain, if_pos (h r (.head _)), ih fun t ht => h t (.tail _ ht)]
      simp

theorem drain_landed {landed : List Relocation} (h : ∀ r ∈ landed, r.sourceTo = ip)
    (hin : ∀ r ∈ landed, r.Inside p.native.length) (queue : List Relocation) :
    drain ip nativeIp (landed ++ queue) p =
      drain ip nativeIp queue
        ⟨writeAll (fun _ => nativeIp) landed p.native, p.patched + landed.length, p.missed⟩ := by
  induction landed generalizing p with
  | nil => rfl
  | cons r rs ih =>
      have hr := h r (.head _)
      rw [List.cons_append, drain, if_neg (by omega), if_pos hr, apply_inside (hin r (.head _))]
      simp only
      rw [ih (fun t ht => h t (.tail _ ht)) fun t ht => by simpa using hin t (.tail _ ht)]
      simp only [writeAll, List.foldl_cons, List.length_cons, Nat.add_right_comm, Nat.add_assoc]

theorem drain_ahead {queue : List Relocation} (h : ∀ r ∈ queue, ip < r.sourceTo) :
    drain ip nativeIp queue p = (queue, p, none) := by
  cases queue with
  | nil => rfl
  | cons r rs =>
      have hr := h r (.head _)
      rw [drain, if_neg (by omega), if_neg (by omega)]

end

/-- One step takes the relocations up to its offset off an ordered queue and writes those
that are at it. -/
theorem drain_eq {ip nativeIp : Nat} {queue : List Relocation} {p : Patching}
    (ho : Ordered queue) (hin : ∀ r ∈ landing ip queue, r.Inside p.native.length) :
    drain ip nativeIp queue p =
      (beyond ip queue,
        ⟨writeAll (fun _ => nativeIp) (landing ip queue) p.native,
          p.patched + (landing ip queue).length, p.missed ++ before ip queue⟩, none) := by
  conv_lhs => rw [ho.split ip]
  rw [drain_passed fun r hr => (mem_before.mp hr).2,
    drain_landed (fun r hr => (mem_landing.mp hr).2) (by exact hin),
    drain_ahead fun r hr => (mem_beyond.mp hr).2]

/-- A step stops at a field outside the image that waits for it, behind those before it. -/
theorem drain_stops {ip nativeIp : Nat} {front back : List Relocation} {r : Relocation}
    {p : Patching} (ho : Ordered (front ++ r :: back)) (hr : r.sourceTo = ip)
    (hin : ∀ t ∈ landing ip front, t.Inside p.native.length)
    (hout : ¬ r.Inside p.native.length) (hword : r.Word) :
    drain ip nativeIp (front ++ r :: back) p =
      (r :: back, ⟨writeAll (fun _ => nativeIp) (landing ip front) p.native,
        p.patched + (landing ip front).length, p.missed ++ before ip front⟩,
        some (r.rejection p.native.length)) := by
  obtain ⟨hofront, -, hle⟩ := List.pairwise_append.mp ho
  have hnone : beyond ip front = [] := by
    refine List.filter_eq_nil_iff.mpr fun t ht => ?_
    have := hle t ht r (.head _)
    simp only [decide_eq_true_eq]
    omega
  have hsplit : front = before ip front ++ landing ip front := by
    conv_lhs => rw [Ordered.split hofront ip, hnone, List.append_nil]
  conv_lhs => rw [hsplit, List.append_assoc]
  rw [drain_passed fun t ht => (mem_before.mp ht).2,
    drain_landed (fun t ht => (mem_landing.mp ht).2) (by exact hin), drain, if_neg (by omega), if_pos hr,
    apply_outside (by simpa using hout) hword]
  simp

def reached (steps : List Step) (r : Relocation) : Bool :=
  steps.any fun s => (s.ip : Int) == r.sourceTo

theorem reached_cons (s : Step) (ss : List Step) (r : Relocation) :
    reached (s :: ss) r = ((s.ip : Int) == r.sourceTo || reached ss r) := rfl

theorem reached_cons_of_ne {s : Step} {r : Relocation} (h : (s.ip : Int) ≠ r.sourceTo)
    (ss : List Step) : reached (s :: ss) r = reached ss r := by
  rw [reached_cons, beq_eq_false_iff_ne.mpr h, Bool.false_or]

theorem not_reached {s : Step} {ss : List Step} (hasc : (s :: ss).Pairwise fun a b => a.ip < b.ip)
    {r : Relocation} (hr : r.sourceTo ≤ s.ip) : reached ss r = false := by
  refine List.any_eq_false.mpr fun t ht => ?_
  have := (List.pairwise_cons.mp hasc).1 t ht
  simp only [beq_iff_eq]
  omega

theorem filter_reached {s : Step} {ss : List Step} {queue : List Relocation}
    (hasc : (s :: ss).Pairwise fun a b => a.ip < b.ip) (ho : Ordered queue) :
    queue.filter (reached (s :: ss)) =
        landing s.ip queue ++ (beyond s.ip queue).filter (reached ss) ∧
      queue.filter (fun r => !reached (s :: ss) r) =
        before s.ip queue ++ (beyond s.ip queue).filter fun r => !reached ss r := by
  have hb : ∀ r ∈ before s.ip queue, reached (s :: ss) r = false := by
    intro r hr
    have hlt := (mem_before.mp hr).2
    rw [reached_cons_of_ne (by omega), not_reached hasc (by omega)]
  have hl : ∀ r ∈ landing s.ip queue, reached (s :: ss) r = true := by
    intro r hr
    rw [reached_cons, (mem_landing.mp hr).2]
    simp
  have hy : ∀ r ∈ beyond s.ip queue, reached (s :: ss) r = reached ss r := by
    intro r hr
    have hlt := (mem_beyond.mp hr).2
    exact reached_cons_of_ne (by omega) ss
  constructor
  · conv_lhs => rw [ho.split s.ip]
    rw [List.filter_append, List.filter_append, List.filter_eq_self.mpr hl,
      List.filter_congr hy, List.filter_eq_nil_iff.mpr (by simpa using hb)]
    rfl
  · conv_lhs => rw [ho.split s.ip]
    rw [List.filter_append, List.filter_append, List.filter_eq_self.mpr (by simpa using hb),
      List.filter_congr (fun r hr => congrArg _ (hy r hr)),
      List.filter_eq_nil_iff.mpr (by simpa using hl)]
    rfl

/-- The walk writes the fields of the relocations that it reaches, in the order of the
queue, and leaves the others over. `target` gives the native offsets of its steps. -/
theorem follow_eq {target : Int → Nat} {steps : List Step} {queue : List Relocation}
    {p : Patching} (hasc : steps.Pairwise fun a b => a.ip < b.ip)
    (htarget : ∀ s ∈ steps, target s.ip = s.nativeIp) (ho : Ordered queue)
    (hin : ∀ r ∈ queue.filter (reached steps), r.Inside p.native.length) :
    ∃ rest missed, follow steps queue p =
        (rest, ⟨writeAll target (queue.filter (reached steps)) p.native,
          p.patched + (queue.filter (reached steps)).length, missed⟩, none) ∧
      missed ++ rest = p.missed ++ queue.filter fun r => !reached steps r := by
  induction steps generalizing queue p with
  | nil =>
      refine ⟨queue, p.missed, ?_, ?_⟩
      · have hnone : queue.filter (reached []) = [] :=
          List.filter_eq_nil_iff.mpr (by simp [reached])
        rw [hnone]
        rfl
      · rw [List.filter_eq_self.mpr (by simp [reached])]
  | cons s ss ih =>
      obtain ⟨hr, hn⟩ := filter_reached hasc ho
      rw [hr, List.forall_mem_append] at hin
      -- behind this step only the relocations with a later target are left in the queue
      obtain ⟨rest, missed, hf, hm⟩ := @ih (beyond s.ip queue)
        ⟨writeAll target (landing s.ip queue) p.native,
          p.patched + (landing s.ip queue).length, p.missed ++ before s.ip queue⟩
        (List.pairwise_cons.mp hasc).2 (fun t ht => htarget t (.tail _ ht))
        (ho.sublist List.filter_sublist) (by simpa using hin.2)
      refine ⟨rest, missed, ?_, ?_⟩
      · rw [follow, drain_eq ho hin.1]
        simp only [writeAll_landing (htarget s (.head _))]
        rw [hf, hr, writeAll_append, List.length_append, Nat.add_assoc]
      · rw [hm, hn, List.append_assoc]

/-- The walk stops at the first relocation that it reaches and whose field is outside the
image. The fields of those that it reached before are written. -/
theorem follow_stops {target : Int → Nat} {steps : List Step} {front back : List Relocation}
    {r : Relocation} {p : Patching} (hasc : steps.Pairwise fun a b => a.ip < b.ip)
    (htarget : ∀ s ∈ steps, target s.ip = s.nativeIp) (ho : Ordered (front ++ r :: back))
    (hin : ∀ t ∈ front.filter (reached steps), t.Inside p.native.length)
    (hr : reached steps r = true) (hout : ¬ r.Inside p.native.length) (hword : r.Word) :
    ∃ rest missed, follow steps (front ++ r :: back) p =
      (rest, ⟨writeAll target (front.filter (reached steps)) p.native,
        p.patched + (front.filter (reached steps)).length, missed⟩,
        some (r.rejection p.native.length)) := by
  induction steps generalizing front p with
  | nil => cases hr
  | cons s ss ih =>
      have hofront : Ordered front := ho.sublist (List.sublist_append_left _ _)
      obtain ⟨hhits, -⟩ := filter_reached hasc hofront
      rw [hhits, List.forall_mem_append] at hin
      rw [follow, hhits, writeAll_append, List.length_append,
        ← writeAll_landing (htarget s (.head _))]
      rcases Int.lt_trichotomy r.sourceTo s.ip with hlt | heq | hgt
      · -- the steps ascend, so none of them comes back to a target that was passed by
        rw [reached_cons_of_ne (by omega), not_reached hasc (Int.le_of_lt hlt)] at hr
        cases hr
      · have hrest : (beyond s.ip front).filter (reached ss) = [] := by
          refine List.filter_eq_nil_iff.mpr fun t ht => ?_
          obtain ⟨hmem, hbeyond⟩ := mem_beyond.mp ht
          have := (List.pairwise_append.mp ho).2.2 t hmem r (.head _)
          omega
        rw [drain_stops ho heq hin.1 hout hword, hrest]
        exact ⟨_, _, rfl⟩
      · have hoback : Ordered (r :: back) := ho.sublist (List.sublist_append_right _ _)
        obtain ⟨-, hl, hy⟩ := hoback.parts_of_lt hgt
        have hlanding : landing s.ip (front ++ r :: back) = landing s.ip front := by
          rw [landing, List.filter_append]
          exact (congrArg _ hl).trans (List.append_nil _)
        have hbeyond : beyond s.ip (front ++ r :: back) = beyond s.ip front ++ r :: back := by
          rw [beyond, List.filter_append]
          exact congrArg _ hy
        rw [reached_cons_of_ne (by omega)] at hr
        rw [drain_eq ho (by rw [hlanding]; exact hin.1), hlanding, hbeyond]
        have ho' : Ordered (beyond s.ip front ++ r :: back) := by
          rw [← hbeyond]
          exact ho.sublist List.filter_sublist
        obtain ⟨rest, missed, hf⟩ := @ih (beyond s.ip front)
          ⟨writeAll (fun _ => s.nativeIp) (landing s.ip front) p.native,
            p.patched + (landing s.ip front).length,
            p.missed ++ before s.ip (front ++ r :: back)⟩
          (List.pairwise_cons.mp hasc).2 (fun t ht => htarget t (.tail _ ht)) ho'
          (by simpa using hin.2) hr (by simpa using hout)
        refine ⟨rest, missed, ?_⟩
        simp only
        rw [hf, length_writeAll, Nat.add_assoc]

end Patching

end StackCode.Lowering
