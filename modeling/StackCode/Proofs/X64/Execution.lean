import Mathlib.Logic.Relation
import StackCode.Proofs.X64.Encoding
import StackCode.X64.Machine

/-!
# Straight-line machine code

Code that stands in an image is fetched instruction by instruction. `Through` carries out
instructions that fall through to one another, and `Runs` ends with one that may lead
anywhere; where the image holds their encodings, the machine takes the same steps.
-/
namespace StackCode.X64

namespace Regs

theorem get_set (rs : Regs) (r q : Reg) (v : UInt64) :
    (rs.set r v).get q = if r.toNat % 16 = q.toNat % 16 then v else rs.get q := by
  exact Vector.getElem_set (index_lt r) (index_lt q)

@[simp] theorem get_set_self (rs : Regs) (r : Reg) (v : UInt64) : (rs.set r v).get r = v := by
  rw [get_set, if_pos rfl]

theorem mod_ne {r q : Reg} (hr : r < 16) (hq : q < 16) (h : r ≠ q) :
    r.toNat % 16 ≠ q.toNat % 16 := by
  have hr' : r.toNat < 16 := UInt8.lt_iff_toNat_lt.mp hr
  have hq' : q.toNat < 16 := UInt8.lt_iff_toNat_lt.mp hq
  rw [Nat.mod_eq_of_lt hr', Nat.mod_eq_of_lt hq']
  exact fun he => h (UInt8.toNat_inj.mp he)

theorem get_set_of_ne (rs : Regs) {r q : Reg} (hr : r < 16) (hq : q < 16) (h : r ≠ q)
    (v : UInt64) : (rs.set r v).get q = rs.get q := by
  rw [get_set, if_neg (mod_ne hr hq h)]

end Regs

def Goes (h : Host) (s t : State) : Prop := s.step h = .goes t

theorem Goes.exists_fetch {h : Host} {s t : State} (hg : Goes h s t) :
    ∃ i length, h.fetch s.rip = some (i, length) ∧
      s.execute h (s.rip + UInt64.ofNat length) i = .goes t := by
  unfold Goes State.step at hg
  split at hg
  next => cases hg
  next =>
    split at hg
    next => cases hg
    next i length hfetch => exact ⟨i, length, hfetch, hg⟩

namespace Host

/-- The image has the encodings of `is` at address `rip`. -/
def HasCode (h : Host) (rip : UInt64) (is : List Insn) : Prop :=
  ∃ lead rest, h.image.toList = lead ++ (Insn.encodeAll is ++ rest) ∧
    rip = h.base + UInt64.ofNat lead.length

/-- The image is shorter than the address space, and its end of run lies outside. -/
structure Closed (h : Host) : Prop where
  size : h.image.size < 2 ^ 64
  home : ∀ pos < h.image.size, h.base + UInt64.ofNat pos ≠ h.home

end Host

namespace Insn

theorem encodeAll_cons (i : Insn) (is : List Insn) :
    encodeAll (i :: is) = i.encode ++ encodeAll is := rfl

theorem length_encode_bounds (i : Insn) : 0 < i.encode.length ∧ i.encode.length ≤ 10 := by
  cases i with
  | movImm32 r imm | callReg r | push r | pop r =>
      simp only [encode, chunks, Chunk.extension]
      split <;> simp [Chunk.bytes, Chunk.word32]
  | movsdLoad x d | movsdStore d x | sqrtsd x d =>
      simp only [encode, chunks, Chunk.stackSlot]
      split <;> simp [Chunk.bytes]
  | _ => simp [encode, chunks, Chunk.bytes, Chunk.word32, Chunk.word64]

theorem length_encode_le_maxLength (i : Insn) : i.encode.length ≤ maxLength :=
  Nat.le_trans i.length_encode_bounds.2 (by decide)

theorem eq_nil_of_length {is : List Insn} (h : (encodeAll is).length = 0) : is = [] := by
  cases is with
  | nil => rfl
  | cons i is =>
      have hi := i.length_encode_bounds.1
      rw [encodeAll_cons, List.length_append] at h
      omega

/-- What follows the longest instruction does not matter for reading. -/
theorem read_take {i : Insn} (h : i.encodable) (rest : Bytes) :
    read ((i.encode ++ rest).take maxLength) =
      some (i, rest.take (maxLength - i.encode.length)) := by
  rw [List.take_append, List.take_of_length_le i.length_encode_le_maxLength, read_encode h]

end Insn

namespace Host.HasCode

variable {h : Host} {rip : UInt64}

theorem tail {i : Insn} {is : List Insn} (hc : h.HasCode rip (i :: is)) :
    h.HasCode (rip + UInt64.ofNat i.encode.length) is := by
  obtain ⟨lead, rest, hi, hr⟩ := hc
  refine ⟨lead ++ i.encode, rest, by simp [hi, Insn.encodeAll_cons], ?_⟩
  rw [hr, List.length_append, UInt64.ofNat_add, UInt64.add_assoc]

theorem drop {done is : List Insn} (hc : h.HasCode rip (done ++ is)) :
    h.HasCode (rip + UInt64.ofNat (Insn.encodeAll done).length) is := by
  obtain ⟨lead, rest, hi, hr⟩ := hc
  refine ⟨lead ++ Insn.encodeAll done, rest, by simp [hi, Insn.encodeAll], ?_⟩
  rw [hr, List.length_append, UInt64.ofNat_add, UInt64.add_assoc]

theorem fetch {i : Insn} {is : List Insn} (hc : h.HasCode rip (i :: is))
    (hs : h.image.size < 2 ^ 64) (he : i.encodable) :
    h.fetch rip = some (i, i.encode.length) := by
  obtain ⟨lead, rest, hi, rfl⟩ := hc
  have hlen := congrArg List.length hi
  rw [Array.length_toList, List.length_append] at hlen
  have hpos : (h.base + UInt64.ofNat lead.length - h.base).toNat = lead.length := by
    rw [UInt64.add_comm, UInt64.add_sub_cancel]
    exact UInt64.toNat_ofNat_of_lt' (Nat.lt_of_le_of_lt (by omega) hs)
  have hwindow : (h.image.extract lead.length (lead.length + maxLength)).toList =
      (i.encode ++ (Insn.encodeAll is ++ rest)).take maxLength := by
    rw [Array.toList_extract, List.extract_eq_take_drop, Nat.add_sub_cancel_left, hi,
      List.drop_left, Insn.encodeAll_cons, List.append_assoc]
  have hb := i.length_encode_le_maxLength
  simp only [Host.fetch, hpos, hwindow, Insn.read_take he, Option.map_some, List.length_take,
    List.length_append]
  congr 2
  omega

theorem ne_home {i : Insn} {is : List Insn} (hc : h.HasCode rip (i :: is)) (hh : h.Closed) :
    rip ≠ h.home := by
  obtain ⟨lead, rest, hi, rfl⟩ := hc
  have hlen := congrArg List.length hi
  have hp := i.length_encode_bounds.1
  rw [Array.length_toList, List.length_append, Insn.encodeAll_cons, List.length_append,
    List.length_append] at hlen
  exact hh.home lead.length (by omega)

theorem step_eq {s : State} {i : Insn} {is : List Insn} (hc : h.HasCode s.rip (i :: is))
    (hh : h.Closed) (he : i.encodable) :
    s.step h = s.execute h (s.rip + UInt64.ofNat i.encode.length) i := by
  rw [State.step, if_neg (hc.ne_home hh), hc.fetch hh.size he]

end Host.HasCode

/-- Carrying out an instruction in a row: the machine goes on behind it. -/
def Falls (h : Host) (i : Insn) (s t : State) : Prop :=
  s.execute h (s.rip + UInt64.ofNat i.encode.length) i = .goes t ∧
    t.rip = s.rip + UInt64.ofNat i.encode.length

/-- Carrying out instructions that stand in a row. -/
inductive Through (h : Host) : List Insn → State → State → Prop
  | nil (s : State) : Through h [] s s
  | cons {i : Insn} {is : List Insn} {s t u : State} :
      Falls h i s t → Through h is t u → Through h (i :: is) s u

namespace Through

variable {h : Host}

theorem rip_eq {is : List Insn} {s t : State} (ht : Through h is s t) :
    t.rip = s.rip + UInt64.ofNat (Insn.encodeAll is).length := by
  induction ht with
  | nil s => simp [Insn.encodeAll]
  | cons hf _ ih =>
      rw [ih, hf.2, Insn.encodeAll_cons, List.length_append, UInt64.ofNat_add, UInt64.add_assoc]

theorem append {a b : List Insn} {s t u : State} (hs : Through h a s t) (ht : Through h b t u) :
    Through h (a ++ b) s u := by
  induction hs with
  | nil s => exact ht
  | cons hf _ ih => exact .cons hf (ih ht)

end Through

/-- Carrying out instructions that stand in a row, up to what the last one leads to. -/
inductive Runs (h : Host) : List Insn → State → Transition State → Prop
  | last {i : Insn} {s : State} {tr : Transition State} :
      s.execute h (s.rip + UInt64.ofNat i.encode.length) i = tr → Runs h [i] s tr
  | cons {i : Insn} {is : List Insn} {s t : State} {tr : Transition State} :
      Falls h i s t → Runs h is t tr → Runs h (i :: is) s tr

theorem Through.runs {h : Host} {is : List Insn} {s t : State} (hs : Through h is s t)
    (hne : is ≠ []) : Runs h is s (.goes t) := by
  induction hs with
  | nil s => exact absurd rfl hne
  | cons hf hrest ih =>
      cases hrest with
      | nil t => exact .last hf.1
      | cons hg htail => exact .cons hf (ih (List.cons_ne_nil _ _))

/-- Where the image holds the instructions, the machine runs through them to the last one
and takes the step that this leads to. -/
theorem Runs.steps {h : Host} {is : List Insn} {s : State} {tr : Transition State}
    (hr : Runs h is s tr) (hh : h.Closed) (hc : h.HasCode s.rip is)
    (he : ∀ i ∈ is, i.encodable) :
    ∃ t, Relation.ReflTransGen (Goes h) s t ∧ t.step h = tr := by
  induction hr with
  | last hx => exact ⟨_, .refl, (hc.step_eq hh (he _ (.head _))).trans hx⟩
  | @cons i is s t tr hf _ ih =>
      have hstep : Goes h s t := (hc.step_eq hh (he i (.head _))).trans hf.1
      have hnext := hc.tail
      rw [← hf.2] at hnext
      obtain ⟨u, hsteps, hlast⟩ := ih hnext fun j hj => he j (.tail _ hj)
      exact ⟨u, .head hstep hsteps, hlast⟩

end StackCode.X64
