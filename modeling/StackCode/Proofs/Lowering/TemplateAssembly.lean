import Mathlib.Data.List.Induction
import StackCode.Lowering.Template
import StackCode.Proofs.Histories
import StackCode.Proofs.Keyed
import StackCode.Proofs.X64.Assembly

/-!
# Assembling templates

Templates are written into a scratch buffer. What does not fit at its end is cut off without a
word, but the position counts all that was to be written and never goes back. So from then on it is
past the end, where nothing more can be written and nothing can be frozen. A template that comes out
of assembly has all bytes of the calls it was made by. Of the marks of a slot the last one counts:
it alone is checked and kept.
-/
namespace StackCode.X64

/-- A call that adds code behind what there is: an instruction, or a copy of ready-made code. -/
inductive Piece where
  | insn (i : Insn)
  | copy (code : Bytes)
deriving DecidableEq, Repr

namespace Piece

def directive : Piece → Directive
  | .insn i => .insn i
  | .copy code => .copy code

def bytes : Piece → Bytes
  | .insn i => i.encode
  | .copy code => code

/-- The place in its bytes that the call answers: an instruction its field, a copy its start. -/
def place? : Piece → Option Nat
  | .insn i => i.fieldAt?
  | .copy _ => some 0

def text (ps : List Piece) : Bytes := ps.flatMap bytes

theorem text_cons (p : Piece) (ps : List Piece) : text (p :: ps) = p.bytes ++ text ps :=
  List.flatMap_cons

theorem place?_le {p : Piece} {k : Nat} (h : p.place? = some k) : k ≤ p.bytes.length := by
  cases p with
  | copy code =>
      cases h
      exact Nat.zero_le _
  | insn i =>
      cases hf : i.operand? with
      | none =>
          rw [place?, Insn.fieldAt?_eq_none hf] at h
          cases h
      | some f =>
          obtain ⟨lead, hencode, hfield⟩ := Insn.fieldAt?_of_operand hf
          rw [place?, hfield] at h
          cases h
          rw [bytes, hencode, List.length_append]
          exact Nat.le_add_right _ _

end Piece

namespace Buffer

/-! ## The position counts all bytes -/

/-- `b'` is `b` with the position moved by `n`, whatever was written. -/
structure Moved (b : Buffer) (n : Nat) (b' : Buffer) : Prop where
  offset : b'.offset = b.offset + n
  size : b'.bytes.length = b.bytes.length

theorem Moved.trans {a b c : Buffer} {m n : Nat} (h : Moved a m b) (h' : Moved b n c) :
    Moved a (m + n) c :=
  ⟨by rw [h'.offset, h.offset, Nat.add_assoc], h'.size.trans h.size⟩

theorem put_moves {b b' : Buffer} {c : Chunk} (h : b.put c = some b') :
    Moved b c.bytes.length b' := by
  rw [put, Option.ite_none_right_eq_some] at h
  obtain ⟨-, h⟩ := h
  cases h
  exact ⟨rfl, Bytes.length_overwrite _ _ _⟩

theorem putAll_moves {b : Buffer} {cs : List Chunk} (h : (b.putAll cs).2 = true) :
    Moved b (cs.flatMap Chunk.bytes).length (b.putAll cs).1 := by
  induction cs generalizing b with
  | nil => exact ⟨rfl, rfl⟩
  | cons c cs ih =>
      rw [List.flatMap_cons, List.length_append]
      cases hput : b.put c with
      | none =>
          rw [putAll, hput] at h
          cases h
      | some b' =>
          rw [putAll, hput] at h ⊢
          exact (put_moves hput).trans (ih h)

theorem perform_moves {b : Buffer} {p : Piece} (h : (b.perform p.directive).complete = true) :
    Moved b p.bytes.length (b.perform p.directive).buffer := by
  cases p with
  | insn i => exact putAll_moves h
  | copy code =>
      cases hput : b.put (.plain code) with
      | none =>
          rw [Piece.directive, perform, hput] at h
          cases h
      | some b' =>
          rw [Piece.directive, perform, hput]
          exact put_moves hput

theorem performAll_moves {b b' : Buffer} {ps : List Piece}
    (h : b.performAll (ps.map Piece.directive) = some b') :
    Moved b (Piece.text ps).length b' := by
  induction ps generalizing b with
  | nil =>
      cases h
      exact ⟨rfl, rfl⟩
  | cons p ps ih =>
      simp only [List.map_cons, performAll, Option.ite_none_right_eq_some] at h
      rw [Piece.text_cons, List.length_append]
      exact (perform_moves h.1).trans (ih h.2)

/-! ## Calls for which there is room -/

theorem perform_fits {lead rest : Bytes} {p : Piece} (h : p.bytes.length ≤ rest.length) :
    perform ⟨lead ++ rest, lead.length⟩ p.directive =
      ⟨⟨(lead ++ p.bytes) ++ rest.drop p.bytes.length, (lead ++ p.bytes).length⟩,
        p.place?.map (lead.length + ·), true⟩ := by
  rw [List.append_assoc, List.length_append]
  cases p with
  | insn i => exact perform_insn h
  | copy code =>
      have hput : put ⟨lead ++ rest, lead.length⟩ (.plain code) = _ := put_fits h
      rw [Piece.directive, perform, hput]
      rfl

theorem performAll_fits {lead rest : Bytes} {ps : List Piece}
    (h : (Piece.text ps).length ≤ rest.length) :
    performAll ⟨lead ++ rest, lead.length⟩ (ps.map Piece.directive) =
      some ⟨(lead ++ Piece.text ps) ++ rest.drop (Piece.text ps).length,
        (lead ++ Piece.text ps).length⟩ := by
  induction ps generalizing lead rest with
  | nil => simp [performAll, Piece.text]
  | cons p ps ih =>
      rw [Piece.text_cons, List.length_append] at h
      -- the piece that was written moves to the bytes in front
      have hnext := @ih (lead ++ p.bytes) (rest.drop p.bytes.length)
        (by rw [List.length_drop]; omega)
      rw [List.append_assoc lead p.bytes (Piece.text ps), List.drop_drop, ← List.length_append,
        ← Piece.text_cons] at hnext
      rw [List.map_cons, performAll, perform_fits (by omega)]
      exact hnext

/-- The offsets that calls answer, up to the first that cannot be carried out. -/
def offsets (b : Buffer) : List Directive → List Nat
  | [] => []
  | d :: ds =>
      let w := b.perform d
      w.field.toList ++ if w.complete then w.buffer.offsets ds else []

theorem offsets_le {lead rest : Bytes} {ps : List Piece}
    (h : (Piece.text ps).length ≤ rest.length) {pos : Nat}
    (hpos : pos ∈ offsets ⟨lead ++ rest, lead.length⟩ (ps.map Piece.directive)) :
    pos ≤ (lead ++ Piece.text ps).length := by
  induction ps generalizing lead rest with
  | nil => cases hpos
  | cons p ps ih =>
      rw [Piece.text_cons, List.length_append] at h
      have hrest : (Piece.text ps).length ≤ (rest.drop p.bytes.length).length := by
        rw [List.length_drop]
        omega
      rw [List.map_cons, offsets, perform_fits (by omega)] at hpos
      rw [Piece.text_cons, ← List.append_assoc]
      rcases List.mem_append.mp hpos with hhere | hlater
      · obtain ⟨k, hk, rfl⟩ := Option.map_eq_some_iff.mp (Option.mem_toList.mp hhere)
        have := Piece.place?_le hk
        simp only [List.length_append]
        omega
      · exact ih hrest hlater

/-! ## All bytes or none -/

/-- What can be frozen is all that was to be written. -/
theorem written?_performAll (size : Nat) (ps : List Piece) :
    ((ofSize size).performAll (ps.map Piece.directive)).bind written? =
      if (Piece.text ps).length ≤ size then some (Piece.text ps) else none := by
  split
  next hfit =>
    have hrun : (ofSize size).performAll (ps.map Piece.directive) = _ :=
      @performAll_fits [] (List.replicate size 0) ps (by rwa [List.length_replicate])
    have hin : (Piece.text ps).length ≤ (Piece.text ps ++
        (List.replicate size (0 : UInt8)).drop (Piece.text ps).length).length := by
      rw [List.length_append]
      exact Nat.le_add_right _ _
    rw [hrun, List.nil_append, Option.bind_some, written?, if_pos hin, List.take_left]
  next hover =>
    cases hrun : (ofSize size).performAll (ps.map Piece.directive) with
    | none => rfl
    | some b =>
        have hmoved := performAll_moves hrun
        have hoffset : b.offset = (Piece.text ps).length := hmoved.offset.trans (Nat.zero_add _)
        have hsize : b.bytes.length = size := hmoved.size.trans List.length_replicate
        rw [Option.bind_some, written?, hoffset, hsize, if_neg hover]

end Buffer

end StackCode.X64

namespace StackCode.Lowering

open X64

namespace Template

/-! ## Marks -/

/-- The last mark of a slot puts it at `pos`. -/
def LastMark (marks : List (Slot × Int)) (s : Slot) (pos : Int) : Prop :=
  ∃ before later, marks = before ++ (s, pos) :: later ∧ ∀ m ∈ later, m.1 ≠ s

variable {marks : List (Slot × Int)} {s : Slot} {pos : Int}

theorem lastMark_concat {m : Slot × Int} :
    LastMark (marks ++ [m]) s pos ↔ m = (s, pos) ∨ m.1 ≠ s ∧ LastMark marks s pos := by
  constructor
  · intro h
    obtain ⟨before, later, hsplit, hlater⟩ := h
    rcases Histories.append_cons_eq_concat.mp hsplit.symm with ⟨-, hm, -⟩ | ⟨rest, rfl, hrest⟩
    · exact .inl hm.symm
    · refine .inr ⟨hlater m (List.mem_append_right _ (.head _)), before, rest, hrest.symm, ?_⟩
      exact fun n hn => hlater n (List.mem_append_left _ hn)
  · intro h
    rcases h with rfl | ⟨hm, before, later, rfl, hlater⟩
    · exact ⟨marks, [], rfl, fun n hn => nomatch hn⟩
    · refine ⟨before, later ++ [m], by simp, fun n hn => ?_⟩
      rcases List.mem_append.mp hn with hn | hn
      · exact hlater n hn
      · rw [List.mem_singleton.mp hn]
        exact hm

theorem LastMark.mem (h : LastMark marks s pos) : (s, pos) ∈ marks := by
  obtain ⟨before, later, rfl, -⟩ := h
  exact List.mem_append_right _ (.head _)

theorem LastMark.unique {pos' : Int} (h : LastMark marks s pos) (h' : LastMark marks s pos') :
    pos = pos' := by
  induction marks using List.reverseRecOn with
  | nil => cases h.mem
  | append_singleton marks m ih =>
      rcases lastMark_concat.mp h with rfl | ⟨hm, h⟩
      · rcases lastMark_concat.mp h' with heq | ⟨hm, -⟩
        · exact (Prod.mk.inj heq).2
        · exact absurd rfl hm
      · rcases lastMark_concat.mp h' with rfl | ⟨-, h'⟩
        · exact absurd rfl hm
        · exact ih h h'

/-- Marking keeps of each slot its last mark. -/
theorem mem_markAll : (s, pos) ∈ markAll marks ↔ LastMark marks s pos := by
  induction marks using List.reverseRecOn with
  | nil =>
      constructor
      · exact fun h => nomatch h
      · exact fun h => nomatch h.mem
  | append_singleton marks m ih =>
      have hmark : markAll (marks ++ [m]) = mark (markAll marks) m.1 m.2 := by
        rw [markAll, List.foldl_append]
        rfl
      rw [hmark, lastMark_concat, ← ih, mark, List.mem_append, List.mem_filter,
        List.mem_singleton, decide_eq_true_iff]
      constructor
      · intro h
        rcases h with ⟨hold, hne⟩ | hnew
        · exact .inr ⟨Ne.symm hne, hold⟩
        · exact .inl hnew.symm
      · intro h
        rcases h with hnew | ⟨hne, hold⟩
        · exact .inr hnew.symm
        · exact .inl ⟨hold, Ne.symm hne⟩

theorem lookup_markAll : (markAll marks).lookup s = some pos ↔ LastMark marks s pos := by
  rw [← mem_markAll]
  refine Keyed.lookup_eq_some_iff_mem fun p q hp hq => ?_
  exact (mem_markAll.mp hp).unique (mem_markAll.mp hq)

theorem inside_iff {size : Nat} (hpos : 0 ≤ pos) (hsmall : pos ≤ scratchSize) :
    inside size (s, pos) = true ↔ pos + s.width ≤ size := by
  have hwidth : s.width ≤ 8 := by
    unfold Slot.width
    split <;> decide
  have hlow : pos ≤ 64 := hsmall
  have hsum : (Int64.ofInt pos + Int64.ofNat s.width).toInt = pos + s.width := by
    rw [Int64.toInt_add, Int64.toInt_ofInt_of_le (by omega) (by omega),
      Int64.toInt_ofNat_of_lt (by omega)]
    exact Int.bmod_eq_of_le (by omega) (by omega)
  rw [inside, decide_eq_true_iff, hsum]

/-! ## Freezing -/

variable {ps : List Piece}

/-- The first mark that overruns, of those that are kept. -/
def overrun? (size : Nat) (marks : List (Slot × Int)) : Option (Slot × Int) :=
  (markAll marks).find? fun m => !inside size m

theorem assemble_of_inside (hfit : (Piece.text ps).length ≤ scratchSize)
    (h : overrun? (Piece.text ps).length marks = none) :
    assemble (ps.map Piece.directive) marks = .ok ⟨Piece.text ps, markAll marks⟩ := by
  unfold overrun? at h
  simp only [assemble, Buffer.written?_performAll, if_pos hfit, h]

theorem assemble_of_overrun (hfit : (Piece.text ps).length ≤ scratchSize)
    (h : overrun? (Piece.text ps).length marks = some (s, pos)) :
    assemble (ps.map Piece.directive) marks =
      .error (.slotOverrun s pos (Piece.text ps).length) := by
  unfold overrun? at h
  simp only [assemble, Buffer.written?_performAll, if_pos hfit, h]

theorem assemble_of_overflow (h : scratchSize < (Piece.text ps).length) :
    assemble (ps.map Piece.directive) marks = .error .outOfRange := by
  simp only [assemble, Buffer.written?_performAll, if_neg (Nat.not_le.mpr h)]

/-- All marks are offsets that the calls answered. -/
def Answered (ps : List Piece) (marks : List (Slot × Int)) : Prop :=
  ∀ m ∈ marks, ∃ pos ∈ (Buffer.ofSize scratchSize).offsets (ps.map Piece.directive),
    m.2 = (pos : Int)

instance (ps : List Piece) (marks : List (Slot × Int)) : Decidable (Answered ps marks) :=
  inferInstanceAs (Decidable (∀ m ∈ marks, _))

theorem Answered.inside_iff (h : Answered ps marks)
    (hfit : (Piece.text ps).length ≤ scratchSize) (hmark : LastMark marks s pos) (size : Nat) :
    inside size (s, pos) = true ↔ pos + s.width ≤ size := by
  obtain ⟨answer, hanswer, rfl⟩ := h (s, pos) hmark.mem
  have hle : answer ≤ (Piece.text ps).length :=
    @Buffer.offsets_le [] (List.replicate scratchSize 0) ps (by rwa [List.length_replicate])
      answer hanswer
  exact Template.inside_iff (Int.natCast_nonneg _) (Int.ofNat_le.mpr (Nat.le_trans hle hfit))

/-- What comes out of assembly: a template with all bytes and the last mark of each slot, or the
reason why there is none. -/
inductive Outcome (text : Bytes) (marks : List (Slot × Int)) : Except AssemblyFault Template → Prop
  | whole {t : Template} : text.length ≤ scratchSize →
      (∀ s pos, LastMark marks s pos → pos + s.width ≤ text.length) → t.code = text →
      (∀ s pos, t.slot? s = some pos ↔ LastMark marks s pos) → Outcome text marks (.ok t)
  | overflow : scratchSize < text.length → Outcome text marks (.error .outOfRange)
  | overrun {s : Slot} {pos : Int} : LastMark marks s pos → text.length < pos + s.width →
      Outcome text marks (.error (.slotOverrun s pos text.length))

theorem outcome_assemble (h : Answered ps marks) :
    Outcome (Piece.text ps) marks (assemble (ps.map Piece.directive) marks) := by
  by_cases hfit : (Piece.text ps).length ≤ scratchSize
  · cases hfind : overrun? (Piece.text ps).length marks with
    | none =>
        rw [assemble_of_inside hfit hfind]
        refine .whole hfit (fun s pos hmark => ?_) rfl fun s pos => lookup_markAll
        have hin := List.find?_eq_none.mp hfind (s, pos) (mem_markAll.mpr hmark)
        rw [Bool.not_eq_true', Bool.not_eq_false] at hin
        exact (h.inside_iff hfit hmark _).mp hin
    | some m =>
        obtain ⟨s, pos⟩ := m
        have hmark : LastMark marks s pos := mem_markAll.mp (List.mem_of_find?_eq_some hfind)
        have hout := List.find?_some hfind
        rw [Bool.not_eq_true', ← Bool.not_eq_true, h.inside_iff hfit hmark, Int.not_le] at hout
        rw [assemble_of_overrun hfit hfind]
        exact .overrun hmark hout
  · rw [assemble_of_overflow (Nat.not_le.mp hfit)]
    exact .overflow (Nat.not_le.mp hfit)

/-- Calls that add code, followed by marks at offsets that they answered, make a template if and
only if all their bytes are 64 at most and the last mark of each slot leaves room for its field. The
template then has all bytes of the calls and the last mark of each slot. There is none in all other
cases, because of the length or because of a slot that overruns. -/
theorem assembly_keeps_all_bytes (ps : List Piece) (marks : List (Slot × Int))
    (h : Answered ps marks) :
    ((∃ t, assemble (ps.map Piece.directive) marks = .ok t) ↔
        (Piece.text ps).length ≤ 64 ∧
          ∀ s pos, LastMark marks s pos → pos + s.width ≤ (Piece.text ps).length) ∧
      (∀ t, assemble (ps.map Piece.directive) marks = .ok t →
        t.code = Piece.text ps ∧ ∀ s pos, t.slot? s = some pos ↔ LastMark marks s pos) ∧
      ∀ f, assemble (ps.map Piece.directive) marks = .error f →
        (f = .outOfRange ∧ 64 < (Piece.text ps).length) ∨
          ∃ s pos, f = .slotOverrun s pos (Piece.text ps).length ∧ LastMark marks s pos ∧
            (Piece.text ps).length < pos + s.width := by
  have hout := outcome_assemble h
  refine ⟨⟨fun hok => ?_, fun hfit => ?_⟩, fun t ht => ?_, fun f hf => ?_⟩
  · obtain ⟨t, ht⟩ := hok
    rw [ht] at hout
    cases hout with
    | whole hsize hroom _ _ => exact ⟨hsize, hroom⟩
  · cases ha : assemble (ps.map Piece.directive) marks with
    | ok t => exact ⟨t, rfl⟩
    | error f =>
        rw [ha] at hout
        cases hout with
        | overflow hlong => exact absurd hfit.1 (Nat.not_le.mpr hlong)
        | overrun hmark hover => exact absurd (hfit.2 _ _ hmark) (Int.not_le.mpr hover)
  · rw [ht] at hout
    cases hout with
    | whole _ _ hcode hslots => exact ⟨hcode, hslots⟩
  · rw [hf] at hout
    cases hout with
    | overflow hlong => exact .inl ⟨rfl, hlong⟩
    | overrun hmark hover => exact .inr ⟨_, _, rfl, hmark, hover⟩

def moveAndJump : List Piece := [.insn (.movImm64 .rdi 0), .insn (.jmp 0)]

/-- The literal is first put where four bytes are left, and then where the move has it. -/
def remarked : List (Slot × Int) := [(.imm64, 11), (.rel32, 11), (.imm64, 2)]

theorem assembly_keeps_all_bytes_remarked :
    Answered moveAndJump remarked ∧
      ∃ t, assemble (moveAndJump.map Piece.directive) remarked = .ok t ∧
        t.code = Piece.text moveAndJump ∧ t.slot? .imm64 = some 2 ∧ t.slot? .rel32 = some 11 := by
  have hanswered : Answered moveAndJump remarked := by decide
  have hok : ∃ t, assemble (moveAndJump.map Piece.directive) remarked = .ok t := ⟨_, rfl⟩
  obtain ⟨t, ht⟩ := hok
  obtain ⟨-, hwhole, -⟩ := assembly_keeps_all_bytes moveAndJump remarked hanswered
  obtain ⟨hcode, hslots⟩ := hwhole t ht
  refine ⟨hanswered, t, ht, hcode, (hslots _ _).mpr ?_, (hslots _ _).mpr ?_⟩
  · exact ⟨[(.imm64, 11), (.rel32, 11)], [], rfl, by decide⟩
  · exact ⟨[(.imm64, 11)], [(.imm64, 2)], rfl, by decide⟩

/-- A mark that overruns does no harm once its slot is marked again. -/
theorem overrunning_mark_replaced :
    Answered moveAndJump remarked ∧ (Piece.text moveAndJump).length ≤ 64 ∧
      (∃ t, assemble (moveAndJump.map Piece.directive) remarked = .ok t) ∧
      ¬ ∀ m ∈ remarked, m.2 + m.1.width ≤ (Piece.text moveAndJump).length :=
  ⟨by decide, by decide, ⟨_, rfl⟩, by decide⟩

end Template
end StackCode.Lowering
