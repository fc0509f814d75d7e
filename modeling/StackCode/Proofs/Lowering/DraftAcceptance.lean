import StackCode.Proofs.Bytecode.DraftDecoding
import StackCode.Proofs.Lowering.Acceptance

/-!
# Which drafts are laid out

A draft whose jumps all name labels can go wrong in one way only. The offset of a label is the
offset of the next call that appends an instruction, so a jump to the label lands, unless no such
call follows. Then the label is bound behind the last instruction, and the first jump to a label
like that is the one that the first pass reports.
-/
namespace StackCode

theorem forall₂_split {α β : Type} {R : α → β → Prop} {as bs : List α} {a : α} {cs : List β}
    (h : List.Forall₂ R (as ++ a :: bs) cs) :
    ∃ front c back, cs = front ++ c :: back ∧ List.Forall₂ R as front ∧ R a c := by
  induction as generalizing cs with
  | nil =>
      obtain ⟨c, back, hc, -, rfl⟩ := List.forall₂_cons_left_iff.mp h
      exact ⟨[], c, back, rfl, .nil, hc⟩
  | cons a' as ih =>
      obtain ⟨c', cs', hc', hrest, rfl⟩ := List.forall₂_cons_left_iff.mp h
      obtain ⟨front, c, back, rfl, hfront, hc⟩ := ih hrest
      exact ⟨c' :: front, c, back, rfl, .cons hc' hfront, hc⟩

theorem exists_of_forall₂ {α β : Type} {R : α → β → Prop} {as : List α} {cs : List β}
    (h : List.Forall₂ R as cs) {a : α} (ha : a ∈ as) : ∃ c ∈ cs, R a c := by
  obtain ⟨front, back, rfl⟩ := List.append_of_mem ha
  obtain ⟨_, c, _, rfl, -, hc⟩ := forall₂_split h
  exact ⟨c, List.mem_append_right _ List.mem_cons_self, hc⟩

namespace Bytecode

/-- Does the call leave targets to labels? -/
def Call.isSymbolic : Call → Bool
  | .raw _ | .jumpTo _ _ => false
  | _ => true

/-- Is the call, one of `calls`, a jump to a label that is bound at offset `size`? -/
def Call.JumpsTo (calls : List Call) (size : Nat) (c : Call) : Prop :=
  ∃ op l, c = .jump op l ∧ BoundAt calls l size

theorem Call.not_isRaw {c : Call} (h : c.isSymbolic = true) : c.isRaw = false := by
  cases c with
  | raw bs => cases h
  | _ => rfl

theorem BoundAt.unique {calls : List Call} {l : String} {t u : Int} (ht : BoundAt calls l t)
    (hu : BoundAt calls l u) : t = u := by
  obtain ⟨⟨before, after, hsplit⟩, hall⟩ := ht
  rw [hall before after hsplit, hu.2 before after hsplit]

namespace Draft

/-! ## Where labels are bound -/

theorem offset_label (d : Draft) (n : String) : (d.apply (.label n)).offset = d.offset := by
  simp only [apply, attempt, bind]
  split
  next h =>
    split at h
    · cases h
    · cases h
      rfl
  next => rfl

theorem emissions_append (d : Draft) (before after : List Call) :
    emissions d (before ++ after) =
      emissions d before ++ emissions (before.foldl apply d) after := by
  induction before generalizing d with
  | nil => rfl
  | cons c before ih =>
      rw [List.cons_append, emissions, emissions, ih]
      split
      · rfl
      · rfl

/-- The offset of a draft is that of the next instruction, if there is to be one. -/
theorem offset_mem_emissions (d : Draft) (calls : List Call) :
    d.offset ∈ (emissions d calls).map Prod.fst ∨ (calls.foldl apply d).offset = d.offset := by
  induction calls generalizing d with
  | nil => exact .inr rfl
  | cons c calls ih =>
      cases c with
      | label n =>
          have h := ih (d.apply (.label n))
          rwa [offset_label] at h
      | _ => exact .inl (List.mem_cons_self ..)

theorem emissions_split {calls before after : List Call} {c : Call} (hlabel : c.isLabel = false)
    (hsplit : calls = before ++ c :: after) :
    emissions empty calls = emissions empty before ++
      ((ofCalls before).offset, c) :: emissions ((ofCalls before).apply c) after := by
  have hne : ¬ c.isLabel = true := by rw [hlabel]; exact Bool.false_ne_true
  rw [hsplit, emissions_append, emissions, if_neg hne]
  rfl

theorem mem_of_mem_emissions {d : Draft} {calls : List Call} {p : Nat × Call}
    (h : p ∈ emissions d calls) : p.2 ∈ calls := by
  induction calls generalizing d with
  | nil => cases h
  | cons c calls ih =>
      rw [emissions] at h
      split at h
      · exact List.mem_cons_of_mem c (ih h)
      · rcases List.mem_cons.mp h with rfl | h
        · exact List.mem_cons_self
        · exact List.mem_cons_of_mem c (ih h)

theorem finish_encodes {calls : List Call} {code : Bytes}
    (hraw : ∀ c ∈ calls, c.isRaw = false) (h : (ofCalls calls).finish = .ok code)
    (hlen : code.length < 2 ^ 31) :
    (ofCalls calls).offset = code.length ∧ ∃ is, code = is.flatMap Instr.encode ∧
      List.Forall₂ (fun p l => l.ip = p.1 ∧ p.2.Denotes calls l.instr)
        (emissions empty calls) (Located.place 0 is) := by
  unfold finish at h
  cases hr : (ofCalls calls).refusal with
  | some r =>
      rw [hr] at h
      cases h
  | none =>
      rw [hr] at h
      have hoff : (ofCalls calls).offset = code.length := (length_resolve h).symm
      obtain ⟨es, hcode, hpend, hes⟩ := exists_entries (d := empty) hraw hr
      have hcode' : (ofCalls calls).code = [] ++ Entry.code es := hcode
      have hpend' : (ofCalls calls).pending = Entry.waiting ([] : Bytes).length es := hpend
      simp only [hpend', hcode'] at h
      obtain ⟨is, his, hcodes⟩ := resolve_waiting h
      refine ⟨hoff, is, hcodes, denotes_placed ?_ hes his⟩
      intro l t ht
      exact boundAt_of_lookup hraw hr (hoff ▸ hlen) ht

/-! ## Which jumps land -/

/-- A finished draft, its instructions, and what its calls make of them. -/
structure Finished (calls : List Call) (code : Bytes) (ls : List Located) : Prop where
  symbolic : ∀ c ∈ calls, c.isSymbolic = true
  offset : (ofCalls calls).offset = code.length
  scan : Scan.ofCode code = ⟨ls, none⟩
  denotes : List.Forall₂ (fun p l => l.ip = p.1 ∧ p.2.Denotes calls l.instr)
    (emissions empty calls) ls

namespace Finished

variable {calls : List Call} {code : Bytes} {ls : List Located}

theorem exists_of_finish (hsym : ∀ c ∈ calls, c.isSymbolic = true)
    (h : (ofCalls calls).finish = .ok code) (hlen : code.length < 2 ^ 31) :
    ∃ ls, Finished calls code ls := by
  obtain ⟨hoff, is, rfl, hden⟩ :=
    finish_encodes (fun c hc => Call.not_isRaw (hsym c hc)) h hlen
  exact ⟨_, hsym, hoff, Scan.ofBytes_encodeAll 0 is, hden⟩

theorem starts (h : Finished calls code ls) :
    ls.map Located.ip = (emissions empty calls).map Prod.fst := by
  have hsame : List.Forall₂ (fun p l => p.1 = l.ip) (emissions empty calls) ls :=
    h.denotes.imp fun _ _ hp => hp.1.symm
  rw [← List.forall₂_eq_eq_eq, List.forall₂_map_left_iff, List.forall₂_map_right_iff]
  exact hsame.flip.imp fun _ _ => Eq.symm

theorem ip_lt (h : Finished calls code ls) : ∀ l ∈ ls, l.ip < code.length := by
  have hf : (Scan.ofCode code).fault = none := by rw [h.scan]
  have hip := Scan.ip_lt hf
  rwa [h.scan] at hip

/-- An instruction starts at the offset of a label, or the program ends there. -/
theorem start_of_boundAt (h : Finished calls code ls) {l : String} {t : Int}
    (ht : BoundAt calls l t) : (∃ k ∈ ls, (k.ip : Int) = t) ∨ t = code.length := by
  obtain ⟨⟨before, after, hsplit⟩, hall⟩ := ht
  rw [hall before after hsplit]
  rcases offset_mem_emissions (ofCalls before) (.label l :: after) with hmem | hend
  · left
    have hstart : (ofCalls before).offset ∈ ls.map Located.ip := by
      rw [h.starts, hsplit, emissions_append, List.map_append]
      exact List.mem_append_right _ hmem
    obtain ⟨k, hk, hip⟩ := List.mem_map.mp hstart
    exact ⟨k, hk, congrArg Nat.cast hip⟩
  · right
    have hcalls : ofCalls calls = (Call.label l :: after).foldl apply (ofCalls before) := by
      rw [hsplit, ofCalls, List.foldl_append]
      rfl
    rw [← h.offset, hcalls, hend]

/-- An instruction lands unless its call is a jump to the end. -/
theorem lands_iff (h : Finished calls code ls) {c : Call} {k : Located} (hc : c ∈ calls)
    (hden : c.Denotes calls k.instr) :
    k.lands ls = true ↔ ¬ c.JumpsTo calls code.length := by
  have hplain : k.instr.target? = none → (∀ op l, c ≠ .jump op l) →
      (k.lands ls = true ↔ ¬ c.JumpsTo calls code.length) := by
    intro ht hne
    refine iff_of_true (Located.lands_iff.mpr fun t ht' => ?_) ?_
    · rw [ht] at ht'
      cases ht'
    · rintro ⟨op, l, hcl, -⟩
      exact hne op l hcl
  cases c with
  | label n => exact hden.elim
  | raw bs => exact hden.elim
  | jumpTo op t => cases h.symbolic _ hc
  | emit op => exact hplain hden.2.2 fun _ _ h => by cases h
  | push o => exact hplain hden.2.2 fun _ _ h => by cases h
  | pop o => exact hplain hden.2.2 fun _ _ h => by cases h
  | jump op l =>
      obtain ⟨-, -, t, ht, hbound⟩ := hden
      have hjumps : (Call.jump op l).JumpsTo calls code.length ↔ t.toInt = code.length := by
        constructor
        · rintro ⟨op', l', hcl, hend⟩
          cases hcl
          exact hbound.unique hend
        · intro hend
          exact ⟨op, l, rfl, hend ▸ hbound⟩
      rw [hjumps, Located.lands_iff]
      constructor
      · intro hlands hend
        obtain ⟨k', hk', hip⟩ := hlands t ht
        have hlt := h.ip_lt k' hk'
        omega
      · intro hne u hu
        rw [ht] at hu
        cases hu
        exact (h.start_of_boundAt hbound).resolve_right hne

theorem lands_of_emissions (h : Finished calls code ls) {before after : List Call}
    {front : List Located} (hsplit : calls = before ++ after)
    (hden : List.Forall₂ (fun p l => l.ip = p.1 ∧ p.2.Denotes calls l.instr)
      (emissions empty before) front)
    (hno : ∀ c ∈ before, ¬ c.JumpsTo calls code.length) : ∀ k ∈ front, k.lands ls = true := by
  intro k hk
  obtain ⟨p, hp, -, hkp⟩ := exists_of_forall₂ hden.flip hk
  have hc := mem_of_mem_emissions hp
  have hmem : p.2 ∈ calls := by
    rw [hsplit]
    exact List.mem_append_left _ hc
  exact (h.lands_iff hmem hkp).mpr (hno _ hc)

end Finished

end Draft

end Bytecode

namespace Lowering

open Bytecode Draft

variable {calls : List Call} {code : Bytes} {ls : List Located}

theorem Layout.of_finished (h : Finished calls code ls) (hne : code ≠ [])
    (hno : ∀ c ∈ calls, ¬ c.JumpsTo calls code.length) :
    ∃ layout, Layout.ofCode (some code) = .ok layout := by
  have hlands := h.lands_of_emissions (List.append_nil calls).symm h.denotes hno
  refine ⟨_, Layout.ofCode_eq_ok_iff.mpr ⟨hne, ?_, rfl, ?_⟩⟩
  · rw [h.scan]
  · rwa [h.scan]

/-- The report of a jump to the end of a program. -/
def jumpToEnd (ip size : Nat) : Failure :=
  .report .undefinedJumpTarget ip
    ("target " ++ toString size ++ " is not an instruction boundary")

/-- The first jump to the end of a draft is reported at the offset of its call. -/
theorem Layout.of_jumpsTo (h : Finished calls code ls) (hne : code ≠ [])
    {before after : List Call} {c : Call} (hsplit : calls = before ++ c :: after)
    (hc : c.JumpsTo calls code.length)
    (hno : ∀ c' ∈ before, ¬ c'.JumpsTo calls code.length) :
    Layout.ofCode (some code) = .error (jumpToEnd (ofCalls before).offset code.length) := by
  have hmem : c ∈ calls := by
    rw [hsplit]
    exact List.mem_append_right _ List.mem_cons_self
  obtain ⟨op, l, rfl, hend⟩ := id hc
  have hden := h.denotes
  rw [emissions_split rfl hsplit] at hden
  obtain ⟨front, k, back, hls, hfront, hip, hk⟩ := forall₂_split hden
  have hlands := h.lands_of_emissions hsplit hfront hno
  have hmiss : k.lands ls = false := by
    rw [← Bool.not_eq_true, h.lands_iff hmem hk]
    exact not_not_intro hc
  have hfind : ls.find? (fun l => !l.lands ls) = some k := by
    have hnone : front.find? (fun l => !l.lands ls) = none :=
      List.find?_eq_none.mpr fun l hl => by simp [hlands l hl]
    nth_rewrite 2 [hls]
    rw [List.find?_append, hnone, Option.none_or, List.find?_cons_of_pos (by simp [hmiss])]
  obtain ⟨-, -, t, ht, hbound⟩ := hk
  have hf : (Scan.ofCode code).fault = none := by rw [h.scan]
  rw [Layout.ofCode_eq hne hf, Layout.checkTargets_eq (Scan.ip_lt hf), h.scan]
  simp only [hfind, ht, Option.getD_some, strayJump, hip, hbound.unique hend]
  rfl

/-- A draft whose jumps all name labels is laid out, once it is finished, if and only if none of
these labels is bound at its end. What is reported otherwise is the first jump to such a label. -/
theorem draft_accepted_iff (hsym : ∀ c ∈ calls, c.isSymbolic = true)
    (hfin : (ofCalls calls).finish = .ok code) (hne : code ≠ []) (hlen : code.length < 2 ^ 31) :
    ((∃ layout, Layout.ofCode (some code) = .ok layout) ↔
        ∀ c ∈ calls, ¬ c.JumpsTo calls code.length) ∧
      ∀ f, Layout.ofCode (some code) = .error f ↔
        ∃ before c after, calls = before ++ c :: after ∧ c.JumpsTo calls code.length ∧
          (∀ c' ∈ before, ¬ c'.JumpsTo calls code.length) ∧
          f = jumpToEnd (ofCalls before).offset code.length := by
  obtain ⟨ls, h⟩ := Finished.exists_of_finish hsym hfin hlen
  -- the first jump to the end, if there is one
  classical
  cases hfind : calls.find? fun c => decide (c.JumpsTo calls code.length) with
  | none =>
      have hno : ∀ c ∈ calls, ¬ c.JumpsTo calls code.length := by
        intro c hc
        simpa using List.find?_eq_none.mp hfind c hc
      obtain ⟨layout, hok⟩ := Layout.of_finished h hne hno
      refine ⟨iff_of_true ⟨layout, hok⟩ hno, fun f => iff_of_false ?_ ?_⟩
      · intro hf
        rw [hok] at hf
        cases hf
      · rintro ⟨before, c, after, hsplit, hc, -⟩
        exact hno c (by simp [hsplit]) hc
  | some c =>
      obtain ⟨hc, before, after, hsplit, hno⟩ := List.find?_eq_some_iff_append.mp hfind
      simp only [decide_eq_true_eq] at hc
      simp only [Bool.not_eq_true', decide_eq_false_iff_not] at hno
      have herr := Layout.of_jumpsTo h hne hsplit hc hno
      refine ⟨iff_of_false ?_ ?_, fun f => ⟨?_, ?_⟩⟩
      · rintro ⟨layout, hok⟩
        rw [herr] at hok
        cases hok
      · intro hall
        exact hall c (by simp [hsplit]) hc
      · intro hf
        rw [herr] at hf
        cases hf
        exact ⟨before, c, after, hsplit, hc, hno, rfl⟩
      · rintro ⟨before', c', after', hsplit', hc', hno', rfl⟩
        exact Layout.of_jumpsTo h hne hsplit' hc' hno'

/-- A jump to an instruction, then two jumps to a label behind the last one. -/
def endCalls : List Call :=
  [.jump 0x0f "mid", .jump 0x0a "end", .label "mid", .emit 0x12, .jump 0x11 "end", .label "end"]

def endCode : Bytes := [0x0f, 10, 0, 0, 0, 0x0a, 16, 0, 0, 0, 0x12, 0x11, 16, 0, 0, 0]

theorem draft_accepted_iff_end :
    (∀ c ∈ endCalls, c.isSymbolic = true) ∧ (ofCalls endCalls).finish = .ok endCode ∧
      endCode ≠ [] ∧ endCode.length < 2 ^ 31 ∧
      Layout.ofCode (some endCode) = .error (jumpToEnd 5 16) := by
  have hsym : ∀ c ∈ endCalls, c.isSymbolic = true := by decide
  have hfin : (ofCalls endCalls).finish = .ok endCode := by rfl
  have hne : endCode ≠ [] := by decide
  have hlen : endCode.length < 2 ^ 31 := by decide
  have hend : BoundAt endCalls "end" endCode.length :=
    boundAt_of_lookup (t := 16) (by decide) rfl (by decide) rfl
  refine ⟨hsym, hfin, hne, hlen, ?_⟩
  rw [(draft_accepted_iff hsym hfin hne hlen).2]
  refine ⟨endCalls.take 1, .jump 0x0a "end", endCalls.drop 2, rfl, ⟨_, _, rfl, hend⟩, ?_, rfl⟩
  intro c hc
  rw [List.mem_singleton.mp hc]
  rintro ⟨op, l, hl, hbound⟩
  cases hl
  cases hbound.2 (endCalls.take 2) (endCalls.drop 3) rfl

end Lowering

end StackCode
