import StackCode.Proofs.Lowering.Walk

/-!
# Which programs are laid out

`Reads` follows a program one read at a time, from one offset to another. Where it cannot go
on, the linear decoding stops for the same reason. `Verdict` says what a program deserves: the
fault of the first instruction that cannot be read, whatever the jumps are; then the first jump
in source order that lands on no instruction; and otherwise acceptance. The first pass gives
exactly this answer. In particular it never fails for want of a lowering or of a field.
-/
namespace StackCode.Bytecode

/-- Instructions read one after the other, from the first offset to the second. -/
inductive Reads (code : Bytes) : Nat → List Located → Nat → Prop
  | here (ip : Nat) : Reads code ip [] ip
  | next {ip stop : Nat} {i : Instr} {ls : List Located} :
      Instr.decode (some code) ip = .ok i → Reads code (ip + i.len) ls stop →
      Reads code ip (⟨ip, i⟩ :: ls) stop

/-- Is the instruction no jump, or one to an instruction of the program? -/
def Located.lands (ls : List Located) (l : Located) : Bool :=
  l.instr.target?.all fun t => ls.any fun k => (k.ip : Int) == t.toInt

theorem Located.lands_iff {ls : List Located} {l : Located} :
    l.lands ls = true ↔
      ∀ t, l.instr.target? = some t → ∃ k ∈ ls, (k.ip : Int) = t.toInt := by
  simp only [Located.lands, Option.all_eq_true, List.any_eq_true, beq_iff_eq]

namespace Instr

theorem decode_eq {code : Bytes} {ip : Nat} (h : ip < code.length) :
    decode (some code) ip = (read (code.drop ip)).mapError (·.report ip) := by
  have hin : (0 : Int) ≤ ip ∧ (ip : Int) < code.length := by omega
  rw [decode, readAt, if_pos hin, Int.toNat_natCast]

theorem read_of_decode {code : Bytes} {ip : Nat} {i : Instr}
    (h : decode (some code) ip = .ok i) : read (code.drop ip) = .ok i := by
  rcases Nat.lt_or_ge ip code.length with hin | hout
  · rw [decode_eq hin] at h
    cases hr : read (code.drop ip) with
    | error f => rw [hr] at h; cases h
    | ok j => rw [hr] at h; cases h; rfl
  · have hin : ¬ ((0 : Int) ≤ ip ∧ (ip : Int) < code.length) := by omega
    rw [decode, readAt, if_neg hin] at h
    cases h

end Instr

namespace Reads

variable {code : Bytes}

/-- What was read is the front of the linear decoding; the rest is decoded from the stop on. -/
theorem scan {ip stop : Nat} {ls : List Located} (h : Reads code ip ls stop) :
    Scan.ofBytes ip 0 (code.drop ip) =
      ⟨ls ++ (Scan.ofBytes stop 0 (code.drop stop)).instrs,
        (Scan.ofBytes stop 0 (code.drop stop)).fault⟩ := by
  induction h with
  | here ip => rfl
  | next hd _ ih =>
      rw [Scan.ofBytes_of_read (Instr.read_of_decode hd), List.drop_drop, ih]
      rfl

theorem scan_end {ls : List Located} (h : Reads code 0 ls code.length) :
    Scan.ofCode code = ⟨ls, none⟩ := by
  have hs := h.scan
  rw [List.drop_length, Scan.ofBytes, List.append_nil] at hs
  exact hs

theorem scan_fault {ip : Nat} {ls : List Located} {f : Failure} (h : Reads code 0 ls ip)
    (hip : ip < code.length) (hd : Instr.decode (some code) ip = .error f) :
    ∃ fault, Scan.ofCode code = ⟨ls, some (ip, fault)⟩ ∧ f = fault.report ip := by
  rw [Instr.decode_eq hip] at hd
  have hs := h.scan
  cases hr : Instr.read (code.drop ip) with
  | ok i => rw [hr] at hd; cases hd
  | error fault =>
      rw [hr] at hd
      cases hd
      refine ⟨fault, ?_, rfl⟩
      rw [List.drop_eq_getElem_cons hip] at hr hs
      rw [Scan.ofBytes.eq_3, hr, List.append_nil] at hs
      exact hs

theorem eq_place {ip stop : Nat} {ls : List Located} (h : Reads code ip ls stop) :
    ls = Located.place ip (ls.map Located.instr) := by
  induction h with
  | here ip => rfl
  | next _ _ ih => rw [List.map_cons, Located.place, ← ih]

theorem ascending {ip stop : Nat} {ls : List Located} (h : Reads code ip ls stop) :
    ls.Pairwise fun a b => a.ip < b.ip := by
  rw [h.eq_place]
  exact Located.place_ascending ip _

theorem concat {ip stop : Nat} {ls : List Located} {i : Instr} (h : Reads code ip ls stop)
    (hd : Instr.decode (some code) stop = .ok i) :
    Reads code ip (ls ++ [⟨stop, i⟩]) (stop + i.len) := by
  induction h with
  | here ip => exact .next hd (.here _)
  | next hfirst _ ih => exact .next hfirst (ih hd)

/-- Every instruction that was read was read where those before it end. -/
theorem split {ip stop : Nat} {before after : List Located} {l : Located}
    (h : Reads code ip (before ++ l :: after) stop) :
    Reads code ip before l.ip ∧ Instr.decode (some code) l.ip = .ok l.instr := by
  induction before generalizing ip with
  | nil =>
      cases h with
      | next hd _ => exact ⟨.here _, hd⟩
  | cons k before ih =>
      cases h with
      | next hd hrest =>
          obtain ⟨hbefore, hl⟩ := ih hrest
          exact ⟨.next hd hbefore, hl⟩

end Reads

namespace Scan

theorem exists_reads (code : Bytes) {ip : Nat} (h : ip ≤ code.length) :
    ∃ ls stop, Reads code ip ls stop ∧
      (stop = code.length ∨
        stop < code.length ∧ ∃ f, Instr.decode (some code) stop = .error f) := by
  -- every instruction takes a byte, so what is left gets shorter
  induction hn : code.length - ip using Nat.strongRecOn generalizing ip with
  | ind n ih =>
      rcases Nat.lt_or_eq_of_le h with hlt | heq
      · cases hd : Instr.decode (some code) ip with
        | error f => exact ⟨[], ip, .here ip, .inr ⟨hlt, f, hd⟩⟩
        | ok i =>
            have hpos := i.len_pos
            obtain ⟨rest, hrest⟩ := Instr.exists_append_of_read (Instr.read_of_decode hd)
            have hlen : code.length - ip = i.len + rest.length := by
              rw [← List.length_drop, hrest, List.length_append, Instr.length_encode]
            obtain ⟨ls, stop, hls, hstop⟩ :=
              @ih (code.length - (ip + i.len)) (by omega) (ip + i.len) (by omega) rfl
            exact ⟨_, stop, .next hd hls, hstop⟩
      · exact ⟨[], ip, .here ip, .inl heq⟩

theorem reads_instrs (code : Bytes) : ∃ stop, Reads code 0 (ofCode code).instrs stop := by
  obtain ⟨ls, stop, hr, rfl | ⟨hlt, f, hd⟩⟩ := exists_reads code (Nat.zero_le _)
  · exact ⟨_, by rwa [hr.scan_end]⟩
  · obtain ⟨fault, hs, -⟩ := hr.scan_fault hlt hd
    exact ⟨stop, by rwa [hs]⟩

theorem reads_end {code : Bytes} (hf : (ofCode code).fault = none) :
    Reads code 0 (ofCode code).instrs code.length := by
  obtain ⟨ls, stop, hr, rfl | ⟨hlt, f, hd⟩⟩ := exists_reads code (Nat.zero_le _)
  · rwa [hr.scan_end]
  · obtain ⟨fault, hs, -⟩ := hr.scan_fault hlt hd
    rw [hs] at hf
    cases hf

theorem ip_lt {code : Bytes} (hf : (ofCode code).fault = none) :
    ∀ l ∈ (ofCode code).instrs, l.ip < code.length := by
  intro l hl
  have hnext := next_le hf hl
  have hpos := l.instr.len_pos
  unfold Located.next at hnext
  omega

end Scan

end StackCode.Bytecode

namespace StackCode.Lowering

open Bytecode

def strayJump (l : Located) (target : Int32) : Failure :=
  .report .undefinedJumpTarget l.ip
    ("target " ++ toString target.toInt ++ " is not an instruction boundary")

/-- What a program deserves from the first pass. -/
inductive Verdict (code : Bytes) : Except Failure Unit → Prop
  /-- an instruction cannot be read -/
  | unreadable {ls : List Located} {ip : Nat} {f : Failure} :
      Reads code 0 ls ip → ip < code.length → Instr.decode (some code) ip = .error f →
      Verdict code (.error f)
  /-- all can be read, and this jump is the first that lands on none of them -/
  | stray {ls : List Located} {l : Located} {target : Int32} :
      Reads code 0 ls code.length → ls.find? (fun l => !l.lands ls) = some l →
      l.instr.target? = some target → Verdict code (.error (strayJump l target))
  | accepted {ls : List Located} :
      Reads code 0 ls code.length → (∀ l ∈ ls, l.lands ls) → Verdict code (.ok ())

namespace Step

theorem jump?_of_target? {s : Step} {t : Int32} (h : s.instr.target? = some t) :
    ∃ r, s.jump? = some r ∧ r.sourceFrom = s.ip ∧ r.sourceTo = t.toInt := by
  cases hi : s.instr with
  | branch b t' =>
      rw [hi] at h
      cases h
      exact ⟨⟨s.ip, t.toInt, s.fieldAt, .ofBranch b⟩, by rw [jump?, hi], rfl, rfl⟩
  | _ =>
      rw [hi] at h
      cases h

theorem jump?_eq_none {s : Step} (h : s.instr.target? = none) : s.jump? = none := by
  cases hi : s.instr with
  | branch b t =>
      rw [hi] at h
      cases h
  | _ => rw [jump?, hi]

end Step

namespace Layout

theorem isBoundary_iff {n : Nat} {ls : List Located} (hin : ∀ l ∈ ls, l.ip < n) (t : Int) :
    (ofInstrs n ls).isBoundary t = ls.any fun k => (k.ip : Int) == t := by
  rw [Bool.eq_iff_iff, List.any_eq_true]
  constructor
  · intro h
    obtain ⟨s, hs, hip⟩ := exists_step_of_isBoundary h
    refine ⟨⟨s.ip, s.instr⟩, ?_, by simpa using hip⟩
    rw [← Step.map_along 0 0 ls]
    exact List.mem_map_of_mem hs
  · rintro ⟨l, hl, hip⟩
    have hlt := hin l hl
    rw [← Step.map_along 0 0 ls] at hl
    obtain ⟨s, hs, rfl⟩ := List.mem_map.mp hl
    simp only [isBoundary, offset?, Option.isSome_map, List.find?_isSome, Bool.and_eq_true,
      decide_eq_true_eq]
    have hip : (s.ip : Int) = t := by simpa using hip
    refine ⟨?_, (s.ip, s.nativeIp), List.mem_append_left _ (List.mem_map_of_mem hs), by simpa⟩
    have hn : (ofInstrs n ls).sourceLen = n := rfl
    simp only at hlt
    omega

theorem any_jump? {n : Nat} {ls : List Located} (hin : ∀ l ∈ ls, l.ip < n) (s : Step) :
    (s.jump?.any fun r => !(ofInstrs n ls).isBoundary r.sourceTo) =
      !Located.lands ls ⟨s.ip, s.instr⟩ := by
  cases ht : s.instr.target? with
  | none =>
      rw [Step.jump?_eq_none ht, Located.lands, ht]
      rfl
  | some t =>
      obtain ⟨r, hr, -, hto⟩ := Step.jump?_of_target? ht
      rw [hr, Located.lands, ht, Option.any_some, Option.all_some, hto, isBoundary_iff hin]

/-- The first jump that misses decides, in source order. -/
theorem checkTargets_eq {n : Nat} {ls : List Located} (hin : ∀ l ∈ ls, l.ip < n) :
    (ofInstrs n ls).checkTargets =
      match ls.find? fun l => !l.lands ls with
      | none => .ok (ofInstrs n ls)
      | some l => .error (strayJump l (l.instr.target?.getD 0)) := by
  have hsource : ls.find? (fun l => !l.lands ls) =
      ((Step.along 0 0 ls).find? fun s =>
        s.jump?.any fun r => !(ofInstrs n ls).isBoundary r.sourceTo).map
          fun s => ⟨s.ip, s.instr⟩ := by
    conv_lhs => rw [← Step.map_along 0 0 ls, List.find?_map, Step.map_along 0 0 ls]
    congr 2
    funext s
    exact (any_jump? hin s).symm
  have hfirst : (ofInstrs n ls).relocations.find?
        (fun r => !(ofInstrs n ls).isBoundary r.sourceTo) =
      ((Step.along 0 0 ls).find? fun s =>
        s.jump?.any fun r => !(ofInstrs n ls).isBoundary r.sourceTo).bind Step.jump? :=
    List.find?_filterMap
  rw [checkTargets, hfirst, hsource]
  cases hf : (Step.along 0 0 ls).find? fun s =>
      s.jump?.any fun r => !(ofInstrs n ls).isBoundary r.sourceTo with
  | none => rfl
  | some s =>
      have hany := List.find?_some hf
      cases ht : s.instr.target? with
      | none => simp [Step.jump?_eq_none ht] at hany
      | some t =>
          obtain ⟨r, hr, hfrom, hto⟩ := Step.jump?_of_target? ht
          simp only [Option.bind_some, hr, Option.map_some, ht, Option.getD_some, badTarget,
            strayJump, hfrom, hto]

/-- A program is laid out if and only if it decodes to its end and all its jumps land. -/
theorem ofCode_eq_ok_iff {code : Bytes} {layout : Layout} :
    ofCode (some code) = .ok layout ↔
      code ≠ [] ∧ (Scan.ofCode code).fault = none ∧
        layout = ofInstrs code.length (Scan.ofCode code).instrs ∧
        ∀ l ∈ (Scan.ofCode code).instrs, l.lands (Scan.ofCode code).instrs = true := by
  constructor
  · intro h
    obtain ⟨hne, hf, hlayout, -⟩ := ofCode_eq_ok h
    rw [ofCode_eq hne hf, checkTargets_eq (Scan.ip_lt hf)] at h
    split at h
    next hnone =>
      refine ⟨hne, hf, hlayout, fun l hl => ?_⟩
      simpa using List.find?_eq_none.mp hnone l hl
    next => cases h
  · rintro ⟨hne, hf, rfl, hlands⟩
    have hnone : (Scan.ofCode code).instrs.find? (fun l => !l.lands (Scan.ofCode code).instrs) =
        none := List.find?_eq_none.mpr fun l hl => by simpa using hlands l hl
    rw [ofCode_eq hne hf, checkTargets_eq (Scan.ip_lt hf), hnone]

end Layout

namespace Verdict

variable {code : Bytes}

/-- What a program deserves is what the first pass answers. -/
theorem answered (hne : code ≠ []) {v : Except Failure Unit} (h : Verdict code v) :
    (Layout.ofCode (some code)).map (fun _ => ()) = v := by
  cases h with
  | unreadable hr hip hd =>
      obtain ⟨fault, hs, rfl⟩ := hr.scan_fault hip hd
      simp only [Layout.ofCode, Walk.ofCode_eq hne, Layout.collect_along, hs, Option.map_some]
      rfl
  | stray hr hfind ht =>
      have hs := hr.scan_end
      have hf : (Scan.ofCode code).fault = none := by rw [hs]
      rw [Layout.ofCode_eq hne hf, Layout.checkTargets_eq (Scan.ip_lt hf), hs]
      simp only [hfind, ht, Option.getD_some]
      rfl
  | @accepted ls hr hlands =>
      have hs := hr.scan_end
      have hf : (Scan.ofCode code).fault = none := by rw [hs]
      have hfind : ls.find? (fun l => !l.lands ls) = none :=
        List.find?_eq_none.mpr fun l hl => by simpa using hlands l hl
      rw [Layout.ofCode_eq hne hf, Layout.checkTargets_eq (Scan.ip_lt hf), hs, hfind]
      rfl

theorem exists_verdict (code : Bytes) : ∃ v, Verdict code v := by
  obtain ⟨ls, stop, hr, rfl | ⟨hlt, f, hd⟩⟩ := Scan.exists_reads code (Nat.zero_le _)
  · cases hfind : ls.find? fun l => !l.lands ls with
    | none =>
        refine ⟨_, .accepted hr fun l hl => ?_⟩
        simpa using List.find?_eq_none.mp hfind l hl
    | some l =>
        have hmiss := List.find?_some hfind
        cases ht : l.instr.target? with
        | none => simp [Located.lands, ht] at hmiss
        | some t => exact ⟨_, .stray hr hfind ht⟩
  · exact ⟨_, .unreadable hr hlt hd⟩

end Verdict

/-- The first pass answers every program that is not empty with what it deserves, and with
nothing else. -/
theorem layout_verdict_iff {code : Bytes} (hne : code ≠ []) (v : Except Failure Unit) :
    Verdict code v ↔ (Layout.ofCode (some code)).map (fun _ => ()) = v := by
  refine ⟨Verdict.answered hne, ?_⟩
  rintro rfl
  obtain ⟨v, hv⟩ := Verdict.exists_verdict code
  rwa [hv.answered hne]

/-- A pop from the empty stack, a jump to the middle of itself and a jump to the end. -/
def Verdict.sample : Bytes :=
  [Instr.pop .discard, .branch .jmp 5, .input, .branch (.cond .e) 15].flatMap Instr.encode

theorem layout_verdict_iff_sample :
    Verdict Verdict.sample (.error (strayJump ⟨4, .branch .jmp 5⟩ 5)) ∧
      (Layout.ofCode (some Verdict.sample)).map (fun _ => ()) =
        .error (strayJump ⟨4, .branch .jmp 5⟩ 5) := by
  have hreads : Reads Verdict.sample 0
      [⟨0, .pop .discard⟩, ⟨4, .branch .jmp 5⟩, ⟨9, .input⟩, ⟨10, .branch (.cond .e) 15⟩] 15 :=
    .next rfl (.next rfl (.next rfl (.next rfl (.here 15))))
  have hv : Verdict Verdict.sample (.error (strayJump ⟨4, .branch .jmp 5⟩ 5)) :=
    .stray hreads rfl rfl
  exact ⟨hv, (layout_verdict_iff (by decide) _).mp hv⟩

end StackCode.Lowering
