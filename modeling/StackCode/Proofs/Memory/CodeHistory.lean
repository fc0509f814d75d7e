import Mathlib.Data.List.Induction
import Mathlib.Data.List.TakeWhile
import StackCode.Proofs.Bytes
import StackCode.Proofs.Histories
import StackCode.Proofs.Memory.Mapping

/-!
# The life of memory for code

Memory for code is looked at, written, sealed, entered and given back, in any order and any
number of times; the kernel may refuse to change the pages or to take them back. The owner's
fields and the state of the pages are kept apart, so that they agree is something to prove:
`Change` says what a use can do, and `Consistent` is what every change preserves. On top of that
`Tracks` follows the contents and the seal along a history.

A byte that is written to sealed pages ends the process. There is no other way to get there.
-/
namespace StackCode.Memory.Executable

/-! ## One use -/

/-- A use of memory for code. What is asked of the kernel comes with its refusal, if any. -/
inductive Use where
  | look
  | write (pos : Nat) (new : Bytes)
  | protect (refusal : Option String)
  | call
  | release (refusal : Option String)
deriving DecidableEq, Repr

/-- The memory after a use. There is none if an access was forbidden. -/
def use (m : Executable) : Use → Option Executable
  | .look => some m
  | .write pos new => (m.write pos new).toOption
  | .protect refusal =>
      match m.protect refusal with
      | .ok m' => some m'
      | .error _ => some m
  | .call =>
      match m.call with
      | .error .forbidden => none
      | _ => some m
  | .release refusal => some (m.release refusal).2

def written (m : Executable) (p : Pages) (pos : Nat) (new : Bytes) : Executable :=
  { m with pages := some { p with bytes := p.bytes.overwrite pos (new.take (m.room pos new)) } }

def sealed (m : Executable) : Executable :=
  { m with
    isSealed := true
    pages := m.pages.map fun p => { p with access := ⟨false, true⟩ } }

/-- The memory once it was given back, with what the kernel has left of the pages. -/
def lost (left : Option Pages) : Executable :=
  { buffer := none, size := 0, isSealed := false, pages := left }

/-- What a use can do. -/
inductive Change (m : Executable) : Use → Executable → Prop
  | looked : Change m .look m
  | called : Change m .call m
  | unwritten {pos : Nat} {new : Bytes} : m.room pos new = 0 → Change m (.write pos new) m
  | written {pos : Nat} {new : Bytes} {p : Pages} : m.pages = some p → p.access.write = true →
      Change m (.write pos new) (m.written p pos new)
  | unsealed {refusal : Option String} :
      m.buffer = none ∨ m.isSealed = true ∨ refusal ≠ none → Change m (.protect refusal) m
  | sealed {b : Span} : m.buffer = some b → m.isSealed = false → Change m (.protect none) m.sealed
  | gone {refusal : Option String} : m.buffer = none → Change m (.release refusal) m
  | released {b : Span} {refusal : Option String} : m.buffer = some b →
      Change m (.release refusal) (lost (refusal.bind fun _ => m.pages))

variable {m m' : Executable} {u : Use}

theorem protect_cases (m : Executable) (refusal : Option String) :
    ((m.buffer = none ∨ m.isSealed = false ∧ refusal ≠ none) ∧
        ∃ f, m.protect refusal = .error f) ∨
      (m.isSealed = true ∧ m.protect refusal = .ok m) ∨
      ∃ b, m.buffer = some b ∧ m.isSealed = false ∧ refusal = none ∧
        m.protect refusal = .ok m.sealed := by
  unfold protect
  split
  next hb => exact .inl ⟨.inl hb, _, rfl⟩
  next b hb =>
    split
    next hs => exact .inr (.inl ⟨hs, rfl⟩)
    next hs =>
      cases refusal with
      | none => exact .inr (.inr ⟨b, hb, Bool.eq_false_iff.mpr hs, rfl, rfl⟩)
      | some answer =>
          exact .inl ⟨.inr ⟨Bool.eq_false_iff.mpr hs, fun h => nomatch h⟩, _, rfl⟩

theorem change_of_use (h : m.use u = some m') : Change m u m' := by
  cases u with
  | look =>
      cases h
      exact .looked
  | write pos new =>
      simp only [use, write] at h
      split at h
      next hroom =>
        cases h
        exact .unwritten hroom
      next =>
        split at h
        next => cases h
        next p hp =>
          split at h
          next hw =>
            cases h
            exact .written hp hw
          next => cases h
  | protect refusal =>
      rcases protect_cases m refusal with ⟨hwhy, f, hp⟩ | ⟨hsame, hp⟩ | ⟨b, hb, hs, rfl, hp⟩
      · simp only [use, hp] at h
        cases h
        exact .unsealed (hwhy.imp_right fun h => .inr h.2)
      · simp only [use, hp] at h
        cases h
        exact .unsealed (.inr (.inl hsame))
      · simp only [use, hp] at h
        cases h
        exact .sealed hb hs
  | call =>
      simp only [use] at h
      split at h
      next => cases h
      next =>
        cases h
        exact .called
  | release refusal =>
      simp only [use, release] at h
      cases hb : m.buffer with
      | none =>
          simp only [hb] at h
          cases h
          exact .gone hb
      | some b =>
          simp only [hb] at h
          cases h
          exact .released hb

/-! ## Fields and pages -/

/-- The owner's fields agree with each other and with the pages: what is mapped is executable if
it is sealed and writable if not. Pages that are lost to the owner count as well. -/
structure Consistent (m : Executable) : Prop where
  mapped : ∀ b, m.buffer = some b → FewestPages m.size b.length ∧
    ∃ p, m.pages = some p ∧ p.bytes.length = b.length ∧ p.access = ⟨!m.isSealed, m.isSealed⟩
  freed : m.buffer = none → m.size = 0 ∧ m.isSealed = false
  exclusive : ∀ p, m.pages = some p → ¬ (p.access.write = true ∧ p.access.execute = true)

theorem consistent_blank (base : UInt64) (size : Nat) :
    Consistent (blank base (wholePages size) size) where
  mapped b hb := by
    cases hb
    exact ⟨fewestPages size, _, rfl, List.length_replicate, rfl⟩
  freed hb := nomatch hb
  exclusive p hp := by
    cases hp
    exact fun h => nomatch h.2

theorem Consistent.step (hm : Consistent m) (h : Change m u m') : Consistent m' := by
  cases h with
  | looked | called | unwritten | unsealed | gone => exact hm
  | @written pos new p hp hw =>
      refine ⟨fun b hb => ?_, hm.freed, fun q hq => ?_⟩
      · obtain ⟨hfew, q, hq, hlen, haccess⟩ := hm.mapped b hb
        rw [hp] at hq
        cases hq
        exact ⟨hfew, _, rfl, (Bytes.length_overwrite ..).trans hlen, haccess⟩
      · cases hq
        exact hm.exclusive p hp
  | @sealed b hb hs =>
      obtain ⟨hfew, p, hp, hlen, -⟩ := hm.mapped b hb
      refine ⟨fun c hc => ?_, fun hnone => ?_, fun q hq => ?_⟩
      · obtain rfl : b = c := Option.some.inj (hb.symm.trans hc)
        exact ⟨hfew, { p with access := ⟨false, true⟩ }, by simp [sealed, hp], hlen, rfl⟩
      · cases hb.symm.trans hnone
      · simp only [sealed, hp, Option.map_some, Option.some.injEq] at hq
        cases hq
        exact fun h => nomatch h.1
  | @released b refusal hb =>
      refine ⟨fun c hc => (nomatch hc), fun _ => ⟨rfl, rfl⟩, fun q hq => ?_⟩
      cases refusal with
      | none => cases hq
      | some answer => exact hm.exclusive q hq

/-- Giving back, sealing and entering never end the process, and writing only does so if a byte
goes to sealed pages. -/
theorem Consistent.use_eq_none_iff (hm : Consistent m) :
    m.use u = none ↔
      ∃ pos new, u = .write pos new ∧ m.isSealed = true ∧ m.room pos new ≠ 0 := by
  cases u with
  | look | release =>
      refine iff_of_false (Option.some_ne_none _) ?_
      rintro ⟨_, _, h, -⟩
      cases h
  | protect refusal =>
      refine iff_of_false (fun h => ?_) (by rintro ⟨_, _, h, -⟩; cases h)
      simp only [use] at h
      split at h <;> cases h
  | call =>
      refine iff_of_false (fun h => ?_) (by rintro ⟨_, _, h, -⟩; cases h)
      simp only [use] at h
      split at h
      next hcall =>
        unfold call at hcall
        split at hcall
        next hs =>
          cases hb : m.buffer with
          | none =>
              rw [(hm.freed hb).2] at hs
              cases hs
          | some b =>
              obtain ⟨-, p, hp, -, haccess⟩ := hm.mapped b hb
              simp only [hp, haccess, hs, if_true] at hcall
              split at hcall <;> cases hcall
        next => cases hcall
      next => cases h
  | write pos new =>
      simp only [use, write]
      by_cases hroom : m.room pos new = 0
      · rw [if_pos hroom]
        refine iff_of_false (Option.some_ne_none _) ?_
        rintro ⟨_, _, h, -, hsome⟩
        cases h
        exact hsome hroom
      · rw [if_neg hroom]
        cases hb : m.buffer with
        | none => exact absurd (by simp [room, bytes?, hb]) hroom
        | some b =>
            obtain ⟨-, p, hp, -, haccess⟩ := hm.mapped b hb
            simp only [hp, haccess]
            cases hs : m.isSealed with
            | false =>
                refine iff_of_false (Option.some_ne_none _) ?_
                rintro ⟨_, _, -, h, -⟩
                cases h
            | true => exact iff_of_true rfl ⟨pos, new, rfl, rfl, hroom⟩

/-! ## Histories -/

def after (m : Executable) (uses : List Use) : Option Executable := uses.foldlM use m

theorem after_concat (m : Executable) (uses : List Use) (u : Use) :
    m.after (uses ++ [u]) = (m.after uses).bind (use · u) := by
  rw [after, List.foldlM_append]
  cases h : m.after uses with
  | none =>
      rw [after] at h
      rw [h]
      rfl
  | some m' =>
      rw [after] at h
      rw [h]
      simp

/-- The memory was not given back. -/
def Kept (uses : List Use) : Prop := ∀ refusal, .release refusal ∉ uses

theorem kept_concat {uses : List Use} :
    Kept (uses ++ [u]) ↔ Kept uses ∧ ∀ refusal, u ≠ .release refusal := by
  simp only [Kept, List.mem_append, List.mem_singleton, not_or, forall_and, ne_eq, eq_comm]

def Use.write? : Use → Option (Nat × Bytes)
  | .write pos new => some (pos, new)
  | _ => none

/-- The writes until the memory is sealed, in order. -/
def early (uses : List Use) : List (Nat × Bytes) :=
  (uses.takeWhile (· ≠ .protect none)).filterMap Use.write?

theorem early_concat_of_sealed {uses : List Use} (h : .protect none ∈ uses) :
    early (uses ++ [u]) = early uses := by
  have hstops : (uses.takeWhile (· ≠ .protect none)).length ≠ uses.length := by
    intro hlen
    have hwhole := (List.takeWhile_sublist _).eq_of_length hlen
    rw [← hwhole] at h
    simpa using List.mem_takeWhile_imp h
  rw [early, List.takeWhile_append, if_neg hstops, early]

theorem early_concat {uses : List Use} (h : .protect none ∉ uses) :
    early (uses ++ [u]) = early uses ++ u.write?.toList := by
  have hall : ∀ v ∈ uses, decide (v ≠ .protect none) = true :=
    fun v hv => decide_eq_true fun heq => h (heq ▸ hv)
  have hlast : ([u].takeWhile (· ≠ .protect none)).filterMap Use.write? = u.write?.toList := by
    by_cases hu : u = .protect none
    · simp [hu, Use.write?]
    · cases hw : u.write? <;> simp [hu, hw]
  have hwhole : uses.takeWhile (· ≠ .protect none) = uses := List.takeWhile_eq_self_iff.mpr hall
  rw [early, early, List.takeWhile_append_of_pos hall, hwhole, List.filterMap_append, hlast]

/-- Bytes with writes laid over them, one after the other. -/
def laid (bs : Bytes) (writes : List (Nat × Bytes)) : Bytes :=
  writes.foldl (fun bs w => bs.overwrite w.1 w.2) bs

theorem length_laid (bs : Bytes) (writes : List (Nat × Bytes)) :
    (laid bs writes).length = bs.length :=
  Bytes.length_foldl_overwrite Prod.fst Prod.snd writes bs

/-- A byte is written while the memory is sealed. -/
def Late (size : Nat) (uses : List Use) : Prop :=
  ∃ before pos new later, uses = before ++ .write pos new :: later ∧ .protect none ∈ before ∧
    Kept before ∧ pos < size ∧ new ≠ []

theorem late_concat {size : Nat} {uses : List Use} :
    Late size (uses ++ [u]) ↔ Late size uses ∨
      ∃ pos new, u = .write pos new ∧ .protect none ∈ uses ∧ Kept uses ∧ pos < size ∧ new ≠ [] := by
  constructor
  · rintro ⟨before, pos, new, later, hsplit, hlate⟩
    rcases Histories.append_cons_eq_concat.mp hsplit.symm with ⟨rfl, rfl, -⟩ | ⟨rest, -, hrest⟩
    · exact .inr ⟨pos, new, rfl, hlate⟩
    · exact .inl ⟨before, pos, new, rest, hrest.symm, hlate⟩
  · rintro (⟨before, pos, new, later, rfl, hlate⟩ | ⟨pos, new, rfl, hlate⟩)
    · exact ⟨before, pos, new, later ++ [u], by simp, hlate⟩
    · exact ⟨uses, pos, new, [], rfl, hlate⟩

/-! ## Contents and seal along a history -/

structure Tracks (size : Nat) (base : UInt64) (uses : List Use) (m : Executable) : Prop where
  place : Kept uses → m.buffer = some ⟨base, wholePages size⟩ ∧ m.size = size
  contents : Kept uses → m.bytes? = some (laid (List.replicate size 0) (early uses))
  sealed_iff : m.isSealed = true ↔ .protect none ∈ uses ∧ Kept uses
  freed : ¬ Kept uses → m.buffer = none

variable {size : Nat} {base : UInt64} {uses : List Use}

theorem tracks_blank (base : UInt64) (size : Nat) :
    Tracks size base [] (blank base (wholePages size) size) where
  place _ := ⟨rfl, rfl⟩
  contents _ := bytes?_blank base size
  sealed_iff := iff_of_false (fun h => nomatch h) fun h => nomatch h.1
  freed h := absurd (fun _ hmem => nomatch hmem) h

/-- A write changes the used part as if there were nothing behind it. -/
theorem take_overwrite (bs : Bytes) (size pos : Nat) (new : Bytes) :
    (bs.overwrite pos (new.take (min new.length ((bs.take size).length - pos)))).take size =
      Bytes.overwrite (bs.take size) pos new := by
  apply List.ext_getElem?
  intro i
  simp only [List.getElem?_take, Bytes.getElem?_overwrite, List.length_take]
  grind

theorem bytes?_written {b : Span} {p : Pages} (hb : m.buffer = some b) (hp : m.pages = some p)
    (pos : Nat) (new : Bytes) :
    (m.written p pos new).bytes? = m.bytes?.map (·.overwrite pos new) := by
  simp only [bytes?, written, room, hb, hp, Option.map_some, Option.getD_some]
  exact congrArg some (take_overwrite p.bytes m.size pos new)

theorem bytes?_sealed (m : Executable) : m.sealed.bytes? = m.bytes? := by
  cases hp : m.pages <;> simp [bytes?, sealed, hp]

theorem length_bytes (ht : Tracks size base uses m) (h : Kept uses) :
    (m.bytes?.getD []).length = size := by
  rw [ht.contents h, Option.getD_some, length_laid, List.length_replicate]

theorem room_ne_zero (ht : Tracks size base uses m) (h : Kept uses) (pos : Nat) (new : Bytes) :
    m.room pos new ≠ 0 ↔ pos < size ∧ new ≠ [] := by
  rw [room, length_bytes ht h, ← List.length_pos_iff]
  omega

theorem tracks_of_freed (h : ¬ Kept uses) (hb : m.buffer = none) (hs : m.isSealed = false) :
    Tracks size base uses m where
  place hkept := absurd hkept h
  contents hkept := absurd hkept h
  sealed_iff := iff_of_false (by rw [hs]; exact Bool.false_ne_true) fun hkept => h hkept.2
  freed _ := hb

theorem Tracks.idle (ht : Tracks size base uses m)
    (hwrite : u.write? = none ∨ .protect none ∈ uses)
    (hrelease : ∀ refusal, u ≠ .release refusal)
    (hseal : u = .protect none → Kept uses → .protect none ∈ uses) :
    Tracks size base (uses ++ [u]) m where
  place h := ht.place (kept_concat.mp h).1
  contents h := by
    rw [ht.contents (kept_concat.mp h).1]
    by_cases hs : .protect none ∈ uses
    · rw [early_concat_of_sealed hs]
    · rw [early_concat hs, hwrite.resolve_right hs, Option.toList_none, List.append_nil]
  sealed_iff := by
    rw [ht.sealed_iff, kept_concat, List.mem_append, List.mem_singleton]
    constructor
    · exact fun h => ⟨.inl h.1, h.2, hrelease⟩
    · rintro ⟨hmem | hu, hkept, -⟩
      · exact ⟨hmem, hkept⟩
      · exact ⟨hseal hu.symm hkept, hkept⟩
  freed h := ht.freed fun hkept => h (kept_concat.mpr ⟨hkept, hrelease⟩)

/-- A write to memory that is kept and not sealed. -/
theorem Tracks.write (ht : Tracks size base uses m) (hkept : Kept uses)
    (hs : .protect none ∉ uses) {pos : Nat} {new : Bytes} (hbuffer : m'.buffer = m.buffer)
    (hsize : m'.size = m.size) (hsealed : m'.isSealed = m.isSealed)
    (hbytes : m'.bytes? = m.bytes?.map (·.overwrite pos new)) :
    Tracks size base (uses ++ [.write pos new]) m' where
  place _ := by
    rw [hbuffer, hsize]
    exact ht.place hkept
  contents _ := by
    rw [hbytes, ht.contents hkept, early_concat hs, laid, laid, List.foldl_append]
    rfl
  sealed_iff := by
    rw [hsealed, ht.sealed_iff, kept_concat, List.mem_append, List.mem_singleton]
    simp
  freed h := absurd (kept_concat.mpr ⟨hkept, fun _ => Use.noConfusion⟩) h

theorem overwrite_of_no_room {bs new : Bytes} {pos : Nat}
    (h : min new.length (bs.length - pos) = 0) : bs.overwrite pos new = bs := by
  apply List.ext_getElem?
  intro i
  rw [Bytes.getElem?_overwrite, if_neg (by omega)]

theorem Tracks.step (hm : Consistent m) (ht : Tracks size base uses m) (h : Change m u m') :
    Tracks size base (uses ++ [u]) m' := by
  have hfreed (hgone : ¬ Kept uses) (hu : ¬ Kept (uses ++ [u])) :
      Tracks size base (uses ++ [u]) m :=
    tracks_of_freed hu (ht.freed hgone) (hm.freed (ht.freed hgone)).2
  cases h with
  | looked => exact ht.idle (.inl rfl) (fun _ => Use.noConfusion) Use.noConfusion
  | called => exact ht.idle (.inl rfl) (fun _ => Use.noConfusion) Use.noConfusion
  | unsealed hwhy =>
      refine ht.idle (.inl rfl) (fun _ => Use.noConfusion) fun hu hkept => ?_
      rcases hwhy with hb | hs | hrefused
      · cases hb.symm.trans (ht.place hkept).1
      · exact (ht.sealed_iff.mp hs).1
      · cases hu
        exact absurd rfl hrefused
  | @unwritten pos new hroom =>
      by_cases hkept : Kept uses
      · by_cases hs : .protect none ∈ uses
        · exact ht.idle (.inr hs) (fun _ => Use.noConfusion) Use.noConfusion
        · refine ht.write hkept hs rfl rfl rfl ?_
          rw [room, ht.contents hkept, Option.getD_some] at hroom
          rw [ht.contents hkept, Option.map_some, overwrite_of_no_room hroom]
      · exact hfreed hkept fun h => hkept (kept_concat.mp h).1
  | @written pos new p hp hw =>
      by_cases hkept : Kept uses
      · obtain ⟨hb, -⟩ := ht.place hkept
        obtain ⟨-, q, hq, -, haccess⟩ := hm.mapped _ hb
        obtain rfl : p = q := Option.some.inj (hp.symm.trans hq)
        have hopen : m.isSealed = false := by simpa [haccess] using hw
        have hs : .protect none ∉ uses := by
          intro hmem
          rw [ht.sealed_iff.mpr ⟨hmem, hkept⟩] at hopen
          cases hopen
        exact ht.write hkept hs rfl rfl rfl (bytes?_written hb hp pos new)
      · refine tracks_of_freed (fun h => hkept (kept_concat.mp h).1) (ht.freed hkept) ?_
        exact (hm.freed (ht.freed hkept)).2
  | @sealed b hb hopen =>
      have hkept : Kept uses := by
        by_contra hgone
        cases hb.symm.trans (ht.freed hgone)
      have hs : .protect none ∉ uses := by
        intro hmem
        rw [ht.sealed_iff.mpr ⟨hmem, hkept⟩] at hopen
        cases hopen
      have hstill : Kept (uses ++ [.protect none]) :=
        kept_concat.mpr ⟨hkept, fun _ => Use.noConfusion⟩
      refine ⟨fun _ => ht.place hkept, fun _ => ?_, ?_, fun hgone => absurd hstill hgone⟩
      · rw [bytes?_sealed, ht.contents hkept, early_concat hs]
        simp [Use.write?]
      · exact iff_of_true rfl ⟨List.mem_append_right _ (.head _), hstill⟩
  | gone hb =>
      refine tracks_of_freed (fun h => ?_) hb (hm.freed hb).2
      exact (kept_concat.mp h).2 _ rfl
  | released hb =>
      refine tracks_of_freed (fun h => ?_) rfl rfl
      exact (kept_concat.mp h).2 _ rfl

/-- Along every history fresh memory stays consistent, until a byte is written too late. -/
theorem after_blank (size : Nat) (base : UInt64) (uses : List Use) :
    ((blank base (wholePages size) size).after uses = none ∧ Late size uses) ∨
      ∃ m, (blank base (wholePages size) size).after uses = some m ∧ ¬ Late size uses ∧
        Consistent m ∧ Tracks size base uses m := by
  induction uses using List.reverseRecOn with
  | nil =>
      refine .inr ⟨_, rfl, ?_, consistent_blank base size, tracks_blank base size⟩
      rintro ⟨before, pos, new, later, h, -⟩
      cases before <;> cases h
  | append_singleton uses u ih =>
      rw [after_concat, late_concat]
      rcases ih with ⟨hnone, hlate⟩ | ⟨m, hsome, hlate, hm, ht⟩
      · rw [hnone]
        exact .inl ⟨rfl, .inl hlate⟩
      rw [hsome, Option.bind_some]
      -- A write comes too late just if it moves a byte while the memory is sealed.
      have hnow : m.use u = none ↔ ∃ pos new, u = .write pos new ∧ .protect none ∈ uses ∧
          Kept uses ∧ pos < size ∧ new ≠ [] := by
        rw [hm.use_eq_none_iff]
        refine exists_congr fun pos => exists_congr fun new => and_congr_right fun _ => ?_
        rw [ht.sealed_iff, and_assoc]
        refine and_congr_right fun _ => and_congr_right fun hkept => ?_
        exact room_ne_zero ht hkept pos new
      cases hu : m.use u with
      | none => exact .inl ⟨rfl, .inr (hnow.mp hu)⟩
      | some m' =>
          have hchange := change_of_use hu
          refine .inr ⟨m', rfl, ?_, hm.step hchange, ht.step hm hchange⟩
          rintro (h | h)
          · exact hlate h
          · cases hu.symm.trans (hnow.mpr h)

/-! ## The whole life -/

/-- What memory for `size` bytes at `base` is after uses. -/
structure Lives (size : Nat) (base : UInt64) (uses : List Use) (m : Executable) : Prop where
  /-- Until it is given back it keeps its size and place. -/
  size_eq : Kept uses → m.size = size
  pages : Kept uses → FewestPages m.size m.capacity
  place : Kept uses → m.address = base
  /-- It holds what was written until it was sealed. -/
  contents : Kept uses → m.bytes? = some (laid (List.replicate size 0) (early uses))
  /-- It is sealed from the first time that the kernel agrees until it is given back. -/
  sealed_iff : m.isSealed = true ↔ .protect none ∈ uses ∧ Kept uses
  seals : Kept uses → ∀ refusal,
    (∃ m', m.protect refusal = .ok m') ↔ m.isSealed = true ∨ refusal = none
  /-- The pages are executable while it is sealed and writable while it is not. -/
  access : Kept uses → ∃ p, m.pages = some p ∧
    (p.access.execute = true ↔ m.isSealed = true) ∧ (p.access.write = true ↔ m.isSealed = false)
  /-- No page is ever both, not even one that the kernel did not take back. -/
  exclusive : ∀ p, m.pages = some p → ¬ (p.access.write = true ∧ p.access.execute = true)
  /-- If it is sealed it is entered at its place, with its contents. -/
  enters : base ≠ 0 → m.isSealed = true →
    ∃ code, m.call = .ok code ∧ code.base = base ∧ m.bytes? = some code.bytes
  refuses : m.isSealed = false →
    ∃ f, m.call = .error f ∧ f.failure?.bind Failure.kind? = some .invariantViolation
  /-- Given back it is nothing, and stays so. -/
  gone : ¬ Kept uses → m.size = 0 ∧ m.capacity = 0 ∧ m.address = 0 ∧ m.bytes? = none ∧
    (∀ refusal, ∃ f, m.protect refusal = .error f ∧
      f.failure?.bind Failure.kind? = some .invariantViolation) ∧
    (∃ f, m.call = .error f ∧ f.failure?.bind Failure.kind? = some .invariantViolation) ∧
    ∀ refusal, m.release refusal = (none, m)

theorem call_unsealed (h : m.isSealed = false) : m.call = .error .unsealed := by
  rw [call, h]
  rfl

theorem Consistent.lives (hm : Consistent m) (ht : Tracks size base uses m) (hpos : 0 < size) :
    Lives size base uses m := by
  have hroom := (fewestPages size).room
  have haddress (h : Kept uses) : m.address = base := by
    rw [address, (ht.place h).1, Option.map_some, Option.getD_some, if_neg (by simp; omega)]
  constructor
  case size_eq => exact fun h => (ht.place h).2
  case pages =>
    intro h
    obtain ⟨hb, -⟩ := ht.place h
    rw [capacity, hb]
    exact (hm.mapped _ hb).1
  case place => exact haddress
  case contents => exact ht.contents
  case sealed_iff => exact ht.sealed_iff
  case seals =>
    intro h refusal
    obtain ⟨hb, -⟩ := ht.place h
    rcases protect_cases m refusal with ⟨hwhy, f, hp⟩ | ⟨hs, hp⟩ | ⟨b, -, hs, hnone, hp⟩
    · rcases hwhy with hnone | ⟨hs, hrefused⟩
      · cases hb.symm.trans hnone
      · refine iff_of_false (fun ⟨m', hm'⟩ => nomatch hp.symm.trans hm') ?_
        rw [hs]
        exact fun h => h.elim Bool.noConfusion hrefused
    · exact iff_of_true ⟨m, hp⟩ (.inl hs)
    · exact iff_of_true ⟨_, hp⟩ (.inr hnone)
  case access =>
    intro h
    obtain ⟨-, p, hp, -, haccess⟩ := hm.mapped _ (ht.place h).1
    exact ⟨p, hp, by rw [haccess], by simp [haccess]⟩
  case exclusive => exact hm.exclusive
  case enters =>
    intro hbase hs
    have hkept := (ht.sealed_iff.mp hs).2
    obtain ⟨hb, -⟩ := ht.place hkept
    obtain ⟨-, p, hp, -, haccess⟩ := hm.mapped _ hb
    refine ⟨⟨base, p.bytes.take m.size⟩, ?_, rfl, ?_⟩
    · simp [call, hs, haddress hkept, hbase, hp, haccess]
    · simp [bytes?, hb, hp]
  case refuses => exact fun h => ⟨.unsealed, call_unsealed h, rfl⟩
  case gone =>
    intro h
    have hb := ht.freed h
    obtain ⟨hsize, hs⟩ := hm.freed hb
    refine ⟨hsize, by simp [capacity, hb], by simp [address, hb], by simp [bytes?, hb], ?_, ?_, ?_⟩
    · exact fun refusal => ⟨.sealAfterFree, by simp [protect, hb], rfl⟩
    · exact ⟨.unsealed, call_unsealed hs, rfl⟩
    · exact fun refusal => by simp [release, hb]

/-- No pages come about for a size that is not positive or too large to be rounded up. For every
other size it is the kernel's answer that decides. The life of the pages then is the one above,
whatever is done to them in whatever order, unless a byte is written to them while they are
sealed. -/
theorem code_memory_lives (size : Int64) :
    (size.toInt ≤ 0 ∨ 2 ^ 63 ≤ size.toInt + 4095 → ∀ answer, ∃ f, map answer size = .error f) ∧
      (0 < size.toInt → size.toInt + 4095 < 2 ^ 63 → ∀ answer,
        (∃ m, map answer size = .ok m) ↔
          ∃ base, answer (wholePages size.toInt.toNat) = .ok base) ∧
      ∀ answer m, map answer size = .ok m →
        ∃ base, answer (wholePages size.toInt.toNat) = .ok base ∧ ∀ uses,
          (m.after uses = none ↔ Late size.toInt.toNat uses) ∧
            ∀ m', m.after uses = some m' → Lives size.toInt.toNat base uses m' := by
  refine ⟨fun hout answer => ?_, fun hpos hfit answer => ?_, fun answer m hm => ?_⟩
  · cases hmap : map answer size with
    | error f => exact ⟨f, rfl⟩
    | ok m =>
        obtain ⟨hpos, hfit, -⟩ := map_eq_ok_iff.mp hmap
        omega
  · simp only [map_eq_ok_iff]
    exact ⟨fun ⟨_, _, _, base, hbase, _⟩ => ⟨base, hbase⟩,
      fun ⟨base, hbase⟩ => ⟨_, hpos, hfit, base, hbase, rfl⟩⟩
  · obtain ⟨hpos, -, base, hbase, rfl⟩ := map_eq_ok_iff.mp hm
    refine ⟨base, hbase, fun uses => ?_⟩
    rcases after_blank size.toInt.toNat base uses with
      ⟨hnone, hlate⟩ | ⟨m', hsome, hlate, hm', ht⟩
    · rw [hnone]
      exact ⟨iff_of_true rfl hlate, fun _ h => nomatch h⟩
    · rw [hsome]
      refine ⟨iff_of_false (fun h => nomatch h) hlate, fun m'' h => ?_⟩
      cases h
      exact hm'.lives ht (by omega)

/-- A return is written, the kernel refuses once and then agrees, and the code is entered. -/
def entered : List Use :=
  [.write 0 [0xc3], .protect (some "permission denied"), .protect none, .call]

theorem code_memory_lives_entered :
    (∃ m m', map (fun _ => .ok 0x1000) 1 = .ok m ∧ m.after entered = some m' ∧
      (∃ code, m'.call = .ok code ∧ code.bytes = [0xc3]) ∧
      m.after (entered ++ [.write 0 [0x90]]) = none ∧
      ∃ m'', m.after (entered ++ [.release (some "busy")]) = some m'' ∧ m''.size = 0) ∧
    (∃ f, map (fun _ => .ok 0x1000) 0 = .error f) ∧
    ∃ f, map (fun _ => .ok 0x1000) Int64.maxValue = .error f := by
  refine ⟨?_, (code_memory_lives 0).1 (.inl (by decide)) _,
    (code_memory_lives Int64.maxValue).1 (.inr (by decide)) _⟩
  obtain ⟨-, hmaps, hlives⟩ := code_memory_lives 1
  obtain ⟨m, hm⟩ := (hmaps (by decide) (by decide) fun _ => .ok 0x1000).mpr ⟨0x1000, rfl⟩
  obtain ⟨base, hbase, huses⟩ := hlives _ m hm
  cases hbase
  have hkept : Kept entered := by simp [Kept, entered]
  have hearly : ¬ Late 1 entered := by
    rintro ⟨before, pos, new, later, hsplit, hs, -⟩
    cases before with
    | nil => cases hs
    | cons u before =>
        have hmem : Use.write pos new ∈ entered.tail := by
          rw [hsplit]
          exact List.mem_append_right _ (.head _)
        simp [entered] at hmem
  have hreleased : ¬ Late 1 (entered ++ [.release (some "busy")]) := by
    rw [late_concat]
    rintro (h | ⟨_, _, h, -⟩)
    · exact hearly h
    · cases h
  cases hafter : m.after entered with
  | none => exact absurd ((huses entered).1.mp hafter) hearly
  | some m' =>
      have hlife := (huses entered).2 m' hafter
      have hsealed := hlife.sealed_iff.mpr ⟨by simp [entered], hkept⟩
      obtain ⟨code, hcall, -, hbytes⟩ := hlife.enters (by decide) hsealed
      rw [hlife.contents hkept] at hbytes
      refine ⟨m, m', hm, hafter, ⟨code, hcall, (Option.some.inj hbytes).symm⟩, ?_, ?_⟩
      · refine (huses _).1.mpr (late_concat.mpr (.inr ⟨0, [0x90], rfl, ?_⟩))
        exact ⟨by simp [entered], hkept, by decide, by simp⟩
      · cases hgone : m.after (entered ++ [.release (some "busy")]) with
        | none => exact absurd ((huses _).1.mp hgone) hreleased
        | some m'' =>
            have hnot : ¬ Kept (entered ++ [.release (some "busy")]) :=
              fun h => h (some "busy") (by simp)
            exact ⟨m'', rfl, (((huses _).2 m'' hgone).gone hnot).1⟩

end StackCode.Memory.Executable
