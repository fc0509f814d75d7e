import StackCode.Proofs.Cache.Store
import StackCode.Proofs.Session.Preparing

/-!
# Stores with anything in them

A store may hold any bytes under any key. A session for an accepted program looks at one value
only, and most of what can be wrong with it makes the session lower the program instead. The
exception is a stored image with a fixup in the last eight positions of the 64-bit range: the
guard of `relink` does not see it, and the write behind the guard is out of range. With every
other store the session ends up with an image, and a stored image is taken over only if each of
its fixups lies inside.
-/
namespace StackCode

open Lowering Memory Cache

namespace Session

/-! ## Fixups -/

/-- Fixups that get past the guard to a field at the end of the 64-bit range. -/
def Overshoots (size : Nat) (fs : List Fixup) : Prop :=
  ∃ before f after, fs = before ++ f :: after ∧ (∀ g ∈ before, Inside size g) ∧
    2 ^ 63 - 8 ≤ f.pos.toInt

theorem not_overshoots_nil (size : Nat) : ¬Overshoots size [] := by
  rintro ⟨before, f, after, h, -⟩
  simp at h

theorem overshoots_cons {size : Nat} {f : Fixup} {fs : List Fixup} :
    Overshoots size (f :: fs) ↔
      2 ^ 63 - 8 ≤ f.pos.toInt ∨ Inside size f ∧ Overshoots size fs := by
  constructor
  · rintro ⟨before, g, after, h, hin, hfar⟩
    cases before with
    | nil =>
        cases h
        exact .inl hfar
    | cons b before =>
        cases h
        exact .inr ⟨hin f (.head _), before, g, after, rfl, fun k hk => hin k (.tail _ hk), hfar⟩
  · rintro (hfar | ⟨hf, before, g, after, rfl, hin, hfar⟩)
    · exact ⟨[], f, fs, rfl, by simp, hfar⟩
    · refine ⟨f :: before, g, after, rfl, ?_, hfar⟩
      intro k hk
      rcases List.mem_cons.mp hk with rfl | hk
      · exact hf
      · exact hin k hk

/-- Relinking goes out of range, succeeds with all fixups inside, or gives up. -/
theorem relink_cases (h : Helpers) (fs : List Fixup) {bs : Bytes} (hsize : bs.length < 2 ^ 63) :
    Overshoots bs.length fs ∧ relink h fs bs = .error .outOfRange ∨
      ¬Overshoots bs.length fs ∧
        ((∀ f ∈ fs, Inside bs.length f) ∨ ∃ fault, relink h fs bs = .error (.failed fault)) := by
  induction fs generalizing bs with
  | nil => exact .inr ⟨not_overshoots_nil _, .inl (by simp)⟩
  | cons f fs ih =>
      rw [relink_cons h f fs hsize, overshoots_cons]
      by_cases hin : Inside bs.length f
      · have hlen : (fixed h f bs).length = bs.length := Bytes.length_overwrite ..
        have hnear : ¬2 ^ 63 - 8 ≤ f.pos.toInt := by
          have := hin.2
          omega
        have hrest := ih (by rwa [hlen])
        rw [hlen] at hrest
        rw [if_pos hin]
        rcases hrest with ⟨hover, hrun⟩ | ⟨hover, hrun⟩
        · exact .inl ⟨.inr ⟨hin, hover⟩, hrun⟩
        · refine .inr ⟨not_or.mpr ⟨hnear, fun hf => hover hf.2⟩, hrun.imp_left fun hall => ?_⟩
          simpa [hin] using hall
      · rw [if_neg hin]
        by_cases hfar : 2 ^ 63 - 8 ≤ f.pos.toInt
        · exact .inl ⟨.inl hfar, if_pos hfar⟩
        · exact .inr ⟨not_or.mpr ⟨hfar, fun hf => hin hf.1⟩, .inr ⟨_, if_neg hfar⟩⟩

/-! ## Asking the store -/

/-- A stored image that the session tries to take over: it can be read, belongs to a program
of the right length, and there are pages for it. -/
structure Offers (place : Surroundings) (db : Store) (s : Session) (e : Entry) : Prop where
  found : db.entry s.key = .ok (some e)
  source : e.sourceLen.toInt = s.code.length
  room : place.kernel.Maps (e.image.getD []).length

/-- The store offers an image whose fixups go out of range. -/
def Spoilt (place : Surroundings) (db : Store) (s : Session) : Prop :=
  ∃ e, Offers place db s e ∧ Overshoots (e.image.getD []).length e.fixups

def takenOver (place : Surroundings) (e : Entry) : Bytes :=
  e.fixups.foldl (fun bs f => fixed place.helpers f bs) (e.image.getD [])

theorem length_takenOver (place : Surroundings) (e : Entry) :
    (takenOver place e).length = (e.image.getD []).length := by
  unfold takenOver
  generalize e.image.getD [] = bs
  induction e.fixups generalizing bs with
  | nil => rfl
  | cons f fs ih =>
      rw [List.foldl_cons, ih]
      exact Bytes.length_overwrite ..

variable {place : Surroundings} {s : Session} {db : Store} {e : Entry}

/-- An image is read only if its length is the one that its entry states. -/
theorem length_of_entry {key : Bytes} (h : db.entry key = .ok (some e)) :
    ((e.image.getD []).length : Int) = e.nativeLen.toInt := by
  unfold Store.entry at h
  split at h
  next => cases h
  next =>
    split at h
    next => cases h
    next =>
      simp only at h
      split at h
      next hlen =>
        cases h
        exact hlen
      next => cases h

theorem stated_length {key : Bytes} (h : db.entry key = .ok (some e)) :
    e.nativeLen.toNatClampNeg = (e.image.getD []).length := by
  have hlen := length_of_entry h
  unfold Int64.toNatClampNeg
  omega

theorem Offers.unique {e' : Entry} (ho : Offers place db s e) (ho' : Offers place db s e') :
    e = e' := by
  have h := ho.found.symm.trans ho'.found
  cases h
  rfl

theorem lookup_missed (hno : ∀ e, ¬Offers place db s e) :
    ∃ told, s.lookup place db = .missed told := by
  unfold lookup
  split
  next fault _ => exact ⟨_, rfl⟩
  next => exact ⟨_, rfl⟩
  next e hfound =>
    split
    next hsource =>
      have hroom : ¬place.kernel.Maps e.nativeLen.toNatClampNeg := by
        rw [stated_length hfound]
        exact fun hr => hno e ⟨hfound, hsource, hr⟩
      obtain ⟨failure, hhold⟩ := hold_of_not_maps hroom
      rw [load, hhold]
      exact ⟨_, rfl⟩
    next => exact ⟨_, rfl⟩

/-- What trying to take an image over means for asking. -/
def Lookup.ofLoad : Except Outcome Session → Lookup
  | .ok s => .loaded s
  | .error (.failed f) => .missed [.imageUnusable f]
  | .error o => .broken o

theorem Offers.lookup_eq (ho : Offers place db s e) :
    s.lookup place db = .ofLoad (s.load place e) := by
  simp only [lookup, ho.found, if_pos ho.source]
  rfl

/-- What becomes of an offer is what relinking comes to. -/
theorem Offers.load_eq (ho : Offers place db s e) :
    (∀ o, relink place.helpers e.fixups (e.image.getD []) = .error o →
      s.load place e = .error o) ∧
    (place.kernel.protect = none → (∀ f ∈ e.fixups, Inside (e.image.getD []).length f) →
      ∃ m, m.bytes? = some (takenOver place e) ∧
        s.load place e = .ok { s with memory := some m, figures := .ofEntry e }) := by
  have hsize := stated_length ho.found
  have hblank : Bytes.overwrite (List.replicate e.nativeLen.toNatClampNeg 0) 0 (e.image.getD []) =
      e.image.getD [] :=
    Bytes.overwrite_whole (by rw [hsize, List.length_replicate])
  constructor
  · intro o hrelink
    have hhold : hold place e.nativeLen (fun blank =>
        (relink place.helpers e.fixups (blank.overwrite 0 (e.image.getD []))).map ((), ·)) =
        .error o := hold_of_error (hsize ▸ ho.room) (by rw [hblank, hrelink]; rfl)
    rw [load, hhold]
    rfl
  · intro hprotect hin
    have hshort := ho.room.short
    have hrelink : relink place.helpers e.fixups (e.image.getD []) = .ok (takenOver place e) :=
      relink_of_inside place.helpers (by omega) hin
    have hlen := length_takenOver place e
    obtain ⟨base, hbase⟩ := ho.room.found
    have hfresh : fresh place e.nativeLen (takenOver place e) =
        .ok (.filled base (takenOver place e)) :=
      fresh_eq (hlen.trans hsize.symm) (hlen ▸ ho.room) (hlen ▸ hbase) hprotect
    have hhold : hold place e.nativeLen (fun blank =>
        (relink place.helpers e.fixups (blank.overwrite 0 (e.image.getD []))).map ((), ·)) =
        (fresh place e.nativeLen (takenOver place e)).map ((), ·) :=
      hold_of_ok (by rw [hblank, hrelink]; rfl)
    refine ⟨.filled base (takenOver place e), Executable.bytes?_filled .., ?_⟩
    rw [load, hhold, hfresh]
    rfl

/-- What asking any store comes to. -/
theorem lookup_cases (hprotect : place.kernel.protect = none) (db : Store) (s : Session) :
    Spoilt place db s ∧ s.lookup place db = .broken .outOfRange ∨
      ¬Spoilt place db s ∧ ((∃ told, s.lookup place db = .missed told) ∨
        ∃ e m, Offers place db s e ∧ (∀ f ∈ e.fixups, Inside (e.image.getD []).length f) ∧
          m.bytes? = some (takenOver place e) ∧
          s.lookup place db = .loaded { s with memory := some m, figures := .ofEntry e }) := by
  by_cases hoffer : ∃ e, Offers place db s e
  · obtain ⟨e, ho⟩ := hoffer
    have hsize : (e.image.getD []).length < 2 ^ 63 := by
      have hshort := ho.room.short
      omega
    obtain ⟨hbad, hgood⟩ := ho.load_eq
    rcases relink_cases place.helpers e.fixups hsize with ⟨hover, hrun⟩ | ⟨hover, hrun⟩
    · refine .inl ⟨⟨e, ho, hover⟩, ?_⟩
      rw [ho.lookup_eq, hbad _ hrun]
      rfl
    · refine .inr ⟨fun ⟨e', ho', hover'⟩ => hover (ho.unique ho' ▸ hover'), ?_⟩
      rcases hrun with hin | ⟨fault, hrun⟩
      · obtain ⟨m, hbytes, hload⟩ := hgood hprotect hin
        exact .inr ⟨e, m, ho, hin, hbytes, by rw [ho.lookup_eq, hload, Lookup.ofLoad]⟩
      · exact .inl ⟨_, by rw [ho.lookup_eq, hbad _ hrun, Lookup.ofLoad]⟩
  · have hno : ∀ e, ¬Offers place db s e := fun e ho => hoffer ⟨e, ho⟩
    exact .inr ⟨fun ⟨e, ho, _⟩ => hno e ho, .inl (lookup_missed hno)⟩

theorem lower_done {layout : Layout} (hl : Layout.ofCode (some s.code) = .ok layout)
    (hmaps : place.kernel.Maps layout.nativeLen) (hprotect : place.kernel.protect = none)
    (store : Option Store) (told : List Event) :
    (s.lower place store told).outcome = .done ∧
      (s.lower place store told).session.image? =
        some (imageOf s.code layout place.helpers).native := by
  obtain ⟨base, hbase⟩ := hmaps.found
  have hshort := hmaps.short
  have hm := holdImage_eq hl hmaps hbase hprotect
  obtain ⟨events, hlow⟩ := lower_of_held hl (by omega) hm store told
  rw [hlow]
  exact ⟨rfl, by simp [image?, holding, Executable.bytes?_filled]⟩

/-! ## Preparing with any store -/

def returning : Session := ⟨Bytecode.Instr.encode .ret, true, false, none, none, .zero⟩

/-- A stored image for it, with fixups at the given positions. -/
def patchedAt (positions : List Int64) : Entry :=
  ⟨fingerprint, 1, 1, 1, 0, positions.map fun pos => ⟨pos, 0⟩, some [0xc3]⟩

theorem entry_patchedAt (positions : List Int64)
    (h : positions.length ≤ Cbor.maxElements) :
    (Store.empty.putEntry returning.key (patchedAt positions)).entry returning.key =
      .ok (some (patchedAt positions)) := by
  have hget : (Store.empty.putEntry returning.key (patchedAt positions)).get? returning.key =
      some (patchedAt positions).encode := Store.get?_set_self _ _ _
  have hdecode : Entry.decode (patchedAt positions).encode = some (patchedAt positions) :=
    Entry.decode_encode (by simpa [patchedAt] using h) (by simp [patchedAt])
  rw [Store.entry, hget]
  simp only [hdecode]
  rfl

theorem ofCode_returning : Layout.ofCode (some returning.code) =
    .ok (.ofInstrs 1 (Bytecode.Scan.ofCode returning.code).instrs) := rfl

theorem offers_patchedAt (positions : List Int64) (h : positions.length ≤ Cbor.maxElements) :
    Offers .standard (Store.empty.putEntry returning.key (patchedAt positions)) returning
      (patchedAt positions) :=
  ⟨entry_patchedAt positions h, rfl,
    Kernel.maps_simple _ _ Nat.one_pos (by decide : 1 ≤ addressSpace)⟩

/-- With any store, a session for an accepted program goes out of range if the store is
spoilt for it. Otherwise it ends up with the image that the passes make, or with a stored one
whose fixups all lie inside. -/
theorem prepare_with_any_store {layout : Layout} (place : Surroundings)
    (hl : Layout.ofCode (some s.code) = .ok layout) (hmaps : place.kernel.Maps layout.nativeLen)
    (hprotect : place.kernel.protect = none) (hm : s.memory = none) (hc : s.cached = true)
    (db : Store) :
    ((s.prepare place (some db)).outcome = .outOfRange ↔ Spoilt place db s) ∧
    (¬Spoilt place db s → (s.prepare place (some db)).outcome = .done ∧
      ((∃ image, Image.ofCode (some s.code) place.helpers = .ok image ∧
          (s.prepare place (some db)).session.image? = some image.native) ∨
        ∃ e, Offers place db s e ∧ (∀ f ∈ e.fixups, Inside (e.image.getD []).length f) ∧
          (s.prepare place (some db)).session.image? = some (takenOver place e))) := by
  rcases lookup_cases hprotect db s with ⟨hspoilt, hlook⟩ | ⟨hsound, ⟨told, hlook⟩ | hlook⟩
  · rw [prepare_broken hm hc hlook]
    exact ⟨⟨fun _ => hspoilt, fun _ => rfl⟩, fun hsound => absurd hspoilt hsound⟩
  · obtain ⟨hdone, himage⟩ := lower_done hl hmaps hprotect (some db) told
    rw [prepare_missed hm hc hlook, hdone]
    exact ⟨⟨fun h => (nomatch h), fun h => absurd h hsound⟩,
      fun _ => ⟨rfl, .inl ⟨_, Image.ofCode_eq place.helpers hl, himage⟩⟩⟩
  · obtain ⟨e, m, ho, hin, hbytes, hlook⟩ := hlook
    rw [prepare_loaded hm hc hlook]
    exact ⟨⟨fun h => (nomatch h), fun h => absurd h hsound⟩,
      fun _ => ⟨rfl, .inr ⟨e, ho, hin, by simp [image?, hbytes]⟩⟩⟩

/-- A fixup that the guard sees keeps the session from the one behind it. -/
theorem prepare_with_any_store_guarded :
    (returning.prepare .standard (some (Store.empty.putEntry returning.key
      (patchedAt [Int64.maxValue - 8, Int64.maxValue])))).outcome = .done := by
  have ho := offers_patchedAt [Int64.maxValue - 8, Int64.maxValue] (by decide)
  have hsound : ¬Spoilt .standard (Store.empty.putEntry returning.key
      (patchedAt [Int64.maxValue - 8, Int64.maxValue])) returning := by
    rintro ⟨e, ho', hover⟩
    rw [← ho.unique ho'] at hover
    rcases overshoots_cons.mp hover with hfar | ⟨hin, -⟩
    · exact absurd hfar (by decide)
    · exact absurd hin (by decide)
  have hmaps : Surroundings.standard.kernel.Maps
      (Layout.ofInstrs 1 (Bytecode.Scan.ofCode returning.code).instrs).nativeLen :=
    Kernel.maps_simple _ _ (by decide) (by decide)
  exact ((prepare_with_any_store .standard ofCode_returning hmaps rfl rfl rfl _).2 hsound).1

/-- A single fixup at the last position of the range is enough. -/
theorem prepare_goes_out_of_range :
    (∃ layout, Layout.ofCode (some returning.code) = .ok layout) ∧
      (returning.prepare .standard
        (some (Store.empty.putEntry returning.key (patchedAt [Int64.maxValue])))).outcome =
          .outOfRange := by
  have ho := offers_patchedAt [Int64.maxValue] (by decide)
  have hrun : relink Surroundings.standard.helpers (patchedAt [Int64.maxValue]).fixups
      ((patchedAt [Int64.maxValue]).image.getD []) = .error .outOfRange := by decide
  have hlook : returning.lookup .standard
      (Store.empty.putEntry returning.key (patchedAt [Int64.maxValue])) = .broken .outOfRange := by
    rw [ho.lookup_eq, ho.load_eq.1 _ hrun]
    rfl
  exact ⟨⟨_, ofCode_returning⟩, by rw [prepare_broken rfl rfl hlook]⟩

end Session

end StackCode
