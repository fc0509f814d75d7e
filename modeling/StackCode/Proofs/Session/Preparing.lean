import StackCode.Proofs.Cache.Entries
import StackCode.Proofs.Lowering.Relinking
import StackCode.Proofs.Memory.Mapping
import StackCode.Session

/-!
# How a session gets its image

Lowering an accepted program puts its image into fresh memory. Loading a stored image puts the
same bytes there, if the stored image is one of the program: the addresses that it was made
for are replaced by those of the outside routines here.
-/
namespace StackCode

open Lowering Memory

namespace Session

def imageOf (code : Bytes) (layout : Layout) (h : Helpers) : Image :=
  ⟨layout, layout.nativeLen, layout.relocations.length,
    Expected.image h (Bytecode.Scan.ofCode code).instrs⟩

theorem into_eq {code : Bytes} {layout : Layout} (hl : Layout.ofCode (some code) = .ok layout)
    (h : Helpers) : Image.into (List.replicate layout.nativeLen 0) (some code) layout h =
      .ok (imageOf code layout h) := by
  have himage := Image.ofCode_eq h hl
  rwa [Image.ofCode, hl] at himage

theorem length_imageOf {code : Bytes} {layout : Layout}
    (hl : Layout.ofCode (some code) = .ok layout) (h : Helpers) :
    (imageOf code layout h).native.length = layout.nativeLen := by
  obtain ⟨-, hf, hlayout, -⟩ := Layout.ofCode_eq_ok hl
  rw [imageOf, Expected.length_image (Bytecode.Scan.instrs_ascending hf), hlayout]
  rfl

/-! ## Memory -/

def fresh (place : Surroundings) (size : Int64) (bs : Bytes) : Except Outcome Executable :=
  (hold place size fun _ => .ok ((), bs)).map Prod.snd

theorem faultOutcome_eq {f : CodeFault} {failure : Failure} (h : f.failure? = some failure) :
    faultOutcome f = .failed failure := by
  rw [faultOutcome, h]

section
variable {α : Type} {place : Surroundings} {size : Int64}
  {fill : Bytes → Except Outcome (α × Bytes)}

/-- If there are no pages, the contents do not matter. -/
theorem hold_of_not_maps (h : ¬ place.kernel.Maps size.toNatClampNeg) :
    ∃ failure, hold place size fill = .error (.failed failure) := by
  rcases Executable.map_cases place.kernel size with ⟨-, f, hmap, failure, hf⟩ | ⟨hmaps, -⟩
  · refine ⟨failure, ?_⟩
    rw [hold, hmap]
    exact congrArg Except.error (faultOutcome_eq hf)
  · exact absurd hmaps h

/-- If there are, contents that cannot be made are the first thing to go wrong. -/
theorem hold_of_error (h : place.kernel.Maps size.toNatClampNeg) {o : Outcome}
    (hfill : fill (List.replicate size.toNatClampNeg 0) = .error o) :
    hold place size fill = .error o := by
  rcases Executable.map_cases place.kernel size with ⟨hno, -⟩ | ⟨-, base, -, hmap⟩
  · exact absurd h hno
  · simp only [hold, hmap, Except.mapError, bind, Except.bind, Executable.bytes?_blank,
      Option.getD_some, hfill]

/-- Memory is filled from blank bytes alone. -/
theorem hold_of_ok {made : α} {bs : Bytes}
    (hfill : fill (List.replicate size.toNatClampNeg 0) = .ok (made, bs)) :
    hold place size fill = (fresh place size bs).map (made, ·) := by
  unfold fresh hold
  rcases Executable.map_cases place.kernel size with ⟨-, f, hmap, -⟩ | ⟨-, base, -, hmap⟩
  · rw [hmap]
    rfl
  · obtain ⟨p, hwrite⟩ := Executable.write_blank base bs (wholePages size.toNatClampNeg)
      size.toNatClampNeg
    simp only [hmap, Except.mapError, bind, Except.bind, Executable.bytes?_blank,
      Option.getD_some, hfill, hwrite]
    generalize Executable.protect _ _ = sealing
    cases sealing <;> rfl

/-- Once bytes are written it is sealing that can go wrong. -/
theorem fresh_of_write {bs : Bytes} {m m' : Executable}
    (hmap : Executable.map place.kernel.map size = .ok m) (hwrite : m.write 0 bs = .ok m') :
    fresh place size bs = (m'.protect place.kernel.protect).mapError faultOutcome := by
  simp only [fresh, hold, hmap, Except.mapError, bind, Except.bind, hwrite]
  cases m'.protect place.kernel.protect <;> rfl

theorem fresh_error {bs : Bytes} {o : Outcome} (h : fresh place size bs = .error o) :
    ∃ failure, o = .failed failure := by
  rcases Executable.map_cases place.kernel size with ⟨-, f, hmap, failure, hf⟩ | ⟨-, base, -, hmap⟩
  · rw [fresh, hold, hmap] at h
    cases h
    exact ⟨failure, faultOutcome_eq hf⟩
  · obtain ⟨p, hwrite⟩ := Executable.write_blank base bs (wholePages size.toNatClampNeg)
      size.toNatClampNeg
    rw [fresh_of_write hmap hwrite] at h
    generalize hprotect : Executable.protect _ _ = sealing at h
    cases sealing with
    | error f =>
        cases h
        obtain ⟨failure, hf⟩ := Executable.protect_reported hprotect
        exact ⟨failure, faultOutcome_eq hf⟩
    | ok m => cases h

theorem fresh_eq {bs : Bytes} (hlen : bs.length = size.toNatClampNeg)
    (h : place.kernel.Maps bs.length) {base : UInt64}
    (hbase : place.kernel.map (wholePages bs.length) = .ok base)
    (hprotect : place.kernel.protect = none) : fresh place size bs = .ok (.filled base bs) := by
  rw [hlen] at h hbase
  rcases Executable.map_cases place.kernel size with ⟨hno, -⟩ | ⟨-, found, hfound, hmap⟩
  · exact absurd h hno
  · obtain rfl : base = found := Except.ok.inj (hbase.symm.trans hfound)
    rw [← hlen] at hmap
    obtain ⟨p, hwrite⟩ := Executable.write_blank base bs (wholePages bs.length) bs.length
    rw [fresh_of_write hmap hwrite, hprotect, Executable.protect_write_blank base bs hwrite]
    rfl

end

/-! ## Relinking -/

def Inside (size : Nat) (f : Cache.Fixup) : Prop := 0 ≤ f.pos.toInt ∧ f.pos.toInt + 8 ≤ size

instance (size : Nat) (f : Cache.Fixup) : Decidable (Inside size f) :=
  inferInstanceAs (Decidable (_ ∧ _))

/-- What a fixup lays over an image. -/
def fixed (h : Helpers) (f : Cache.Fixup) (bs : Bytes) : Bytes :=
  bs.overwrite f.pos.toInt.toNat (Bytes.ofWord64 (h.addr (Helper.ofCode f.helper.toInt)))

/-- The guard is exact but for the last eight positions, where its sum wraps around. -/
theorem relink_cons (h : Helpers) (f : Cache.Fixup) (fs : List Cache.Fixup) {bs : Bytes}
    (hsize : bs.length < 2 ^ 63) :
    relink h (f :: fs) bs =
      if Inside bs.length f then relink h fs (fixed h f bs)
      else if 2 ^ 63 - 8 ≤ f.pos.toInt then .error .outOfRange
      else .error (.failed (fixupOutside f.pos bs.length)) := by
  have hlo := f.pos.le_toInt
  have hhi := f.pos.toInt_lt
  have hsum : (f.pos + 8).toInt =
      if 2 ^ 63 - 8 ≤ f.pos.toInt then f.pos.toInt + 8 - 2 ^ 64 else f.pos.toInt + 8 := by
    have h8 : (8 : Int64).toInt = 8 := rfl
    rw [Int64.toInt_add, h8, Int.bmod_def]
    split <;> split <;> omega
  have hneg : f.pos < 0 ↔ f.pos.toInt < 0 := Int64.lt_iff_toInt_lt
  have hguard : (f.pos < 0 ∨ (bs.length : Int) < (f.pos + 8).toInt) ↔
      ¬Inside bs.length f ∧ f.pos.toInt < 2 ^ 63 - 8 := by
    rw [hneg, hsum]
    unfold Inside
    split <;> omega
  rw [relink]
  by_cases hin : Inside bs.length f
  · have hfit : ¬(bs.length : Int) < f.pos.toInt + 8 := Int.not_lt.mpr hin.2
    rw [if_neg (fun hg => (hguard.mp hg).1 hin), if_neg hfit, if_pos hin]
    rfl
  · rw [if_neg hin]
    by_cases hwrap : 2 ^ 63 - 8 ≤ f.pos.toInt
    · have hout : (bs.length : Int) < f.pos.toInt + 8 := by omega
      rw [if_neg (fun hg => Int.not_le.mpr (hguard.mp hg).2 hwrap), if_pos hout, if_pos hwrap]
    · rw [if_pos (hguard.mpr ⟨hin, Int.not_le.mp hwrap⟩), if_neg hwrap]

theorem relink_of_inside (h : Helpers) {fs : List Cache.Fixup} {bs : Bytes}
    (hsize : bs.length < 2 ^ 63) (hin : ∀ f ∈ fs, Inside bs.length f) :
    relink h fs bs = .ok (fs.foldl (fun bs f => fixed h f bs) bs) := by
  induction fs generalizing bs with
  | nil => rfl
  | cons f fs ih =>
      have hlen : (fixed h f bs).length = bs.length := Bytes.length_overwrite ..
      rw [relink_cons h f fs hsize, if_pos (hin f (.head _)), List.foldl_cons]
      exact ih (by rwa [hlen]) (fun g hg => by rw [hlen]; exact hin g (.tail _ hg))

section
variable {code : Bytes} {layout : Layout} (hl : Layout.ofCode (some code) = .ok layout)
  (hsize : layout.nativeLen < 2 ^ 63)
include hl

include hsize

theorem helperField_stated {f : HelperField} (hf : f ∈ layout.helperFields) :
    (Int64.ofInt f.nativeAt).toInt = f.nativeAt := by
  have hin := Layout.helperField_inside hl hf
  exact Int64.toInt_ofInt_of_le (by omega) (by omega)

/-- A stored image of a program becomes the image of the program here. -/
theorem relink_entryOf (h h' : Helpers) :
    relink h' (entryOf (imageOf code layout h)).fixups (imageOf code layout h).native =
      .ok (imageOf code layout h').native := by
  have hlen := length_imageOf hl h
  have hinside : ∀ g ∈ (entryOf (imageOf code layout h)).fixups,
      Inside (imageOf code layout h).native.length g := by
    intro g hg
    obtain ⟨f, hf, rfl⟩ := List.mem_map.mp hg
    unfold Inside
    rw [hlen, helperField_stated hl hsize hf]
    exact Layout.helperField_inside hl hf
  have hfixed : ∀ bs, ∀ f ∈ layout.helperFields,
      fixed h' ⟨.ofInt f.nativeAt, .ofInt f.helper.code⟩ bs =
        bs.overwrite f.nativeAt.toNat (Bytes.ofWord64 (h'.addr f.helper)) := by
    intro bs f hf
    have hhelper : Helper.ofCode (Int64.ofInt f.helper.code).toInt = f.helper := by
      cases f.helper <;> rfl
    rw [fixed, helperField_stated hl hsize hf, hhelper]
  have hnew := Layout.writeAll_image hl h h'
  rw [HelperField.writeAll] at hnew
  rw [relink_of_inside h' (by rwa [hlen]) hinside, entryOf, List.foldl_map]
  exact congrArg Except.ok ((List.foldl_ext _ _ _ hfixed).trans hnew)

end

/-! ## Lowering and loading -/

def holdImage (place : Surroundings) (code : Bytes) (layout : Layout) :
    Except Outcome Executable :=
  fresh place (.ofNat layout.nativeLen) (imageOf code layout place.helpers).native

theorem holdImage_eq {code : Bytes} {layout : Layout} (hl : Layout.ofCode (some code) = .ok layout)
    {place : Surroundings} (h : place.kernel.Maps layout.nativeLen) {base : UInt64}
    (hbase : place.kernel.map (wholePages layout.nativeLen) = .ok base)
    (hprotect : place.kernel.protect = none) :
    holdImage place code layout =
      .ok (.filled base (imageOf code layout place.helpers).native) := by
  have hlen := length_imageOf hl place.helpers
  have hshort := h.short
  refine fresh_eq ?_ (hlen ▸ h) (hlen ▸ hbase) hprotect
  rw [hlen, Int64.toNatClampNeg_ofNat_of_lt (by omega)]

/-- What a session becomes when it holds the image of its program. -/
def holding (place : Surroundings) (layout : Layout) (m : Executable) (s : Session) : Session :=
  { s with memory := some m, figures := .ofImage (imageOf s.code layout place.helpers) }

theorem lower_of_error {s : Session} {f : Failure} (hl : Layout.ofCode (some s.code) = .error f)
    (place : Surroundings) (store : Option Cache.Store) (told : List Event) :
    s.lower place store told = ⟨s, store, told, .failed f⟩ := by
  rw [lower, hl]

section
variable {s : Session} {layout : Layout} (hl : Layout.ofCode (some s.code) = .ok layout)
  (hsize : layout.nativeLen < 2 ^ 63) (place : Surroundings)
include hl hsize

/-- The passes write their image into the memory that is to hold it. -/
theorem hold_passes :
    hold place (.ofNat layout.nativeLen) (fun blank =>
      (Image.into blank (some s.code) layout place.helpers).map fun i => (i, i.native)) =
      (holdImage place s.code layout).map (imageOf s.code layout place.helpers, ·) := by
  refine hold_of_ok ?_
  rw [Int64.toNatClampNeg_ofNat_of_lt hsize, into_eq hl]
  rfl

variable {place}

theorem lower_of_refused {o : Outcome} (hh : holdImage place s.code layout = .error o)
    (store : Option Cache.Store) (told : List Event) :
    ∃ events, s.lower place store told = ⟨s, store, events, o⟩ := by
  simp only [lower, hl, hold_passes hl hsize, hh]
  exact ⟨_, rfl⟩

theorem lower_of_held {m : Executable} (hh : holdImage place s.code layout = .ok m)
    (store : Option Cache.Store) (told : List Event) : ∃ events, s.lower place store told =
      ⟨{ s.holding place layout m with layout := some layout },
        store.map fun db => db.putEntry s.key (entryOf (imageOf s.code layout place.helpers)),
        events, .done⟩ := by
  simp only [lower, hl, hold_passes hl hsize, hh]
  exact ⟨_, rfl⟩

/-- Loading a stored image of the program holds what lowering it would. -/
theorem load_entryOf (h : Helpers) :
    s.load place (entryOf (imageOf s.code layout h)) =
      (holdImage place s.code layout).map fun m =>
        { s.holding place layout m with
          figures := .ofEntry (entryOf (imageOf s.code layout h)) } := by
  have hload : hold place (entryOf (imageOf s.code layout h)).nativeLen (fun blank =>
      (relink place.helpers (entryOf (imageOf s.code layout h)).fixups
        (blank.overwrite 0 ((entryOf (imageOf s.code layout h)).image.getD []))).map ((), ·)) =
      (holdImage place s.code layout).map ((), ·) := by
    refine hold_of_ok ?_
    have hlen := length_imageOf hl h
    have hwhole : Bytes.overwrite (List.replicate layout.nativeLen 0) 0
        (imageOf s.code layout h).native = (imageOf s.code layout h).native :=
      Bytes.overwrite_whole (by rw [hlen, List.length_replicate])
    have hnative : (entryOf (imageOf s.code layout h)).nativeLen.toNatClampNeg =
        layout.nativeLen := Int64.toNatClampNeg_ofNat_of_lt hsize
    have himage : (entryOf (imageOf s.code layout h)).image.getD [] =
        (imageOf s.code layout h).native := rfl
    rw [hnative, himage, hwhole, relink_entryOf hl hsize]
    rfl
  rw [load, hload]
  cases holdImage place s.code layout <;> rfl

end

/-! ## Preparing -/

section
variable {s : Session} (place : Surroundings)

theorem prepare_of_memory {m : Executable} (hm : s.memory = some m) (store : Option Cache.Store) :
    s.prepare place store = ⟨s, store, [], .done⟩ := by
  simp [prepare, hm]

theorem prepare_alone (hm : s.memory = none) (hc : s.cached = false)
    (store : Option Cache.Store) :
    s.prepare place store = { s.lower place none [] with store := store } := by
  simp [prepare, hm, hc]

variable {place} {db : Cache.Store}

theorem prepare_missed (hm : s.memory = none) (hc : s.cached = true) {told : List Event}
    (hlook : s.lookup place db = .missed told) :
    s.prepare place (some db) = s.lower place (some db) told := by
  simp [prepare, hm, hc, hlook]

theorem prepare_loaded (hm : s.memory = none) (hc : s.cached = true) {s' : Session}
    (hlook : s.lookup place db = .loaded s') :
    s.prepare place (some db) =
      ⟨s', some db, [.loaded s'.figures.nativeLen
        ((s'.memory.map Executable.address).getD 0)], .done⟩ := by
  simp [prepare, hm, hc, hlook]

theorem prepare_broken (hm : s.memory = none) (hc : s.cached = true) {o : Outcome}
    (hlook : s.lookup place db = .broken o) :
    s.prepare place (some db) = ⟨s, some db, [], o⟩ := by
  simp [prepare, hm, hc, hlook]

end

end Session

end StackCode
