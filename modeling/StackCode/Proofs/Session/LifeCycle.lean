import Mathlib.Data.List.Induction
import StackCode.Proofs.Histories
import StackCode.Proofs.Session.Transparency

/-!
# The life of a session

A session without a store is asked for this and that, in any order. If its program is not
accepted, every request that needs the program fails for the reason of the first pass, and the
session never changes. If it is accepted, every request succeeds. The session then holds the image
of the program from each request that needs it to the next close, and the figures of the program
from the first such request on.
-/
namespace StackCode

open Lowering Memory

/-! ## Listings of whole images -/

namespace Lowering.Listing

theorem follow_ok {size : Nat} {steps : List Step}
    (h : ∀ s ∈ steps, s.nativeIp + s.desc.nativeLen ≤ size) (native : Bytes) :
    ∃ lines, follow size steps native = .ok lines := by
  induction steps generalizing native with
  | nil => exact ⟨[], rfl⟩
  | cons s steps ih =>
      have hs := h s List.mem_cons_self
      obtain ⟨lines, hlines⟩ :=
        ih (fun t ht => h t (List.mem_cons_of_mem s ht)) (native.drop s.desc.nativeLen)
      simp only [follow, if_neg (Nat.not_lt.mpr hs), hlines]
      exact ⟨_, rfl⟩

theorem exists_text {code native : Bytes} {layout : Layout}
    (hl : Layout.ofCode (some code) = .ok layout) (hlen : native.length = layout.nativeLen) :
    ∃ text, ofCode (some code) native = .ok text := by
  obtain ⟨hne, hf, -, -⟩ := Layout.ofCode_eq_ok hl
  have hfits : ∀ s ∈ Step.along 0 0 (Bytecode.Scan.ofCode code).instrs,
      s.nativeIp + s.desc.nativeLen ≤ native.length := by
    intro s hs
    rw [hlen, Layout.nativeLen_eq hl]
    exact Step.end_le hs
  obtain ⟨lines, hlines⟩ := follow_ok hfits native
  simp only [ofCode, Walk.ofCode_eq hne, hlines, hf, Option.map_none]
  exact ⟨_, rfl⟩

end Lowering.Listing

/-! ## Figures -/

namespace Bytecode

theorem Instr.len_le (i : Instr) : i.len ≤ 12 := by
  unfold len
  cases i.form <;> decide

theorem length_encodeAll_le (ip : Nat) (is : List Instr) :
    (is.flatMap Instr.encode).length ≤ 12 * (Located.place ip is).length := by
  induction is generalizing ip with
  | nil => exact Nat.zero_le _
  | cons i is ih =>
      have hi := i.len_le
      have his := ih (ip + i.len)
      rw [List.flatMap_cons, List.length_append, Instr.length_encode, Located.place,
        List.length_cons]
      omega

end Bytecode

/-- The figures of a program with this layout, as they are for an image that was made anew. -/
structure Figures.Tells (code : Bytes) (layout : Layout) (g : Figures) : Prop where
  sourceLen : g.sourceLen.toInt = layout.sourceLen
  nativeLen : g.nativeLen.toInt = layout.nativeLen
  instructions : g.instructions.toInt = layout.instructions
  relocations : g.relocations.toInt = (Bytecode.Scan.ofCode code).jumps.length
  cacheHit : g.cacheHit = false

/-- The kernel finds pages for so many bytes, not at address zero, and lets them be sealed. -/
structure Memory.Kernel.Serves (k : Kernel) (size : Nat) : Prop where
  found : ∃ base, base ≠ 0 ∧ k.map (wholePages size) = .ok base
  unrefused : k.protect = none

namespace Session

theorem native_ne_nil {code : Bytes} {layout : Layout} (hl : Layout.ofCode (some code) = .ok layout)
    (h : Helpers) : (imageOf code layout h).native ≠ [] := by
  rw [← List.length_pos_iff, length_imageOf hl]
  exact Layout.nativeLen_pos hl

theorem tells_ofImage {code : Bytes} {layout : Layout} (hl : Layout.ofCode (some code) = .ok layout)
    (hfit : layout.nativeLen ≤ addressSpace) (h : Helpers) :
    (Figures.ofImage (imageOf code layout h)).Tells code layout := by
  have hend : addressSpace < 2 ^ 48 := by decide
  have hcount := Layout.length_instrs_le hl
  obtain ⟨-, hf, hlayout, -⟩ := Layout.ofCode_eq_ok hl
  have hsource : layout.sourceLen = code.length := by rw [hlayout]; rfl
  have hinstrs : layout.instructions = (Bytecode.Scan.ofCode code).instrs.length := by
    rw [hlayout]
    exact Step.length_along ..
  have hjumps : layout.relocations.length = (Bytecode.Scan.ofCode code).jumps.length := by
    rw [hlayout]
    exact Step.length_jumps_along ..
  have hfew : (Bytecode.Scan.ofCode code).jumps.length ≤
      (Bytecode.Scan.ofCode code).instrs.length := List.length_filterMap_le ..
  have hlen : code.length ≤ 12 * (Bytecode.Scan.ofCode code).instrs.length := by
    obtain ⟨is, hcode, hplace⟩ := Bytecode.Scan.exists_place hf
    rw [hplace]
    conv_lhs => rw [hcode]
    exact Bytecode.length_encodeAll_le 0 is
  have hword : ∀ n : Nat, n ≤ 12 * layout.nativeLen → (Int64.ofNat n).toInt = n :=
    fun n hn => Int64.toInt_ofNat_of_lt (by omega)
  constructor
  · exact hword layout.sourceLen (by omega)
  · exact hword layout.nativeLen (by omega)
  · exact hword layout.instructions (by omega)
  · rw [← hjumps]
    exact hword layout.relocations.length (by omega)
  · rfl

/-! ## Histories -/

def Request.needsImage : Request → Bool
  | .prepare | .run _ _ | .listing => true
  | .layout | .image | .figures | .close => false

/-- A request, and how the kernel answers while it lasts. -/
structure Ask where
  kernel : Kernel
  request : Request

def Ask.place (a : Ask) (place : Surroundings) : Surroundings := { place with kernel := a.kernel }

/-- The answer of a session without a store, and the session afterwards. -/
def asked (place : Surroundings) (s : Session) (a : Ask) : Answer × Session :=
  let (answer, s, _) := s.respond (a.place place) .empty a.request
  (answer, s)

def after (place : Surroundings) (s : Session) (asks : List Ask) : Session :=
  asks.foldl (fun s a => (s.asked place a).2) s

theorem after_concat (place : Surroundings) (s : Session) (asks : List Ask) (a : Ask) :
    s.after place (asks ++ [a]) = ((s.after place asks).asked place a).2 := by
  rw [after, List.foldl_append]
  rfl

/-- Has a request needed the image after the last close? -/
def Held (asks : List Ask) : Prop :=
  ∃ before a later, asks = before ++ a :: later ∧ a.request.needsImage = true ∧
    ∀ b ∈ later, b.request ≠ .close

def Ever (asks : List Ask) : Prop := ∃ a ∈ asks, a.request.needsImage = true

theorem not_held_nil : ¬ Held [] := by
  rintro ⟨before, a, later, h, -⟩
  cases before <;> cases h

theorem not_ever_nil : ¬ Ever [] := by
  rintro ⟨a, ha, -⟩
  cases ha

theorem held_concat (asks : List Ask) (a : Ask) :
    Held (asks ++ [a]) ↔ a.request.needsImage = true ∨ Held asks ∧ a.request ≠ .close := by
  constructor
  · rintro ⟨before, b, later, hsplit, hb, hlater⟩
    rcases Histories.append_cons_eq_concat.mp hsplit.symm with
      ⟨-, rfl, -⟩ | ⟨rest, rfl, hfront⟩
    · exact .inl hb
    · refine .inr ⟨⟨before, b, rest, hfront.symm, hb, fun d hd => hlater d ?_⟩, hlater a ?_⟩
      · exact List.mem_append_left _ hd
      · exact List.mem_append_right _ List.mem_cons_self
  · rintro (ha | ⟨⟨before, b, later, rfl, hb, hlater⟩, ha⟩)
    · exact ⟨asks, a, [], rfl, ha, fun b hb => nomatch hb⟩
    · refine ⟨before, b, later ++ [a], by simp, hb, fun d hd => ?_⟩
      rcases List.mem_append.mp hd with hd | hd
      · exact hlater d hd
      · rw [List.mem_singleton.mp hd]
        exact ha

theorem ever_concat (asks : List Ask) (a : Ask) :
    Ever (asks ++ [a]) ↔ a.request.needsImage = true ∨ Ever asks := by
  constructor
  · rintro ⟨b, hb, hneeds⟩
    rcases List.mem_append.mp hb with hb | hb
    · exact .inr ⟨b, hb, hneeds⟩
    · rw [List.mem_singleton.mp hb] at hneeds
      exact .inl hneeds
  · rintro (ha | ⟨b, hb, hneeds⟩)
    · exact ⟨a, List.mem_append_right _ List.mem_cons_self, ha⟩
    · exact ⟨b, List.mem_append_left _ hb, hneeds⟩

/-! ## Programs that are refused -/

/-- What a session answers if its program is refused for the reason `f`. -/
def refusal (f : Failure) : Request → Answer
  | .prepare => .outcome (.failed f)
  | .run _ _ => .execution (.failed f) none
  | .listing => .text (.failed f) none
  | .layout => .layout (.error f)
  | .image => .image none
  | .figures => .figures 0 0 0 0
  | .close => .closed none

/-- A session without a store that was not used yet. -/
structure Fresh (s : Session) : Prop where
  alone : s.cached = false
  layout : s.layout = none
  memory : s.memory = none
  figures : s.figures = .zero

section
variable {s : Session} {f : Failure} (hs : s.Fresh) (hl : Layout.ofCode (some s.code) = .error f)
include hs hl

theorem prepare_refused (place : Surroundings) (store : Option Cache.Store) :
    s.prepare place store = ⟨s, store, [], .failed f⟩ := by
  rw [prepare_alone place hs.memory hs.alone, lower_of_error hl]

theorem asked_refused (place : Surroundings) (a : Ask) :
    s.asked place a = (refusal f a.request, s) := by
  obtain ⟨kernel, request⟩ := a
  cases request with
  | prepare =>
      simp only [asked, respond, prepare_refused hs hl]
      rfl
  | run window input =>
      simp only [asked, respond, run, prepare_refused hs hl]
      rfl
  | listing =>
      simp only [asked, respond, listing, prepare_refused hs hl]
      rfl
  | layout =>
      simp only [asked, respond, findLayout, hs.layout, hl]
      rfl
  | image =>
      simp only [asked, respond, image?, hs.memory]
      rfl
  | figures =>
      simp only [asked, respond, hs.figures]
      rfl
  | close =>
      simp only [asked, respond, close, hs.memory]
      rfl

theorem after_refused (place : Surroundings) (asks : List Ask) : s.after place asks = s := by
  induction asks with
  | nil => rfl
  | cons a asks ih =>
      rw [after, List.foldl_cons, asked_refused hs hl]
      exact ih

end

/-! ## Programs that are accepted -/

/-- What a session for an accepted program has, if its image is `native`: `held` says whether the
image was needed since the last close, and `ever` whether it was needed at all. -/
structure Observed (code : Bytes) (layout : Layout) (native : Bytes) (held ever : Prop)
    (s : Session) : Prop where
  image : held → s.image? = some native
  noImage : ¬ held → s.image? = none
  memory : ∀ m, s.memory = some m → m.isSealed = true ∧ m.size = layout.nativeLen
  figures : ever → s.figures.Tells code layout
  noFigures : ¬ ever → s.figures = .zero

/-- The answers of a session for an accepted program. -/
inductive Granted (code : Bytes) (layout : Layout) (native : Bytes) (place : Surroundings)
    (s : Session) : Request → Answer → Prop
  | prepare : Granted code layout native place s .prepare (.outcome .done)
  /-- the image is entered, from sealed memory -/
  | run {m : Executable} {base : UInt64} (window : Option Window) (input : Bytes) :
      m.isSealed = true → m.call = .ok ⟨base, native⟩ →
      Granted code layout native place s (.run window input)
        (.execution .done (some (Execution.ofCode place ⟨base, native⟩ window input)))
  /-- the image is listed -/
  | listing {text : String} : Listing.ofCode (some code) native = .ok text →
      Granted code layout native place s .listing (.text .done (some text))
  | layout : Granted code layout native place s .layout (.layout (.ok layout))
  | image : Granted code layout native place s .image (.image s.image?)
  | figures : Granted code layout native place s .figures
      (.figures s.figures.sourceLen s.figures.nativeLen s.figures.instructions
        s.figures.relocations)
  /-- the kernel is told only if there is memory -/
  | close : Granted code layout native place s .close
      (.closed (s.memory.bind fun _ => place.kernel.unmap))

/-- The state of a session without a store for an accepted program. -/
structure Kept (code : Bytes) (layout : Layout) (h : Helpers) (held ever : Prop) (s : Session) :
    Prop where
  program : s.code = code
  alone : s.cached = false
  laid : ∀ l, s.layout = some l → Layout.ofCode (some s.code) = .ok l
  memory : held → ∃ base, base ≠ 0 ∧
    s.memory = some (.filled base (imageOf code layout h).native)
  noMemory : ¬ held → s.memory = none
  figures : ever → s.figures = .ofImage (imageOf code layout h)
  noFigures : ¬ ever → s.figures = .zero
  needed : held → ever

namespace Kept

variable {code : Bytes} {layout : Layout} {h : Helpers} {held ever : Prop} {s : Session}

theorem of_fresh (hs : s.Fresh) (hheld : ¬ held) (hever : ¬ ever) :
    Kept s.code layout h held ever s where
  program := rfl
  alone := hs.alone
  laid l hl := by
    rw [hs.layout] at hl
    cases hl
  memory hh := absurd hh hheld
  noMemory _ := hs.memory
  figures he := absurd he hever
  noFigures _ := hs.figures
  needed hh := absurd hh hheld

theorem congr {held' ever' : Prop} (hk : Kept code layout h held ever s) (hheld : held ↔ held')
    (hever : ever ↔ ever') : Kept code layout h held' ever' s := by
  obtain rfl := propext hheld
  obtain rfl := propext hever
  exact hk

/-- A request that needs the image is to leave it with the session. -/
theorem needing {r : Request} (hr : r.needsImage = true) (hk : Kept code layout h True True s) :
    Kept code layout h (r.needsImage = true ∨ held ∧ r ≠ .close) (r.needsImage = true ∨ ever) s :=
  hk.congr (iff_of_true trivial (.inl hr)) (iff_of_true trivial (.inl hr))

/-- A request that does not need it is to leave the session as it is. -/
theorem idle {r : Request} (hr : r.needsImage = false) (hopen : r ≠ .close)
    (hk : Kept code layout h held ever s) :
    Kept code layout h (r.needsImage = true ∨ held ∧ r ≠ .close) (r.needsImage = true ∨ ever) s :=
  hk.congr (by simp [hr, hopen]) (by simp [hr])

theorem image? (hk : Kept code layout h held ever s) (hheld : held) :
    s.image? = some (imageOf code layout h).native := by
  obtain ⟨base, -, hm⟩ := hk.memory hheld
  rw [Session.image?, hm, Option.map_some, Executable.bytes?_filled, Option.getD_some]

variable (hl : Layout.ofCode (some code) = .ok layout) (hfit : layout.nativeLen ≤ addressSpace)
include hl hfit

theorem observed (hk : Kept code layout h held ever s) :
    Observed code layout (imageOf code layout h).native held ever s where
  image hheld := hk.image? hheld
  noImage hno := by rw [Session.image?, hk.noMemory hno]; rfl
  memory m hm := by
    by_cases hheld : held
    · obtain ⟨base, -, hfilled⟩ := hk.memory hheld
      rw [hfilled] at hm
      cases hm
      exact ⟨rfl, length_imageOf hl h⟩
    · rw [hk.noMemory hheld] at hm
      cases hm
  figures hever := by
    rw [hk.figures hever]
    exact tells_ofImage hl hfit h
  noFigures hno := hk.noFigures hno

theorem prepare (hk : Kept code layout h held ever s) {place : Surroundings}
    (hserves : place.kernel.Serves layout.nativeLen) (hplace : place.helpers = h)
    (store : Option Cache.Store) :
    (s.prepare place store).outcome = .done ∧
      Kept code layout h True True (s.prepare place store).session := by
  by_cases hheld : held
  · -- nothing is done, and the figures are already those of the image
    obtain ⟨base, hbase, hm⟩ := hk.memory hheld
    rw [prepare_of_memory place hm]
    refine ⟨rfl, hk.program, hk.alone, hk.laid, fun _ => ⟨base, hbase, hm⟩, ?_, ?_, ?_, ?_⟩
    · exact fun hno => absurd trivial hno
    · exact fun _ => hk.figures (hk.needed hheld)
    · exact fun hno => absurd trivial hno
    · exact fun _ => trivial
  · have hcode := hk.program
    subst hcode hplace
    obtain ⟨base, hbase, hfound⟩ := hserves.found
    have hend : addressSpace + 4095 < 2 ^ 63 := by decide
    have hmaps : place.kernel.Maps layout.nativeLen :=
      ⟨Layout.nativeLen_pos hl, by omega, base, hfound⟩
    have hm := holdImage_eq hl hmaps hfound hserves.unrefused
    obtain ⟨events, hlow⟩ := lower_of_held hl (by omega) hm none []
    rw [prepare_alone place (hk.noMemory hheld) hk.alone, hlow]
    refine ⟨rfl, rfl, hk.alone, fun l hl' => ?_, fun _ => ⟨base, hbase, rfl⟩, ?_, ?_, ?_, ?_⟩
    · cases hl'
      exact hl
    · exact fun hno => absurd trivial hno
    · exact fun _ => rfl
    · exact fun hno => absurd trivial hno
    · exact fun _ => trivial

/-- One request: it succeeds, and the session goes on accordingly. -/
theorem asked {place : Surroundings} (hk : Kept code layout place.helpers held ever s) {a : Ask}
    (ha : a.kernel.Serves layout.nativeLen) :
    Granted code layout (imageOf code layout place.helpers).native (a.place place) s a.request
        (s.asked place a).1 ∧
      Kept code layout place.helpers (a.request.needsImage = true ∨ held ∧ a.request ≠ .close)
        (a.request.needsImage = true ∨ ever) (s.asked place a).2 := by
  obtain ⟨kernel, request⟩ := a
  have hserves : (Ask.place ⟨kernel, request⟩ place).kernel.Serves layout.nativeLen := ha
  obtain ⟨hdone, hready⟩ := hk.prepare hl hfit hserves rfl (some Cache.Store.empty)
  cases request with
  | prepare =>
      refine ⟨?_, hready.needing rfl⟩
      simp only [Session.asked, respond, hdone]
      exact .prepare
  | run window input =>
      obtain ⟨hrun, hsession, -⟩ := run_eq (Ask.place ⟨kernel, .run window input⟩ place)
        (some Cache.Store.empty) window input s
      obtain ⟨base, hbase, hm⟩ := hready.memory trivial
      have hcall := Executable.call_filled hbase (native_ne_nil hl place.helpers)
      simp only [hdone, hm, entered, hcall] at hrun
      obtain ⟨ho, he⟩ := Prod.mk.inj hrun
      rw [← hsession] at hready
      refine ⟨?_, hready.needing rfl⟩
      simp only [Session.asked, respond, ho, he]
      exact .run window input rfl hcall
  | listing =>
      obtain ⟨hlist, hsession, -⟩ := listing_eq (Ask.place ⟨kernel, .listing⟩ place)
        (some Cache.Store.empty) s
      obtain ⟨text, htext⟩ := Listing.exists_text hl (length_imageOf hl place.helpers)
      simp only [hdone, hready.image? trivial, listed, hk.program, Option.getD_some, htext] at hlist
      obtain ⟨ho, he⟩ := Prod.mk.inj hlist
      rw [← hsession] at hready
      refine ⟨?_, hready.needing rfl⟩
      simp only [Session.asked, respond, ho, he]
      exact .listing htext
  | layout =>
      obtain ⟨hfound, l, hs', hlaid⟩ := findLayout_eq hk.laid
      rw [hk.program, hl] at hfound
      have hkept : Kept code layout place.helpers held ever { s with layout := l } :=
        { hk with laid := hlaid }
      refine ⟨?_, ?_⟩
      · simp only [Session.asked, respond, hfound]
        exact .layout
      · simp only [Session.asked, respond, hs']
        exact hkept.idle rfl (fun h => by cases h)
  | image => exact ⟨.image, hk.idle rfl (fun h => by cases h)⟩
  | figures => exact ⟨.figures, hk.idle rfl (fun h => by cases h)⟩
  | close =>
      obtain ⟨hanswer, hs'⟩ := close_eq (Ask.place ⟨kernel, .close⟩ place) s
      have hreleased : s.memory.bind (fun m => (m.release kernel.unmap).1) =
          s.memory.bind fun _ => kernel.unmap := by
        by_cases hheld : held
        · obtain ⟨base, -, hm⟩ := hk.memory hheld
          rw [hm]
          rfl
        · rw [hk.noMemory hheld]
          rfl
      -- only the memory is given up
      have hkept : Kept code layout place.helpers False ever { s with memory := none } :=
        { hk with
          memory := False.elim
          noMemory := fun _ => rfl
          needed := False.elim }
      refine ⟨?_, ?_⟩
      · simp only [Session.asked, respond, hanswer]
        exact hreleased ▸ .close
      · simp only [Session.asked, respond, hs']
        exact hkept.congr (by simp [Request.needsImage]) (by simp [Request.needsImage])

/-- Any number of requests. -/
theorem after (place : Surroundings)
    (hk : Kept code layout place.helpers (Held []) (Ever []) s) {asks : List Ask}
    (hasks : ∀ a ∈ asks, a.kernel.Serves layout.nativeLen) :
    Kept code layout place.helpers (Held asks) (Ever asks) (s.after place asks) := by
  induction asks using List.reverseRecOn with
  | nil => exact hk
  | append_singleton asks a ih =>
      have hfront := ih fun b hb => hasks b (List.mem_append_left _ hb)
      have ha := hasks a (List.mem_append_right _ List.mem_cons_self)
      rw [after_concat]
      exact (hfront.asked hl hfit ha).2.congr (held_concat asks a).symm (ever_concat asks a).symm

end Kept

/-- Any number of requests to a session without a store, and one more. If the program is refused,
the last one fails for the same reason as the first pass does, if it needs the program at all, and
there is no image and there are no figures. If it is accepted and the kernel has pages for its
image whenever it is asked, the last request succeeds, and the session has what the requests before
it have left. -/
theorem session_life_cycle {code : Bytes} (hne : code ≠ []) (verbose : Bool)
    (place : Surroundings) (asks : List Ask) (a : Ask) :
    ∃ s, create code false verbose = .ok s ∧
      (∀ f, Layout.ofCode (some code) = .error f →
        (s.after place asks).image? = none ∧ (s.after place asks).figures = .zero ∧
          ((s.after place asks).asked place a).1 = refusal f a.request) ∧
      ∀ layout, Layout.ofCode (some code) = .ok layout → layout.nativeLen ≤ addressSpace →
        (∀ b ∈ a :: asks, b.kernel.Serves layout.nativeLen) →
        ∃ image, Image.ofCode (some code) place.helpers = .ok image ∧
          Observed code layout image.native (Held asks) (Ever asks) (s.after place asks) ∧
          Granted code layout image.native (a.place place) (s.after place asks) a.request
            ((s.after place asks).asked place a).1 := by
  have hcreate : create code false verbose = .ok ⟨code, false, verbose, none, none, .zero⟩ :=
    if_neg (by simpa using hne)
  have hfresh : Fresh ⟨code, false, verbose, none, none, .zero⟩ := ⟨rfl, rfl, rfl, rfl⟩
  refine ⟨_, hcreate, ?_, ?_⟩
  · intro f hl
    rw [after_refused hfresh hl, asked_refused hfresh hl]
    exact ⟨rfl, rfl, rfl⟩
  · intro layout hl hfit hserves
    have hkept := (Kept.of_fresh hfresh not_held_nil not_ever_nil).after hl hfit place
      fun b hb => hserves b (List.mem_cons_of_mem a hb)
    exact ⟨_, Image.ofCode_eq place.helpers hl, hkept.observed hl hfit,
      (hkept.asked hl hfit (hserves a List.mem_cons_self)).1⟩

/-- A jump to the return behind it. -/
def jumpAndReturn : Bytes := [.branch .jmp 5, .ret].flatMap Bytecode.Instr.encode

/-- An image is made and given back, and the layout is asked for. -/
def madeAndClosed : List Ask :=
  [⟨.simple 0x7f0000000000 [], .prepare⟩, ⟨.simple 0x7f0000000000 [], .close⟩,
    ⟨.simple 0x7f0000001000 [], .layout⟩]

theorem session_life_cycle_closed :
    jumpAndReturn ≠ [] ∧ ∃ s layout image, create jumpAndReturn false true = .ok s ∧
      Layout.ofCode (some jumpAndReturn) = .ok layout ∧ layout.nativeLen ≤ addressSpace ∧
      Image.ofCode (some jumpAndReturn) Surroundings.standard.helpers = .ok image ∧
      (s.after .standard madeAndClosed).image? = none ∧
      (s.after .standard madeAndClosed).figures.Tells jumpAndReturn layout ∧
      Granted jumpAndReturn layout image.native .standard (s.after .standard madeAndClosed)
        (.run none []) ((s.after .standard madeAndClosed).asked .standard
          ⟨.simple 0x7f0000000000 [], .run none []⟩).1 := by
  have hne : jumpAndReturn ≠ [] := by decide
  have hl : Layout.ofCode (some jumpAndReturn) =
      .ok (.ofInstrs 6 (Bytecode.Scan.ofCode jumpAndReturn).instrs) := rfl
  have hfit : (Layout.ofInstrs 6 (Bytecode.Scan.ofCode jumpAndReturn).instrs).nativeLen ≤
      addressSpace := by decide
  have hserves (code : UInt64) (hcode : code ≠ 0) : (Kernel.simple code []).Serves
      (Layout.ofInstrs 6 (Bytecode.Scan.ofCode jumpAndReturn).instrs).nativeLen :=
    ⟨⟨code, hcode, Kernel.map_simple code [] hfit⟩, rfl⟩
  have hheld : ¬ Held madeAndClosed := by
    intro h
    rcases (held_concat [_, _] _).mp h with h | ⟨h, -⟩
    · cases h
    · rcases (held_concat [_] _).mp h with h | ⟨-, h⟩
      · cases h
      · exact h rfl
  have hever : Ever madeAndClosed := ⟨_, List.mem_cons_self, rfl⟩
  obtain ⟨s, hs, -, haccepted⟩ := session_life_cycle hne true .standard madeAndClosed
    ⟨.simple 0x7f0000000000 [], .run none []⟩
  obtain ⟨image, himage, hobserved, hgranted⟩ := haccepted _ hl hfit fun b hb => by
    simp only [madeAndClosed, List.mem_cons, List.not_mem_nil, or_false] at hb
    rcases hb with rfl | rfl | rfl | rfl <;> exact hserves _ (by decide)
  exact ⟨hne, s, _, image, hs, hl, hfit, himage, hobserved.noImage hheld,
    hobserved.figures hever, hgranted⟩

end Session

end StackCode
