import StackCode.Proofs.Cache.Store
import StackCode.Proofs.Session.Preparing

/-!
# A store cannot be told from none

Sessions share a store that is empty at first and that only they write to. Entries may be
removed at any time, and the addresses of the outside routines may change between requests. No
answer of a session depends on the store: the same requests to sessions without one are
answered in the same way, but for the mark that an image came from the store and for the log.

Every entry of the store is an image of some program, made for some addresses. It is enough
that different programs that occur have different keys and that their images are no longer
than a signed 64-bit word can say.
-/
namespace StackCode

open Lowering Memory Cache

namespace Session

/-! ## Requests -/

inductive Request where
  | prepare
  | run (window : Option Window) (input : Bytes)
  | listing
  | layout
  | image
  | figures
  | close
deriving DecidableEq, Repr

/-- What a session answers. Figures come without the mark of the store. -/
inductive Answer where
  | silent
  | outcome (o : Outcome)
  | execution (o : Outcome) (e : Option Execution)
  | text (o : Outcome) (text : Option String)
  | layout (l : Except Failure Layout)
  | image (native : Option Bytes)
  | figures (sourceLen nativeLen instructions relocations : Int64)
  | closed (refusal : Option String)
deriving DecidableEq

/-- Answers a request; gives the session and the store afterwards. -/
def respond (place : Surroundings) (db : Store) (s : Session) : Request → Answer × Session × Store
  | .prepare =>
      let p := s.prepare place (some db)
      (.outcome p.outcome, p.session, p.store.getD db)
  | .run window input =>
      let (p, e) := s.run place (some db) window input
      (.execution p.outcome e, p.session, p.store.getD db)
  | .listing =>
      let (p, text) := s.listing place (some db)
      (.text p.outcome text, p.session, p.store.getD db)
  | .layout =>
      let (l, s) := s.findLayout
      (.layout l, s, db)
  | .image => (.image s.image?, s, db)
  | .figures =>
      (.figures s.figures.sourceLen s.figures.nativeLen s.figures.instructions
        s.figures.relocations, s, db)
  | .close =>
      let (refusal, s) := s.close place
      (.closed refusal, s, db)

/-! ## The store -/

/-- Every entry is an image of one of the programs, made for some addresses. -/
def Faithful (codes : List Bytes) : Store → Prop :=
  Store.All fun key value => ∃ code ∈ codes, ∃ layout h, key = keyOf fingerprint code ∧
    Layout.ofCode (some code) = .ok layout ∧ value = (entryOf (imageOf code layout h)).encode

def Apart (codes : List Bytes) : Prop :=
  ∀ a ∈ codes, ∀ b ∈ codes, keyOf fingerprint a = keyOf fingerprint b → a = b

def Sized (codes : List Bytes) : Prop :=
  ∀ code ∈ codes, ∀ layout, Layout.ofCode (some code) = .ok layout → layout.nativeLen < 2 ^ 63

section
variable {code : Bytes} {layout : Layout} (hl : Layout.ofCode (some code) = .ok layout)
  (hsize : layout.nativeLen < 2 ^ 63)
include hl hsize

theorem decode_entryOf (h : Helpers) :
    Entry.decode (entryOf (imageOf code layout h)).encode = some (entryOf (imageOf code layout h)) ∨
      Entry.decode (entryOf (imageOf code layout h)).encode = none := by
  have hlen := length_imageOf hl h
  by_cases hmany : (entryOf (imageOf code layout h)).fixups.length ≤ Cbor.maxElements
  · refine .inl (Entry.decode_encode hmany ?_)
    rw [entryOf, Option.getD_some, hlen]
    omega
  · have hfew : (entryOf (imageOf code layout h)).fixups.length ≤ layout.nativeLen := by
      rw [entryOf, List.length_map]
      exact Layout.length_helperFields_le hl
    exact .inr (Entry.decode_encode_eq_none (by omega) (by omega))

end

section
variable {codes : List Bytes} (hapart : Apart codes) (hsized : Sized codes) {s : Session}
  (hs : s.code ∈ codes)
include hapart hsized hs

/-- Asking a faithful store comes to nothing, or to the image that lowering would make. -/
theorem lookup_faithful {db : Store} (hdb : Faithful codes db) (place : Surroundings) :
    (∃ told, s.lookup place db = .missed told) ∨
      ∃ layout h m, Layout.ofCode (some s.code) = .ok layout ∧
        holdImage place s.code layout = .ok m ∧
        s.lookup place db = .loaded { s.holding place layout m with
          figures := .ofEntry (entryOf (imageOf s.code layout h)) } := by
  simp only [lookup, Store.entry]
  cases hget : db.get? s.key with
  | none => exact .inl ⟨_, rfl⟩
  | some value =>
      obtain ⟨code, hcode, layout, h, hkey, hl, rfl⟩ := hdb.get? hget
      obtain rfl : s.code = code := hapart _ hs _ hcode hkey
      have hsize := hsized _ hs layout hl
      have hlen : (((entryOf (imageOf s.code layout h)).image.getD []).length : Int) =
          (entryOf (imageOf s.code layout h)).nativeLen.toInt := by
        have hnative : (entryOf (imageOf s.code layout h)).nativeLen.toInt = layout.nativeLen :=
          Int64.toInt_ofNat_of_lt hsize
        rw [hnative]
        exact congrArg Nat.cast (length_imageOf hl h)
      rcases decode_entryOf hl hsize h with hd | hd
      · simp only [hd, if_pos hlen]
        split
        next =>
          rw [load_entryOf hl hsize]
          cases hh : holdImage place s.code layout with
          | error o =>
              obtain ⟨fault, rfl⟩ := fresh_error hh
              exact .inl ⟨_, rfl⟩
          | ok m => exact .inr ⟨layout, h, m, hl, hh, rfl⟩
        next => exact .inl ⟨_, rfl⟩
      · simp only [hd]
        exact .inl ⟨_, rfl⟩

end

/-! ## Sessions with and without a store -/

/-- Two sessions for one of the programs that answer alike, the second without a store. -/
structure Alike (codes : List Bytes) (s t : Session) : Prop where
  known : s.code ∈ codes
  code : s.code = t.code
  memory : s.memory = t.memory
  figures : { s.figures with cacheHit := false } = { t.figures with cacheHit := false }
  layout : ∀ l, s.layout = some l → Layout.ofCode (some s.code) = .ok l
  layout' : ∀ l, t.layout = some l → Layout.ofCode (some t.code) = .ok l
  alone : t.cached = false

namespace Alike

variable {codes : List Bytes} {s t : Session} (hst : Alike codes s t)
include hst

/-- Holding the image of the program, with the figures of a stored image or new ones. -/
theorem holding {layout : Layout} (hl : Layout.ofCode (some s.code) = .ok layout)
    (place : Surroundings) (m : Executable) {figures : Figures}
    (hfigures : { figures with cacheHit := false } =
      Figures.ofImage (imageOf s.code layout place.helpers)) {l : Option Layout}
    (hlayout : l = some layout ∨ l = s.layout) :
    Alike codes { s with layout := l, memory := some m, figures := figures }
      { t.holding place layout m with layout := some layout } where
  known := hst.known
  code := hst.code
  memory := rfl
  figures := by
    rw [hst.code] at hfigures
    exact hfigures
  layout k hk := by
    rcases hlayout with rfl | rfl
    · cases hk
      exact hl
    · exact hst.layout k hk
  layout' k hk := by
    cases hk
    have hcode := hst.code
    rw [hcode] at hl
    exact hl
  alone := hst.alone

theorem lower (hsized : Sized codes) (place : Surroundings) (store : Option Store)
    (told : List Event) :
    (s.lower place store told).outcome = (t.lower place none []).outcome ∧
      Alike codes (s.lower place store told).session (t.lower place none []).session := by
  cases hl : Layout.ofCode (some s.code) with
  | error f =>
      have hl' : Layout.ofCode (some t.code) = .error f := by rw [← hst.code, hl]
      rw [lower_of_error hl, lower_of_error hl']
      exact ⟨rfl, hst⟩
  | ok layout =>
      have hl' : Layout.ofCode (some t.code) = .ok layout := by rw [← hst.code, hl]
      have hsize := hsized _ hst.known layout hl
      cases hh : holdImage place s.code layout with
      | error o =>
          have hh' : holdImage place t.code layout = .error o := by rw [← hst.code, hh]
          obtain ⟨events, hlow⟩ := lower_of_refused hl hsize hh store told
          obtain ⟨events', hlow'⟩ := lower_of_refused hl' hsize hh' none []
          rw [hlow, hlow']
          exact ⟨rfl, hst⟩
      | ok m =>
          have hh' : holdImage place t.code layout = .ok m := by rw [← hst.code, hh]
          obtain ⟨events, hlow⟩ := lower_of_held hl hsize hh store told
          obtain ⟨events', hlow'⟩ := lower_of_held hl' hsize hh' none []
          rw [hlow, hlow']
          exact ⟨rfl, hst.holding hl place m rfl (.inl rfl)⟩

end Alike

theorem Faithful.lower {codes : List Bytes} (hsized : Sized codes) {db : Store}
    (hdb : Faithful codes db) {s : Session} (hs : s.code ∈ codes) (place : Surroundings)
    (told : List Event) :
    ∃ db', (s.lower place (some db) told).store = some db' ∧ Faithful codes db' := by
  cases hl : Layout.ofCode (some s.code) with
  | error f =>
      rw [lower_of_error hl]
      exact ⟨db, rfl, hdb⟩
  | ok layout =>
      have hsize := hsized _ hs layout hl
      cases hh : holdImage place s.code layout with
      | error o =>
          obtain ⟨events, hlow⟩ := lower_of_refused hl hsize hh (some db) told
          rw [hlow]
          exact ⟨db, rfl, hdb⟩
      | ok m =>
          obtain ⟨events, hlow⟩ := lower_of_held hl hsize hh (some db) told
          rw [hlow]
          exact ⟨_, rfl, hdb.set ⟨s.code, hs, layout, place.helpers, rfl, hl, rfl⟩⟩

/-- Preparing keeps sessions alike and the store faithful. -/
theorem Alike.prepare {codes : List Bytes} (hapart : Apart codes) (hsized : Sized codes)
    {s t : Session} (hst : Alike codes s t) {db : Store} (hdb : Faithful codes db)
    (place : Surroundings) (store : Option Store) :
    (s.prepare place (some db)).outcome = (t.prepare place store).outcome ∧
      Alike codes (s.prepare place (some db)).session (t.prepare place store).session ∧
      ∃ db', (s.prepare place (some db)).store = some db' ∧ Faithful codes db' := by
  cases hm : s.memory with
  | some m =>
      have hm' : t.memory = some m := by rw [← hst.memory, hm]
      rw [prepare_of_memory place hm, prepare_of_memory place hm']
      exact ⟨rfl, hst, db, rfl, hdb⟩
  | none =>
      have hm' : t.memory = none := by rw [← hst.memory, hm]
      rw [prepare_alone place hm' hst.alone]
      cases hc : s.cached with
      | false =>
          rw [prepare_alone place hm hc]
          obtain ⟨houtcome, halike⟩ := hst.lower hsized place none []
          exact ⟨houtcome, halike, db, rfl, hdb⟩
      | true =>
          rcases lookup_faithful hapart hsized hst.known hdb place with
            ⟨told, hlook⟩ | ⟨layout, h, m, hl, hh, hlook⟩
          · rw [prepare_missed hm hc hlook]
            obtain ⟨houtcome, halike⟩ := hst.lower hsized place (some db) told
            exact ⟨houtcome, halike, hdb.lower hsized hst.known place told⟩
          · have hl' : Layout.ofCode (some t.code) = .ok layout := by rw [← hst.code, hl]
            have hh' : holdImage place t.code layout = .ok m := by rw [← hst.code, hh]
            have hsize := hsized _ hst.known layout hl
            obtain ⟨events, hlow⟩ := lower_of_held hl' hsize hh' none []
            rw [prepare_loaded hm hc hlook, hlow]
            exact ⟨rfl, hst.holding hl place m rfl (.inr rfl), db, rfl, hdb⟩

/-! ## Answers -/

def entered (place : Surroundings) (window : Option Window) (input : Bytes) :
    Outcome → Option Executable → Outcome × Option Execution
  | .done, some m =>
      match m.call with
      | .error f => (faultOutcome f, none)
      | .ok code => (.done, some (Execution.ofCode place code window input))
  | o, _ => (o, none)

theorem run_eq (place : Surroundings) (store : Option Store) (window : Option Window)
    (input : Bytes) (s : Session) :
    ((s.run place store window input).1.outcome, (s.run place store window input).2) =
        entered place window input (s.prepare place store).outcome
          (s.prepare place store).session.memory ∧
      (s.run place store window input).1.session = (s.prepare place store).session ∧
      (s.run place store window input).1.store = (s.prepare place store).store := by
  unfold run
  generalize s.prepare place store = p
  obtain ⟨⟨code, cached, verbose, layout, memory, figures⟩, store', events, o⟩ := p
  cases o with
  | done =>
      cases memory with
      | none => exact ⟨rfl, rfl, rfl⟩
      | some m => cases hcall : m.call <;> simp [entered, hcall]
  | failed f => exact ⟨rfl, rfl, rfl⟩
  | outOfRange => exact ⟨rfl, rfl, rfl⟩

def listed (code : Bytes) (image : Option Bytes) : Outcome → Outcome × Option String
  | .done =>
      match Listing.ofCode (some code) (image.getD []) with
      | .ok text => (.done, some text)
      | .error f => (.failed f, none)
  | o => (o, none)

theorem listing_eq (place : Surroundings) (store : Option Store) (s : Session) :
    ((s.listing place store).1.outcome, (s.listing place store).2) =
        listed s.code (s.prepare place store).session.image? (s.prepare place store).outcome ∧
      (s.listing place store).1.session = (s.prepare place store).session ∧
      (s.listing place store).1.store = (s.prepare place store).store := by
  unfold listing
  generalize s.prepare place store = p
  obtain ⟨session, store', events, o⟩ := p
  cases o with
  | done => cases hl : Listing.ofCode (some s.code) (session.image?.getD []) <;> simp [listed, hl]
  | failed f => exact ⟨rfl, rfl, rfl⟩
  | outOfRange => exact ⟨rfl, rfl, rfl⟩

/-- A layout that is kept is the one that would be computed. -/
theorem findLayout_eq {s : Session}
    (h : ∀ l, s.layout = some l → Layout.ofCode (some s.code) = .ok l) :
    s.findLayout.1 = Layout.ofCode (some s.code) ∧
      ∃ l, s.findLayout.2 = { s with layout := l } ∧
        ∀ k, l = some k → Layout.ofCode (some s.code) = .ok k := by
  unfold findLayout
  cases hs : s.layout with
  | some l => exact ⟨(h l hs).symm, s.layout, rfl, h⟩
  | none =>
      cases hl : Layout.ofCode (some s.code) with
      | ok l => exact ⟨rfl, some l, rfl, fun k hk => by cases hk; rfl⟩
      | error f => exact ⟨rfl, s.layout, rfl, by simp [hs]⟩

theorem close_eq (place : Surroundings) (s : Session) :
    (s.close place).1 = s.memory.bind (fun m => (m.release place.kernel.unmap).1) ∧
      (s.close place).2 = { s with memory := none } := by
  unfold close
  cases hm : s.memory with
  | none =>
      obtain ⟨code, cached, verbose, layout, memory, figures⟩ := s
      cases hm
      exact ⟨rfl, rfl⟩
  | some m => exact ⟨rfl, rfl⟩

/-- One request: sessions that are alike give the same answer and stay alike. -/
theorem Alike.respond {codes : List Bytes} (hapart : Apart codes) (hsized : Sized codes)
    {s t : Session} (hst : Alike codes s t) {db : Store} (hdb : Faithful codes db)
    (place : Surroundings) (other : Store) (r : Request) :
    (s.respond place db r).1 = (t.respond place other r).1 ∧
      Alike codes (s.respond place db r).2.1 (t.respond place other r).2.1 ∧
      Faithful codes (s.respond place db r).2.2 := by
  obtain ⟨houtcome, halike, db', hstore, hdb'⟩ :=
    hst.prepare hapart hsized hdb place (some other)
  have hkept (p : Progress) (hp : p.store = (s.prepare place (some db)).store) :
      Faithful codes (p.store.getD db) := by rwa [hp, hstore]
  cases r with
  | prepare => exact ⟨congrArg Answer.outcome houtcome, halike, hkept _ rfl⟩
  | run window input =>
      obtain ⟨hrun, hsession, hsame⟩ := run_eq place (some db) window input s
      obtain ⟨hrun', hsession', -⟩ := run_eq place (some other) window input t
      rw [houtcome, halike.memory, ← hrun'] at hrun
      obtain ⟨ho, he⟩ := Prod.mk.inj hrun
      rw [← hsession, ← hsession'] at halike
      exact ⟨congrArg₂ Answer.execution ho he, halike, hkept _ hsame⟩
  | listing =>
      obtain ⟨hlist, hsession, hsame⟩ := listing_eq place (some db) s
      obtain ⟨hlist', hsession', -⟩ := listing_eq place (some other) t
      have himage : (s.prepare place (some db)).session.image? =
          (t.prepare place (some other)).session.image? := by rw [image?, image?, halike.memory]
      rw [houtcome, himage, hst.code, ← hlist'] at hlist
      obtain ⟨ho, htext⟩ := Prod.mk.inj hlist
      rw [← hsession, ← hsession'] at halike
      exact ⟨congrArg₂ Answer.text ho htext, halike, hkept _ hsame⟩
  | layout =>
      obtain ⟨hfound, l, hs', hl⟩ := findLayout_eq hst.layout
      obtain ⟨hfound', l', ht', hl'⟩ := findLayout_eq hst.layout'
      rw [hst.code, ← hfound'] at hfound
      refine ⟨congrArg Answer.layout hfound, ?_, hdb⟩
      simp only [Session.respond, hs', ht']
      exact ⟨hst.known, hst.code, hst.memory, hst.figures, hl, hl', hst.alone⟩
  | image =>
      have himage : s.image? = t.image? := by rw [image?, image?, hst.memory]
      exact ⟨congrArg Answer.image himage, hst, hdb⟩
  | figures =>
      have hfigures := hst.figures
      simp only [Figures.mk.injEq, and_true] at hfigures
      refine ⟨?_, hst, hdb⟩
      simp only [Session.respond, hfigures]
  | close =>
      obtain ⟨hanswer, hs'⟩ := close_eq place s
      obtain ⟨hanswer', ht'⟩ := close_eq place t
      simp only [Session.respond, hs', ht', hanswer, hanswer', hst.memory]
      refine ⟨trivial, ?_, hdb⟩
      exact ⟨hst.known, hst.code, rfl, hst.figures, hst.layout, hst.layout', hst.alone⟩

end Session

/-! ## Many sessions -/

/-- Sessions by number, the store that they share, and where they are now. -/
structure Pool where
  sessions : Nat → Option Session
  store : Store
  place : Surroundings

namespace Pool

inductive Op where
  | create (id : Nat) (code : Bytes) (cached verbose : Bool)
  | ask (id : Nat) (r : Session.Request)
  | delete (key : Bytes)
  | prune (f : Fingerprint)
  | move (place : Surroundings)

/-- The same without the store. -/
def Op.alone : Op → Op
  | .create id code _ verbose => .create id code false verbose
  | op => op

def Op.code? : Op → Option Bytes
  | .create _ code _ _ => some code
  | _ => none

def start (place : Surroundings) : Pool := ⟨fun _ => none, .empty, place⟩

def put (p : Pool) (id : Nat) (s : Session) : Pool :=
  { p with sessions := fun k => if k = id then some s else p.sessions k }

def step (p : Pool) : Op → Session.Answer × Pool
  | .create id code cached verbose =>
      match Session.create code cached verbose with
      | .ok s => (.outcome .done, p.put id s)
      | .error f => (.outcome (.failed f), p)
  | .ask id r =>
      match p.sessions id with
      | none => (.silent, p)
      | some s =>
          let (a, s, db) := s.respond p.place p.store r
          (a, { p.put id s with store := db })
  | .delete key => (.silent, { p with store := p.store.erase key })
  | .prune f => (.silent, { p with store := (p.store.prune f).2 })
  | .move place => (.silent, { p with place := place })

def answers (p : Pool) : List Op → List Session.Answer
  | [] => []
  | op :: ops => (p.step op).1 :: (p.step op).2.answers ops

/-- Pools of sessions that are alike, the first with a faithful store. -/
structure Alike (codes : List Bytes) (p q : Pool) : Prop where
  place : p.place = q.place
  store : Session.Faithful codes p.store
  sessions : ∀ id, Option.Rel (Session.Alike codes) (p.sessions id) (q.sessions id)

theorem Alike.put {codes : List Bytes} {p q : Pool} (h : Alike codes p q) {s t : Session}
    (hst : Session.Alike codes s t) (id : Nat) : Alike codes (p.put id s) (q.put id t) where
  place := h.place
  store := h.store
  sessions k := by
    simp only [Pool.put]
    split
    next => exact .some hst
    next => exact h.sessions k

theorem Alike.step {codes : List Bytes} (hapart : Session.Apart codes)
    (hsized : Session.Sized codes) {p q : Pool} (h : Alike codes p q) {op : Op}
    (hop : ∀ code, op.code? = some code → code ∈ codes) :
    (p.step op).1 = (q.step op.alone).1 ∧ Alike codes (p.step op).2 (q.step op.alone).2 := by
  cases op with
  | create id code cached verbose =>
      simp only [Pool.step, Op.alone, Session.create]
      cases code.isEmpty with
      | true => exact ⟨rfl, h⟩
      | false =>
          have hnew : Session.Alike codes ⟨code, cached, verbose, none, none, .zero⟩
              ⟨code, false, verbose, none, none, .zero⟩ :=
            ⟨hop code rfl, rfl, rfl, rfl, fun l hl => (nomatch hl), fun l hl => (nomatch hl), rfl⟩
          exact ⟨rfl, h.put hnew id⟩
  | ask id r =>
      have hid := h.sessions id
      simp only [Pool.step, Op.alone]
      generalize p.sessions id = a at hid
      generalize q.sessions id = b at hid
      cases hid with
      | none => exact ⟨rfl, h⟩
      | some hst =>
          obtain ⟨hanswer, halike, hstore⟩ :=
            hst.respond hapart hsized h.store p.place q.store r
          rw [h.place] at hanswer halike hstore ⊢
          exact ⟨hanswer, h.place, hstore, (h.put halike id).sessions⟩
  | delete key => exact ⟨rfl, h.place, h.store.erase key, h.sessions⟩
  | prune f => exact ⟨rfl, h.place, h.store.prune f, h.sessions⟩
  | move place => exact ⟨rfl, rfl, h.store, h.sessions⟩

/-- Whatever happens, pools that are alike give the same answers. -/
theorem Alike.answers {codes : List Bytes} (hapart : Session.Apart codes)
    (hsized : Session.Sized codes) {p q : Pool} (h : Alike codes p q) {ops : List Op}
    (hops : ∀ op ∈ ops, ∀ code, op.code? = some code → code ∈ codes) :
    p.answers ops = q.answers (ops.map Op.alone) := by
  induction ops generalizing p q with
  | nil => rfl
  | cons op ops ih =>
      obtain ⟨hanswer, hnext⟩ := h.step hapart hsized (hops op (.head _))
      have hrest := ih hnext fun o ho => hops o (.tail _ ho)
      simp only [Pool.answers, List.map_cons, hanswer, hrest]

end Pool

/-- Every sequence of requests to sessions that share a store, of removals from the store and
of moves to other surroundings is answered as if no session had a store, if the programs that
occur have keys of their own and images whose lengths fit a signed 64-bit word. -/
theorem store_transparent (place : Surroundings) (ops : List Pool.Op)
    (hapart : ∀ a ∈ ops.filterMap Pool.Op.code?, ∀ b ∈ ops.filterMap Pool.Op.code?,
      keyOf Session.fingerprint a = keyOf Session.fingerprint b → a = b)
    (hsized : ∀ code ∈ ops.filterMap Pool.Op.code?, ∀ layout,
      Layout.ofCode (some code) = .ok layout → layout.nativeLen < 2 ^ 63) :
    (Pool.start place).answers ops = (Pool.start place).answers (ops.map Pool.Op.alone) := by
  have hstart : Pool.Alike (ops.filterMap Pool.Op.code?) (.start place) (.start place) :=
    ⟨rfl, .empty, fun _ => .none⟩
  refine hstart.answers hapart hsized fun op hop code hcode => ?_
  exact List.mem_filterMap.mpr ⟨op, hop, hcode⟩

namespace Pool

def sampleCode : Bytes := [.input, .output, .ret].flatMap Bytecode.Instr.encode

def moved : Surroundings :=
  ⟨⟨0x3333333333333333, 0x4444444444444444⟩, .simple 0x7f1000000000 [], 8388608⟩

/-- One session stores the image of a program; after a move another one asks for it. -/
def sampleOps : List Op :=
  [.create 0 sampleCode true false, .ask 0 .prepare, .move moved, .create 1 sampleCode true false,
    .ask 1 .prepare, .ask 1 .image, .ask 1 .figures, .ask 0 .image]

end Pool

theorem store_transparent_sample :
    (Pool.start .standard).answers Pool.sampleOps =
      [.outcome .done, .outcome .done, .silent, .outcome .done, .outcome .done,
        .image (some (Expected.image Pool.moved.helpers
          (Bytecode.Scan.ofCode Pool.sampleCode).instrs)),
        .figures 3 61 3 0,
        .image (some (Expected.image Surroundings.standard.helpers
          (Bytecode.Scan.ofCode Pool.sampleCode).instrs))] := by
  have hcode : ∀ code ∈ Pool.sampleOps.filterMap Pool.Op.code?, code = Pool.sampleCode := by decide
  have hsized : ∀ layout, Layout.ofCode (some Pool.sampleCode) = .ok layout →
      layout.nativeLen < 2 ^ 63 := by
    intro layout hl
    have hlen : (Layout.ofCode (some Pool.sampleCode)).map Layout.nativeLen = .ok 61 := rfl
    rw [hl] at hlen
    rw [show layout.nativeLen = 61 from Except.ok.inj hlen]
    decide
  rw [store_transparent .standard Pool.sampleOps
    (fun a ha b hb _ => (hcode a ha).trans (hcode b hb).symm)
    (fun code hc => by rw [hcode code hc]; exact hsized)]
  decide +kernel

end StackCode
