import StackCode.Cache.Store
import StackCode.Execution
import StackCode.Lowering.Image
import StackCode.Lowering.Listing

/-!
# Sessions

A session owns one program. Its image is made when it is first needed and held in
executable memory until the session is closed; a store, if the session has one, is asked
before and told after. An image from the store gets the addresses of this process's
outside routines. Whatever is wrong with a stored image, the program is lowered anew.

What a session does is told as events. Their texts name the session and, at the end, an
address.
-/
namespace StackCode

open Lowering Memory

/-- The figures of the last image that a session made or loaded. -/
structure Figures where
  sourceLen : Int64
  nativeLen : Int64
  instructions : Int64
  relocations : Int64
  cacheHit : Bool
deriving DecidableEq, Repr

namespace Figures

def zero : Figures := ⟨0, 0, 0, 0, false⟩

def ofImage (i : Image) : Figures :=
  ⟨.ofNat i.layout.sourceLen, .ofNat i.layout.nativeLen, .ofNat i.layout.instructions,
    .ofNat i.patched, false⟩

def ofEntry (e : Cache.Entry) : Figures :=
  ⟨e.sourceLen, e.nativeLen, e.instructions, e.relocations, true⟩

end Figures

/-- What a session tells. -/
inductive Event where
  | lookupFailed (f : Cache.EntryFault)
  | imageUnusable (f : Failure)
  | sized (sourceLen instructions nativeLen relocations : Nat)
  | patched (relocations : Nat) (base : UInt64)
  | loaded (nativeLen : Int64) (base : UInt64)
  | entering (base : UInt64)
  | returned
deriving DecidableEq, Repr

namespace Event

/-- The text of an event, with addresses spelled by `address`. -/
def text (address : UInt64 → String) : Event → String
  | .lookupFailed f => "cache lookup failed: " ++ f.message
  | .imageUnusable f => "cached image unusable, translating: " ++ f.text
  | .sized source instructions native relocations =>
      "sized " ++ toString source ++ " source bytes: " ++ toString instructions ++
        " instructions, " ++ toString native ++ " native bytes, " ++ toString relocations ++
        " relocations"
  | .patched n base =>
      "emitted and patched " ++ toString n ++ " relocations at " ++ address base
  | .loaded n base =>
      "loaded " ++ toString n.toInt ++ " native bytes from cache at " ++ address base
  | .entering base => "entering native code at " ++ address base
  | .returned => "native code returned"

/-- The line that a session's event makes in a log. -/
def line (id : String) (address : UInt64 → String) (e : Event) : String :=
  "[" ++ id ++ "] " ++ e.text address

end Event

structure Session where
  code : Bytes
  cached : Bool
  verbose : Bool
  layout : Option Layout
  memory : Option Executable
  figures : Figures
deriving DecidableEq, Repr

/-- What became of a session and its store, what was told, and how it ended. -/
structure Progress where
  session : Session
  store : Option Cache.Store
  events : List Event
  outcome : Outcome
deriving DecidableEq, Repr

namespace Session

def noCode : Failure := .report .nullInput (-1) "no bytecode to translate"

/-- A session for a program, which must not be empty. -/
def create (code : Bytes) (cached verbose : Bool) : Except Failure Session :=
  if code.isEmpty then .error noCode
  else .ok ⟨code, cached, verbose, none, none, .zero⟩

def fingerprint : Cache.Fingerprint := .ofBytes Catalog.fingerprint

def key (s : Session) : Bytes := Cache.keyOf fingerprint s.code

/-- The image held in memory. -/
def image? (s : Session) : Option Bytes := s.memory.map fun m => m.bytes?.getD []

def fixupOutside (pos : Int64) (size : Nat) : Failure :=
  .report .invariantViolation (-1)
    ("helper fixup at " ++ Text.markedHex pos.toInt ++ " outside " ++ toString size ++
      "-byte image")

/-- Writes the addresses of the outside routines into an image. The guard adds the width
of the field in 64-bit arithmetic, which wraps around. -/
def relink (h : Helpers) : List Cache.Fixup → Bytes → Except Outcome Bytes
  | [], bs => .ok bs
  | f :: fs, bs =>
      if f.pos < 0 ∨ (bs.length : Int) < (f.pos + 8).toInt then
        .error (.failed (fixupOutside f.pos bs.length))
      else if (bs.length : Int) < f.pos.toInt + 8 then .error .outOfRange
      else
        relink h fs (bs.overwrite f.pos.toInt.toNat
          (Bytes.ofWord64 (h.addr (Helper.ofCode f.helper.toInt))))

/-- How a fault of memory ends a session's work: with its report, or like an access outside a
buffer. -/
def faultOutcome (f : CodeFault) : Outcome :=
  match f.failure? with
  | some f => .failed f
  | none => .outOfRange

/-- Maps memory, fills it and makes it executable. `fill` says what becomes of the blank bytes,
and what else came out of making them. -/
def hold {α : Type} (place : Surroundings) (size : Int64)
    (fill : Bytes → Except Outcome (α × Bytes)) : Except Outcome (α × Executable) := do
  let m ← (Executable.map place.kernel.map size).mapError faultOutcome
  let (made, bs) ← fill (m.bytes?.getD [])
  let m ← (m.write 0 bs).mapError faultOutcome
  let m ← (m.protect place.kernel.protect).mapError faultOutcome
  return (made, m)

/-- Takes a stored image over. -/
def load (place : Surroundings) (e : Cache.Entry) (s : Session) : Except Outcome Session := do
  let ((), m) ← hold place e.nativeLen fun blank =>
    (relink place.helpers e.fixups (blank.overwrite 0 (e.image.getD []))).map ((), ·)
  return { s with memory := some m, figures := .ofEntry e }

/-- What asking the store came to. -/
inductive Lookup where
  | loaded (s : Session)
  | missed (events : List Event)
  | broken (o : Outcome)
deriving DecidableEq, Repr

/-- Asks the store for the program's image. -/
def lookup (place : Surroundings) (store : Cache.Store) (s : Session) : Lookup :=
  match store.entry s.key with
  | .error f => .missed [.lookupFailed f]
  | .ok none => .missed []
  | .ok (some e) =>
      if e.sourceLen.toInt = s.code.length then
        match s.load place e with
        | .ok s => .loaded s
        | .error (.failed f) => .missed [.imageUnusable f]
        | .error o => .broken o
      else .missed []

/-- The entry that stores an image. -/
def entryOf (i : Image) : Cache.Entry where
  fingerprint := fingerprint
  sourceLen := .ofNat i.layout.sourceLen
  nativeLen := .ofNat i.layout.nativeLen
  instructions := .ofNat i.layout.instructions
  relocations := .ofNat i.patched
  fixups := i.layout.helperFields.map fun f => ⟨.ofInt f.nativeAt, .ofInt f.helper.code⟩
  image := some i.native

/-- Lowers the program and tells the store. -/
def lower (place : Surroundings) (store : Option Cache.Store) (told : List Event)
    (s : Session) : Progress :=
  match Layout.ofCode (some s.code) with
  | .error f => ⟨s, store, told, .failed f⟩
  | .ok layout =>
      let told := told ++
        [.sized layout.sourceLen layout.instructions layout.nativeLen layout.relocations.length]
      let made := hold place (.ofNat layout.nativeLen) fun blank =>
        (Image.into blank (some s.code) layout place.helpers).map fun i => (i, i.native)
      match made with
      | .error o => ⟨s, store, told, o⟩
      | .ok (image, m) =>
          { session :=
              { s with layout := some layout, memory := some m, figures := .ofImage image }
            store := store.map fun db => db.putEntry s.key (entryOf image)
            events := told ++ [.patched image.patched m.address]
            outcome := .done }

/-- Makes sure that the session holds an image. -/
def prepare (place : Surroundings) (store : Option Cache.Store) (s : Session) : Progress :=
  if s.memory.isSome then ⟨s, store, [], .done⟩
  else if s.cached then
    match store with
    | none => s.lower place none []
    | some db =>
        match s.lookup place db with
        | .loaded s' =>
            let base := (s'.memory.map Executable.address).getD 0
            ⟨s', store, [.loaded s'.figures.nativeLen base], .done⟩
        | .missed told => s.lower place store told
        | .broken o => ⟨s, store, [], o⟩
  else
    let p := s.lower place none []
    { p with store := store }

/-- The layout of the program, computed once. -/
def findLayout (s : Session) : Except Failure Layout × Session :=
  match s.layout with
  | some l => (.ok l, s)
  | none =>
      match Layout.ofCode (some s.code) with
      | .ok l => (.ok l, { s with layout := some l })
      | .error f => (.error f, s)

/-- The native listing of the program, lowered if need be. -/
def listing (place : Surroundings) (store : Option Cache.Store) (s : Session) :
    Progress × Option String :=
  let p := s.prepare place store
  match p.outcome with
  | .done =>
      match Lowering.Listing.ofCode (some s.code) (p.session.image?.getD []) with
      | .ok text => (p, some text)
      | .error f => ({ p with outcome := .failed f }, none)
  | _ => (p, none)

/-- Runs the program, lowered if need be. -/
def run (place : Surroundings) (store : Option Cache.Store) (window : Option Window)
    (input : Bytes) (s : Session) : Progress × Option Execution :=
  let p := s.prepare place store
  match p.outcome, p.session.memory with
  | .done, some m =>
      let told := p.events ++ [.entering m.address]
      match m.call with
      | .error f => ({ p with events := told, outcome := faultOutcome f }, none)
      | .ok code =>
          let e := Execution.ofCode place code window input
          let told := told ++ (if e.exit = .returned then [.returned] else [])
          ({ p with events := told }, some e)
  | _, _ => (p, none)

/-- Gives the image's memory back; the answer is why the kernel does not take it, if so. Layout
and figures stay. -/
def close (place : Surroundings) (s : Session) : Option String × Session :=
  match s.memory with
  | none => (none, s)
  | some m => ((m.release place.kernel.unmap).1, { s with memory := none })

end Session
end StackCode
