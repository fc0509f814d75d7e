import StackCode.Cache.Cbor
import StackCode.Text.Utf8

/-!
# Stored images

An entry holds a finished image with the figures of its making and the places where
addresses of outside routines stand in it. It is written as a map with the keys one to
seven. Reading is forgiving: keys may come in any order, may be numbers or their digits as
texts, may be missing, unknown or repeated, in which case the first one counts, and null
stands for a field that was not set. A field of the wrong kind spoils the whole entry.
-/
namespace StackCode.Cache

/-- Names the code that an image was made by. -/
abbrev Fingerprint := Vector UInt8 32

namespace Fingerprint

/-- Pads with zeros, or cuts. -/
def ofBytes (bs : Bytes) : Fingerprint := Vector.ofFn fun i => bs.getD i 0

def zero : Fingerprint := Vector.replicate 32 0

end Fingerprint

/-- A field with the address of an outside routine. -/
structure Fixup where
  pos : Int64
  helper : Int64
deriving DecidableEq, Repr

structure Entry where
  fingerprint : Fingerprint
  sourceLen : Int64
  nativeLen : Int64
  instructions : Int64
  relocations : Int64
  fixups : List Fixup
  image : Option Bytes
deriving DecidableEq, Repr

namespace Fixup

def zero : Fixup := ⟨0, 0⟩

def encode (f : Fixup) : Bytes := Cbor.ofFields [(1, Cbor.ofInt f.pos), (2, Cbor.ofInt f.helper)]

end Fixup

namespace Entry

def zero : Entry := ⟨.zero, 0, 0, 0, 0, [], none⟩

/-- The written form. An empty list of fixups is left out. -/
def encode (e : Entry) : Bytes :=
  Cbor.ofFields <|
    [(1, Cbor.ofBytes e.fingerprint.toList), (2, Cbor.ofInt e.sourceLen),
      (3, Cbor.ofInt e.nativeLen), (4, Cbor.ofInt e.instructions),
      (5, Cbor.ofInt e.relocations)] ++
    (if e.fixups.isEmpty then [] else [(6, Cbor.ofArray (e.fixups.map Fixup.encode))]) ++
    [(7, match e.image with
      | some image => Cbor.ofBytes image
      | none => Cbor.null)]

end Entry

namespace Item

/-- Null and undefined. -/
def isNull (n : Nat) : Bool := n == 22 || n == 23

def isTruth (n : Nat) : Bool := n == 20 || n == 21

/-- Tags with a meaning of their own need contents of the right kind: times are texts or
numbers, large integers are byte strings. -/
def fitsTag (n : Nat) : Item → Bool
  | .text _ => n != 1 && n != 2 && n != 3
  | .unsigned _ | .negative _ | .float => n != 0 && n != 2 && n != 3
  | .bytes _ => n != 0 && n != 1
  | _ => 3 < n

def isBignum (n : Nat) : Bool := n == 2 || n == 3

/-- The integer that a bignum's bytes spell. -/
def bignum (n : Nat) (bs : Bytes) : Int :=
  let v : Int := Bytes.toNat bs.reverse
  if n = 2 then v else -1 - v

/-- What a field holds: nothing readable, null, or a value. -/
abbrev Field (α : Type) := Option (Option α)

def within (lo hi n : Int) : Field Int := if lo ≤ n ∧ n ≤ hi then some (some n) else none

/-- An integer in a range. Simple values count as integers. -/
def int? (lo hi : Int) : Item → Field Int
  | .unsigned n => within lo hi n
  | .negative n => within lo hi (-1 - n)
  | .simple n =>
      if isNull n then some none else if isTruth n then none else within lo hi n
  | .tag n i =>
      if !fitsTag n i then none
      else
        match i with
        | .bytes bs => if isBignum n then within lo hi (bignum n bs) else none
        | i => int? lo hi i
  | _ => none

def int64? (i : Item) : Field Int64 :=
  (int? (-0x8000000000000000) 0x7fffffffffffffff i).map fun v => v.map Int64.ofInt

/-- A byte in an array; null is zero. -/
def byte? (i : Item) : Option UInt8 :=
  (int? 0 255 i).map fun v => UInt8.ofNat (v.getD 0).toNat

/-- A byte string, or an array of bytes of which at most `limit` are looked at. -/
def bytes? (limit : Nat) : Item → Field Bytes
  | .bytes bs => some (some bs)
  | .array is => ((is.take limit).mapM byte?).map some
  | .simple n => if isNull n then some none else none
  | .tag n i => if fitsTag n i then bytes? limit i else none
  | _ => none

/-- The value behind the tags. A large integer is no record and no list. -/
def untagged? : Item → Option Item
  | .tag n i => if fitsTag n i && !isBignum n then untagged? i else none
  | i => some i

/-- The number of the field that a text names: its one digit. -/
def named? : Bytes → Option Int64
  | [d] => if 0x30 ≤ d ∧ d ≤ 0x39 then some (Int64.ofNat (d.toNat - 0x30)) else none
  | _ => none

/-- The number that a key stands for; most texts stand for none. Natural keys wrap around,
negative ones must fit a signed 64-bit word. -/
def key? : Item → Field Int64
  | .unsigned n => some (some (Int64.ofInt n))
  | .negative n =>
      if n < 0x8000000000000000 then some (some (Int64.ofInt (-1 - n))) else none
  | .text chunks =>
      if chunks.all Text.isUtf8 then some (named? chunks.flatten) else none
  | _ => none

/-- The values of a map under keys that stand for numbers, in order. -/
def fields? : List Item → Option (List (Int64 × Item))
  | k :: v :: rest =>
      match key? k with
      | none => none
      | some name =>
          (fields? rest).map fun fs =>
            match name with
            | some n => (n, v) :: fs
            | none => fs
  | _ => some []

/-- A field by its key, with a value for one that is missing or null. -/
def field? {α : Type} (read : Item → Field α) (absent : α) (fs : List (Int64 × Item))
    (k : Int64) : Option α :=
  match fs.lookup k with
  | none => some absent
  | some i => (read i).map fun v => v.getD absent

/-- A record: a map, or null for one with nothing set. -/
def record? (i : Item) : Option (List (Int64 × Item)) :=
  match untagged? i with
  | some (.map is) => fields? is
  | some (.simple n) => if isNull n then some [] else none
  | _ => none

def fixup? (i : Item) : Option Fixup := do
  let fs ← record? i
  let pos ← field? int64? 0 fs 1
  let helper ← field? int64? 0 fs 2
  return ⟨pos, helper⟩

def fixups? (i : Item) : Field (List Fixup) :=
  match untagged? i with
  | some (.array is) => (is.mapM fixup?).map some
  | some (.simple n) => if isNull n then some none else none
  | _ => none

/-- An image; null stands for none. All elements of an array are looked at. -/
def image? (i : Item) : Field (Option Bytes) := (bytes? Cbor.maxElements i).map some

def entry? (i : Item) : Option Entry := do
  let fs ← record? i
  let fingerprint ← field? (bytes? 32) [] fs 1
  let sourceLen ← field? int64? 0 fs 2
  let nativeLen ← field? int64? 0 fs 3
  let instructions ← field? int64? 0 fs 4
  let relocations ← field? int64? 0 fs 5
  let fixups ← field? fixups? [] fs 6
  let image ← field? image? none fs 7
  return ⟨.ofBytes fingerprint, sourceLen, nativeLen, instructions, relocations, fixups, image⟩

end Item

namespace Entry

/-- Reads a stored value. -/
def decode (bs : Bytes) : Option Entry := (Cbor.read bs).bind Item.entry?

end Entry
end StackCode.Cache
