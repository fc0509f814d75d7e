import StackCode.Blake2b
import StackCode.Cache.Entry
import StackCode.Failure

/-!
# The store of images

A store maps byte strings to byte strings and keeps its keys in ascending order, so that no
key is there twice. Images live under keys with a common beginning, followed by a digest of the
fingerprint and the code. Other keys may be present and are left alone. Pruning removes the images
of other fingerprints and whatever under that beginning cannot be read.
-/
namespace StackCode.Cache

/-- The least byte string above all that begin with `p`, if there is one. -/
def prefixEnd : Bytes → Option Bytes
  | [] => none
  | b :: bs =>
      match prefixEnd bs with
      | some e => some (b :: e)
      | none => if b = 0xff then none else some [b + 1]

/-- The beginning of the keys of images. -/
def keySpace : Bytes := "native/".toList.map fun c => UInt8.ofNat c.toNat

/-- The key of the image that a fingerprint's code makes of a program. -/
def keyOf (f : Fingerprint) (code : Bytes) : Bytes :=
  keySpace ++ Blake2b.digest (f.toList ++ code)

/-- Key and value pairs in ascending order of keys. -/
structure Store where
  pairs : List (Bytes × Bytes)
  ascending : pairs.Pairwise fun p q => p.1 < q.1
deriving DecidableEq, Repr

/-- Why an entry under a key cannot be used. -/
inductive EntryFault where
  | unreadable
  | wrongLength (actual : Nat) (stated : Int64)
deriving DecidableEq, Repr

namespace EntryFault

def message : EntryFault → String
  | .unreadable => "codecache: unmarshal entry"
  | .wrongLength actual stated =>
      "codecache: entry image is " ++ toString actual ++ " bytes, header says " ++
        toString stated.toInt

def failure (f : EntryFault) : Failure := .plain f.message

end EntryFault

namespace Store

def empty : Store := ⟨[], .nil⟩

/-- Puts a pair where it belongs. -/
def insert (key value : Bytes) : List (Bytes × Bytes) → List (Bytes × Bytes)
  | [] => [(key, value)]
  | (k, v) :: rest =>
      if key < k then (key, value) :: (k, v) :: rest
      else if key = k then (key, value) :: rest
      else (k, v) :: insert key value rest

theorem mem_insert {key value : Bytes} {pairs : List (Bytes × Bytes)} {p : Bytes × Bytes}
    (h : p ∈ insert key value pairs) : p = (key, value) ∨ p ∈ pairs := by
  induction pairs with
  | nil => exact .inl (List.mem_singleton.mp h)
  | cons q rest ih =>
      unfold insert at h
      split at h
      next => exact List.mem_cons.mp h
      next =>
        split at h
        next => exact (List.mem_cons.mp h).imp_right (.tail _)
        next =>
          rcases List.mem_cons.mp h with rfl | h
          · exact .inr (.head _)
          · exact (ih h).imp_right (.tail _)

theorem insert_ascending (key value : Bytes) {pairs : List (Bytes × Bytes)}
    (h : pairs.Pairwise fun p q => p.1 < q.1) :
    (insert key value pairs).Pairwise fun p q => p.1 < q.1 := by
  induction pairs with
  | nil => exact List.pairwise_singleton ..
  | cons p rest ih =>
      obtain ⟨hfirst, hrest⟩ := List.pairwise_cons.mp h
      unfold insert
      split
      next hlt =>
        refine .cons (fun q hq => ?_) h
        rcases List.mem_cons.mp hq with rfl | hq
        · exact hlt
        · exact List.lt_trans hlt (hfirst q hq)
      next hnlt =>
        split
        next heq => exact .cons (fun q hq => heq ▸ hfirst q hq) hrest
        next hne =>
          refine .cons (fun q hq => ?_) (ih hrest)
          rcases mem_insert hq with rfl | hq
          · exact Std.lt_of_le_of_ne (List.not_lt.mp hnlt) (Ne.symm hne)
          · exact hfirst q hq

def set (s : Store) (key value : Bytes) : Store :=
  ⟨insert key value s.pairs, insert_ascending key value s.ascending⟩

def get? (s : Store) (key : Bytes) : Option Bytes := s.pairs.lookup key

def erase (s : Store) (key : Bytes) : Store :=
  ⟨s.pairs.filter fun p => p.1 ≠ key, s.ascending.filter _⟩

def keys (s : Store) : List Bytes := s.pairs.map Prod.fst

/-- The entry under a key; none if there is nothing. -/
def entry (s : Store) (key : Bytes) : Except EntryFault (Option Entry) :=
  match s.get? key with
  | none => .ok none
  | some value =>
      match Entry.decode value with
      | none => .error .unreadable
      | some e =>
          let length := (e.image.getD []).length
          if (length : Int) = e.nativeLen.toInt then .ok (some e)
          else .error (.wrongLength length e.nativeLen)

def putEntry (s : Store) (key : Bytes) (e : Entry) : Store := s.set key e.encode

/-- Whether a key lies between two bounds. Without an upper bound there is no end. -/
def inRange (lo : Bytes) (hi : Option Bytes) (key : Bytes) : Bool :=
  !decide (key < lo) && hi.all fun h => decide (key < h)

/-- Whether a value is an entry of the fingerprint. -/
def isCurrent (f : Fingerprint) (value : Bytes) : Bool :=
  (Entry.decode value).any fun e => e.fingerprint == f

/-- Whether pruning removes a pair. -/
def isStale (f : Fingerprint) (p : Bytes × Bytes) : Bool :=
  inRange keySpace (prefixEnd keySpace) p.1 && !isCurrent f p.2

/-- The whole store as one value, keys and values in turn. -/
def encode (s : Store) : Bytes :=
  Cbor.ofArray (s.pairs.flatMap fun (k, v) => [Cbor.ofBytes k, Cbor.ofBytes v])

/-- Takes up pairs of byte strings. -/
def fill? (s : Store) : List Item → Option Store
  | [] => some s
  | .bytes k :: .bytes v :: rest => (s.set k v).fill? rest
  | _ => none

/-- Reads a value that holds a whole store. -/
def decode (bs : Bytes) : Option Store :=
  match Cbor.read bs with
  | some (.array items) => empty.fill? items
  | _ => none

/-- The keys of stale images, in the order of the store. -/
def staleKeys (s : Store) (f : Fingerprint) : List Bytes :=
  (s.pairs.filter (isStale f)).map Prod.fst

/-- Removes stale images; gives their number. All of them are found before the first one is
removed. -/
def prune (s : Store) (f : Fingerprint) : Nat × Store :=
  let stale := s.staleKeys f
  (stale.length, stale.foldl erase s)

end Store
end StackCode.Cache
