import StackCode.Bytes

/-!
# Data items

Stored values are written as data items: a head with a kind and a number, then the
contents. Writing uses the shortest head and definite lengths. Reading takes any
well-formed item: longer heads, indefinite lengths, tags and simple values included.
Nesting and the number of elements are limited.
-/
namespace StackCode.Cache

/-- A data item. A map lists its keys and values in turn; a text keeps its chunks. -/
inductive Item where
  | unsigned (n : Nat)
  /-- stands for `-1 - n` -/
  | negative (n : Nat)
  | bytes (bs : Bytes)
  | text (chunks : List Bytes)
  | array (items : List Item)
  | map (items : List Item)
  | tag (n : Nat) (item : Item)
  | simple (n : Nat)
  | float
deriving Repr

namespace Cbor

/-- The `w` low bytes of `n`, most significant first. -/
def bigEndian (w n : Nat) : Bytes := (Bytes.ofNat w n).reverse

/-- The shortest head of a kind. -/
def head (kind n : Nat) : Bytes :=
  let first (info : Nat) : UInt8 := UInt8.ofNat (32 * kind + info)
  if n < 24 then [first n]
  else if n < 0x100 then first 24 :: bigEndian 1 n
  else if n < 0x10000 then first 25 :: bigEndian 2 n
  else if n < 0x100000000 then first 26 :: bigEndian 4 n
  else first 27 :: bigEndian 8 n

def ofInt (n : Int64) : Bytes :=
  if 0 ≤ n then head 0 n.toInt.toNat else head 1 (-1 - n.toInt).toNat

def ofBytes (bs : Bytes) : Bytes := head 2 bs.length ++ bs

def ofArray (items : List Bytes) : Bytes := head 4 items.length ++ items.flatten

/-- A map with small natural keys. -/
def ofFields (fields : List (Nat × Bytes)) : Bytes :=
  head 5 fields.length ++ fields.flatMap fun (k, v) => head 0 k ++ v

def null : Bytes := [0xf6]

/-- The byte that ends contents of indefinite length. -/
def stopByte : UInt8 := 0xff

def maxNesting : Nat := 32

def maxElements : Nat := 131072

/-- What a head says: its kind, the short number in its first byte, and the number that
it stands for. -/
structure Head where
  kind : Nat
  info : Nat
  value : Nat
deriving DecidableEq, Repr

def Head.indefinite (h : Head) : Bool := h.info == 31

/-- How many bytes of number follow a first byte. -/
def extraBytes (info : Nat) : Option Nat :=
  if info < 24 ∨ info = 31 then some 0
  else if info < 28 then some (Nat.pow 2 (info - 24))
  else none

def readHead : Bytes → Option (Head × Bytes)
  | [] => none
  | b :: bs =>
      let kind := b.toNat / 32
      let info := b.toNat % 32
      match extraBytes info with
      | none => none
      | some 0 =>
          if info = 31 ∧ (kind < 2 ∨ 6 ≤ kind) then none else some (⟨kind, info, info⟩, bs)
      | some w =>
          match Bytes.take? w bs with
          | none => none
          | some digits =>
              let value := Bytes.toNat digits.reverse
              if kind = 7 ∧ info = 24 ∧ value < 32 then none
              else some (⟨kind, info, value⟩, bs.drop w)

/-- The chunks of a string of indefinite length. Chunks are strings of the same kind and
of definite length. -/
def readChunks (kind : Nat) : Nat → Bytes → Option (List Bytes × Bytes)
  | 0, _ => none
  | _ + 1, [] => none
  | fuel + 1, b :: bs =>
      if b = stopByte then some ([], bs)
      else
        match readHead (b :: bs) with
        | none => none
        | some (h, rest) =>
            if h.kind ≠ kind ∨ h.indefinite then none
            else
              match Bytes.take? h.value rest with
              | none => none
              | some chunk =>
                  (readChunks kind fuel (rest.drop h.value)).map fun (chunks, rest) =>
                    (chunk :: chunks, rest)

/-- The chunks of a string whose head was read. -/
def readString (h : Head) (fuel : Nat) (bs : Bytes) : Option (List Bytes × Bytes) :=
  if h.indefinite then readChunks h.kind fuel bs
  else if bs.length < h.value then none
  else some ([bs.take h.value], bs.drop h.value)

/-- The kind of the next item. -/
def nextKind? : Bytes → Option Nat
  | [] => none
  | b :: _ => some (b.toNat / 32)

/-- An item without contents of its own. -/
def leaf (h : Head) : Item :=
  if h.kind = 0 then .unsigned h.value
  else if h.kind = 1 then .negative h.value
  else if h.info < 25 then .simple h.value
  else .float

mutual

/-- Reads one item at a nesting depth. -/
def readItem : Nat → Nat → Bytes → Option (Item × Bytes)
  | 0, _, _ => none
  | fuel + 1, depth, bs =>
      match readHead bs with
      | none => none
      | some (h, rest) =>
          if h.kind = 2 then
            (readString h fuel rest).map fun (cs, rest) => (.bytes cs.flatten, rest)
          else if h.kind = 3 then
            (readString h fuel rest).map fun (cs, rest) => (.text cs, rest)
          else if h.kind = 4 then
            (readContents fuel (depth + 1) h 1 rest).map fun (is, rest) => (.array is, rest)
          else if h.kind = 5 then
            (readContents fuel (depth + 1) h 2 rest).map fun (is, rest) => (.map is, rest)
          else if h.kind = 6 then
            -- only a tag directly inside a tag counts as nesting
            let depth := if nextKind? rest = some 6 then depth + 1 else depth
            if maxNesting < depth then none
            else (readItem fuel depth rest).map fun (i, rest) => (.tag h.value i, rest)
          else some (leaf h, rest)
termination_by structural fuel => fuel

/-- The contents of an array or a map, `width` items to an element. -/
def readContents : Nat → Nat → Head → Nat → Bytes → Option (List Item × Bytes)
  | 0, _, _, _, _ => none
  | fuel + 1, depth, h, width, bs =>
      if maxNesting < depth then none
      else if h.indefinite then
        match readOpen fuel depth bs with
        | none => none
        | some (is, rest) =>
            if is.length % width = 0 ∧ is.length / width ≤ maxElements then some (is, rest)
            else none
      else if maxElements < h.value then none
      else readMany fuel depth (width * h.value) bs
termination_by structural fuel => fuel

/-- Reads a given number of items. -/
def readMany : Nat → Nat → Nat → Bytes → Option (List Item × Bytes)
  | 0, _, n, bs => if n = 0 then some ([], bs) else none
  | _ + 1, _, 0, bs => some ([], bs)
  | fuel + 1, depth, n + 1, bs =>
      match readItem fuel depth bs with
      | none => none
      | some (i, rest) =>
          (readMany fuel depth n rest).map fun (is, rest) => (i :: is, rest)
termination_by structural fuel => fuel

/-- Reads items up to the byte that ends them. -/
def readOpen : Nat → Nat → Bytes → Option (List Item × Bytes)
  | 0, _, _ => none
  | _ + 1, _, [] => none
  | fuel + 1, depth, b :: bs =>
      if b = stopByte then some ([], bs)
      else
        match readItem fuel depth (b :: bs) with
        | none => none
        | some (i, rest) =>
            (readOpen fuel depth rest).map fun (is, rest) => (i :: is, rest)
termination_by structural fuel => fuel

end

/-- The item that makes up a whole value. Every step of reading takes a byte or enters
the contents of an item, so the fuel is enough. -/
def read (bs : Bytes) : Option Item :=
  match readItem (4 * bs.length + 4) 0 bs with
  | some (i, []) => some i
  | _ => none

end Cbor
end StackCode.Cache
