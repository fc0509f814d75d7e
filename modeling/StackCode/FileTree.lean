import StackCode.Bytes
import StackCode.FileFault

/-!
# A tree of files

Files and directories by the names on the way to them from the root, and a working
directory from which relative paths start. A path is followed name by name: every name
but the last must lead to a directory.
-/
namespace StackCode

/-- The names on the way from the root. -/
abbrev Place := List String

inductive FileNode where
  | file (contents : Bytes)
  | directory
deriving DecidableEq, Repr

structure FileTree where
  here : Place
  nodes : List (Place × FileNode)
deriving DecidableEq, Repr

namespace FileTree

def maxName : Nat := 255

def maxPath : Nat := 4095

/-- The names in a path. A path that starts with a slash has an empty first name. -/
def names (path : String) : List String := path.splitOn "/"

/-- The places on the way to a place. -/
def ancestors (p : Place) : List Place := (List.range p.length).map p.take

/-- A working directory with some files in it. -/
def ofFiles (here : Place) (files : List (String × Bytes)) : FileTree :=
  let placed := files.map fun (name, contents) => (here ++ names name, contents)
  let directories := here :: ancestors here ++ placed.flatMap fun f => ancestors f.1
  ⟨here, placed.map (fun f => (f.1, .file f.2)) ++ directories.map fun p => (p, .directory)⟩

def node? (t : FileTree) (p : Place) : Option FileNode :=
  if p = [] then some .directory else t.nodes.lookup p

def put (t : FileTree) (p : Place) (n : FileNode) : FileTree :=
  { t with nodes := (p, n) :: t.nodes.filter fun q => q.1 ≠ p }

/-- Where a path starts. -/
def origin (t : FileTree) (path : String) : Place :=
  if path.startsWith "/" then [] else t.here

/-- What is wrong with a path by its spelling. -/
def misspelled? (path : String) : Option FileFault :=
  if path.contains '\x00' then some .invalid
  else if path.isEmpty then some .notFound
  else if maxPath < path.utf8ByteSize then some .nameTooLong
  else none

/-- One name further. -/
def next (t : FileTree) (p : Place) (name : String) : Except FileFault Place :=
  match t.node? p with
  | none => .error .notFound
  | some (.file _) => .error .notDirectory
  | some .directory =>
      if name = "" ∨ name = "." then .ok p
      else if name = ".." then .ok p.dropLast
      else if maxName < name.utf8ByteSize then .error .nameTooLong
      else .ok (p ++ [name])

def follow (t : FileTree) : Place → List String → Except FileFault Place
  | p, [] => .ok p
  | p, name :: rest =>
      match t.next p name with
      | .error f => .error f
      | .ok p => t.follow p rest

/-- The place that a path leads to. -/
def locate (t : FileTree) (path : String) : Except FileFault Place :=
  match misspelled? path with
  | some f => .error f
  | none => t.follow (t.origin path) (names path)

def read (t : FileTree) (path : String) : Except FileFailure Bytes :=
  match t.locate path with
  | .error f => .error ⟨"open", path, f⟩
  | .ok p =>
      match t.node? p with
      | none => .error ⟨"open", path, .notFound⟩
      | some .directory => .error ⟨"read", path, .isDirectory⟩
      | some (.file contents) => .ok contents

/-- Where a file can be written. A path that ends in a slash names a directory. -/
def target (t : FileTree) (path : String) : Except FileFault Place :=
  match misspelled? path with
  | some f => .error f
  | none =>
      match (names path).reverse.dropWhile (· = "") with
      | [] => .error .isDirectory
      | last :: before =>
          match (t.follow (t.origin path) before.reverse).bind fun p => t.next p last with
          | .error f => .error f
          | .ok p =>
              if path.endsWith "/" ∨ t.node? p = some .directory then .error .isDirectory
              else .ok p

/-- Replaces or creates a file. -/
def write (t : FileTree) (path : String) (contents : Bytes) : Except FileFailure FileTree :=
  match t.target path with
  | .error f => .error ⟨"open", path, f⟩
  | .ok p => .ok (t.put p (.file contents))

/-- Creates the directories on the way. -/
def makeAll (t : FileTree) : Place → List String → Except FileFault FileTree
  | p, [] =>
      match t.node? p with
      | some (.file _) => .error .notDirectory
      | _ => .ok t
  | p, name :: rest =>
      match t.next p name with
      | .error f => .error f
      | .ok p =>
          match t.node? p with
          | none => (t.put p .directory).makeAll p rest
          | some _ => t.makeAll p rest

/-- Makes sure that a directory is there. -/
def makeDirectory (t : FileTree) (path : String) : Except FileFault FileTree :=
  match misspelled? path with
  | some f => .error f
  | none => t.makeAll (t.origin path) (names path)

/-- The files directly in the working directory. -/
def filesHere (t : FileTree) : List (String × Bytes) :=
  t.nodes.filterMap fun (p, n) =>
    match n, p.getLast? with
    | .file contents, some name => if p.dropLast = t.here then some (name, contents) else none
    | _, _ => none

end FileTree
end StackCode
