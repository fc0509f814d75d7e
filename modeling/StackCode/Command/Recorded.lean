import StackCode.Command.Basic
import StackCode.FileTree

/-!
# A recorded shell

A shell over a tree of files. It keeps what the command printed and told, and the stores
by the paths under which they were opened.
-/
namespace StackCode.Command

structure Record where
  tree : FileTree
  stores : List (String × Cache.Store)
  input : Bytes
  printed : String
  told : List Notice
deriving DecidableEq, Repr

namespace Record

def start (tree : FileTree) (input : Bytes) : Record := ⟨tree, [], input, "", []⟩

def writeFile (r : Record) (path : String) (contents : Bytes) :
    Except FileFailure Unit × Record :=
  match r.tree.write path contents with
  | .ok tree => (.ok (), { r with tree := tree })
  | .error f => (.error f, r)

def openStore (r : Record) (path : String) : Option Cache.Store × Record :=
  match r.tree.makeDirectory path with
  | .error _ => (none, r)
  | .ok tree => (some ((r.stores.lookup path).getD .empty), { r with tree := tree })

/-- The shell that works on a record. -/
def shell : Shell (StateM Record) where
  readFile path r := (r.tree.read path, r)
  writeFile path contents r := r.writeFile path contents
  openStore path r := r.openStore path
  saveStore path store r :=
    ((), { r with stores := (path, store) :: r.stores.filter fun p => p.1 ≠ path })
  notice n r := ((), { r with told := r.told ++ [n] })
  print text r := ((), { r with printed := r.printed ++ text })
  input r := (r.input, r)

/-- An invocation on a record. -/
def invoke (r : Record) (place : Surroundings) (argv : List String) : Result × Record :=
  Command.run shell place argv r

end Record
end StackCode.Command
