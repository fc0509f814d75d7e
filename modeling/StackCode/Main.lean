import StackCode.Command.Basic

/-!
# The command line

The command in a real shell: files and directories of the system, standard input and
output, notices on standard error. A store is kept in one file of its directory.
-/
namespace StackCode.Command

/-- What an error of the system says about a path. -/
def faultOf : IO.Error → FileFault
  | .noFileOrDirectory _ _ _ => .notFound
  | .inappropriateType _ _ details =>
      if details = "Not a directory" then .notDirectory else .isDirectory
  | .invalidArgument _ _ _ => .invalid
  | e => .other (toString e)

def readSystemFile (path : String) : IO (Except FileFailure Bytes) := do
  try
    let contents ← IO.FS.readBinFile path
    return .ok contents.toList
  catch e =>
    let fault := faultOf e
    return .error ⟨if fault = .isDirectory then "read" else "open", path, fault⟩

def writeSystemFile (path : String) (contents : Bytes) : IO (Except FileFailure Unit) := do
  try
    IO.FS.writeBinFile path ⟨contents.toArray⟩
    return .ok ()
  catch e => return .error ⟨"open", path, faultOf e⟩

/-- The file in which the store of a directory is kept. -/
def storeFile (dir : String) : String := dir ++ "/images"

def openSystemStore (dir : String) : IO (Option Cache.Store) := do
  try
    IO.FS.createDirAll dir
    match ← readSystemFile (storeFile dir) with
    | .ok contents => return Cache.Store.decode contents
    | .error f => return if f.fault = .notFound then some .empty else none
  catch _ => return none

/-- All that is left of a stream. -/
partial def drain (stream : IO.FS.Stream) (taken : ByteArray) : IO ByteArray := do
  let chunk ← stream.read 65536
  if chunk.isEmpty then return taken else drain stream (taken ++ chunk)

/-- A name for the session, new at every invocation. -/
def freshName : IO String := do
  let group (n : Nat) : IO String := return Text.hex n (← IO.rand 0 (Nat.pow 16 n - 1))
  return (← group 8) ++ "-" ++ (← group 4) ++ "-4" ++ (← group 3) ++ "-a" ++ (← group 3) ++
    "-" ++ (← group 12)

def systemShell (name : String) : Shell IO where
  readFile := readSystemFile
  writeFile := writeSystemFile
  openStore := openSystemStore
  saveStore dir store := do discard <| writeSystemFile (storeFile dir) store.encode
  notice n := IO.eprintln (n.line name fun a => Text.markedHex a.toNat)
  print := IO.print
  input := do return (← drain (← IO.getStdin) .empty).toList

end StackCode.Command

def main (argv : List String) : IO UInt32 := do
  let shell := StackCode.Command.systemShell (← StackCode.Command.freshName)
  match ← StackCode.Command.run shell .standard argv with
  | .done | .halted => return 0
  | .failed f =>
      IO.eprintln ("Error: " ++ f.text)
      return 1
  | .outOfRange =>
      IO.eprintln "Error: access out of range"
      return 2
