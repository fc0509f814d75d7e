import StackCode.Bytecode.Listing
import StackCode.Session
import StackCode.Settings.Basic

/-!
# The command

One invocation: read the settings and the program, then list it, or lower it and write
files, or lower it and run it. What the command needs from around it is a record of
operations in some monad, so that the same text of the command serves a real system and
a recorded one.
-/
namespace StackCode.Command

/-- What the command tells on the way. -/
inductive Notice where
  | session (e : Event)
  | pruned (n : Nat)
  | prepared (f : Figures)
  | wrote (nativeLen : Int64) (path : String)
deriving DecidableEq, Repr

namespace Notice

def truth (b : Bool) : String := if b then "true" else "false"

/-- The line of a notice, for a session and a way to spell addresses. -/
def line (id : String) (address : UInt64 → String) : Notice → String
  | .session e => e.line id address
  | .pruned n => "Pruned " ++ toString n ++ " stale cache entries"
  | .prepared f =>
      "Translated " ++ toString f.sourceLen.toInt ++ " bytes of bytecode into " ++
        toString f.nativeLen.toInt ++ " native bytes (" ++ toString f.instructions.toInt ++
        " instructions, " ++ toString f.relocations.toInt ++ " relocations, cache hit " ++
        truth f.cacheHit ++ ")"
  | .wrote n path => "Wrote " ++ toString n.toInt ++ " native bytes to " ++ path

end Notice

/-- What a command finds around it. -/
structure Shell (m : Type → Type) where
  readFile : String → m (Except FileFailure Bytes)
  writeFile : String → Bytes → m (Except FileFailure Unit)
  /-- nothing if the directory cannot be used -/
  openStore : String → m (Option Cache.Store)
  saveStore : String → Cache.Store → m Unit
  notice : Notice → m Unit
  print : String → m Unit
  /-- all of the standard input -/
  input : m Bytes

/-- How an invocation ended. -/
inductive Result where
  | done
  | failed (f : Failure)
  /-- an access outside a buffer -/
  | outOfRange
  /-- the program ended the process -/
  | halted
deriving DecidableEq, Repr

namespace Result

def within (context : String) : Lowering.Outcome → Result
  | .done => .done
  | .failed f => .failed (.context context f)
  | .outOfRange => .outOfRange

/-- A program that got stuck has left its memory. -/
def ofExit : Exit → Result
  | .returned => .done
  | .halted => .halted
  | .stuck | .unfinished => .outOfRange

def unwritten (context : String) (f : FileFailure) : Result :=
  .failed (.context context (.plain f.text))

def unmapped (context : String) (f : Memory.MapFault) : Result :=
  match f.failure? with
  | some f => .failed (.context context f)
  | none => .outOfRange

end Result

section
variable {m : Type → Type} [Monad m]

/-- Tells the events of a session that is to be told of. -/
def tell (sh : Shell m) (p : Progress) : m Unit :=
  if p.session.verbose then p.events.forM fun e => sh.notice (.session e) else pure ()

/-- Keeps what a session has put into its store. -/
def save (sh : Shell m) (dir : String) (p : Progress) : m Unit :=
  match p.store with
  | some store => sh.saveStore dir store
  | none => pure ()

/-- Runs the program in a fresh window. -/
def execute (sh : Shell m) (place : Surroundings) (settings : Settings)
    (store : Option Cache.Store) (s : Session) : m Result :=
  match Memory.Window.map place.kernel.mapAt ⟨settings.ramBase, settings.ramSize⟩ with
  | .error f => pure (.unmapped "failed to map data window" f)
  | .ok window => do
      let input ← sh.input
      let (p, e) := s.run place store (some window) input
      tell sh p
      match e with
      | none => return .within "execution failed" p.outcome
      | some e =>
          sh.print e.output
          return .ofExit e.exit

/-- Writes the image, or runs it if no file for it is named. -/
def deliver (sh : Shell m) (place : Surroundings) (settings : Settings)
    (store : Option Cache.Store) (s : Session) : m Result :=
  if settings.output = "" then execute sh place settings store s
  else do
    match ← sh.writeFile settings.output (s.image?.getD []) with
    | .error f => return .unwritten "failed to write native image" f
    | .ok () =>
        sh.notice (.wrote s.figures.nativeLen settings.output)
        return .done

/-- Writes the native listing if a file for it is named, and goes on. -/
def list (sh : Shell m) (place : Surroundings) (settings : Settings)
    (store : Option Cache.Store) (s : Session) : m Result :=
  if settings.listing = "" then deliver sh place settings store s
  else do
    let (p, text) := s.listing place store
    tell sh p
    match text with
    | none => return .within "failed to disassemble native code" p.outcome
    | some text =>
        match ← sh.writeFile settings.listing (Text.toUtf8 text) with
        | .error f => return .unwritten "failed to write listing" f
        | .ok () => deliver sh place settings p.store p.session

/-- Lowers the program and goes on. -/
def lower (sh : Shell m) (place : Surroundings) (settings : Settings)
    (store : Option Cache.Store) (code : Bytes) : m Result :=
  match Session.create code store.isSome settings.verbose with
  | .error f => pure (.failed (.context "failed to create session" f))
  | .ok s => do
      let p := s.prepare place store
      tell sh p
      save sh settings.cacheDir p
      match p.outcome with
      | .done =>
          if settings.verbose then sh.notice (.prepared p.session.figures)
          list sh place settings p.store p.session
      | o => return .within "translation failed" o

/-- Opens the store if a directory for it is named, and goes on. -/
def withStore (sh : Shell m) (place : Surroundings) (settings : Settings) (code : Bytes) :
    m Result :=
  if settings.cacheDir = "" then lower sh place settings none code
  else do
    match ← sh.openStore settings.cacheDir with
    | none => return .failed (.plain "failed to open translation cache")
    | some store =>
        if settings.cachePrune then
          let (n, store) := store.prune Session.fingerprint
          sh.saveStore settings.cacheDir store
          sh.notice (.pruned n)
          lower sh place settings (some store) code
        else lower sh place settings (some store) code

/-- Does what the settings ask for with the program in a file. -/
def perform (sh : Shell m) (place : Surroundings) (settings : Settings) (path : String) :
    m Result := do
  match ← sh.readFile path with
  | .error f => return .unwritten "failed to read bytecode" f
  | .ok code =>
      if settings.list then
        match Bytecode.Listing.ofCode code with
        | .error f => return .failed (.context "failed to list bytecode" f)
        | .ok text =>
            sh.print text
            return .done
      else withStore sh place settings code

/-- One invocation. -/
def run (sh : Shell m) (place : Surroundings) (argv : List String) : m Result := do
  let parsed ← Settings.ofArguments sh.readFile argv
  match parsed.fault with
  | some f => return .failed f.failure
  | none => perform sh place parsed.settings parsed.path

end
end StackCode.Command
