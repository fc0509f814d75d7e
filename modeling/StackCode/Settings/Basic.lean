import StackCode.Failure
import StackCode.Memory.Window
import StackCode.FileFault
import StackCode.Settings.Flags
import StackCode.Settings.Json
import StackCode.Text.Utf8

/-!
# Settings

Settings come from three places: flags, a file that a flag names, and defaults. A flag
wins over the file even if it is given an empty or false value. The file is a JSON object
whose member names are matched without regard to case; null leaves a setting alone, other
members are ignored, and of repeated members the last one counts. One plain argument
remains, the path of the program. Where anything is wrong, blank settings and an empty path
come with the fault.
-/
namespace StackCode

structure Settings where
  cacheDir : String
  cachePrune : Bool
  ramBase : UInt64
  ramSize : Int64
  listing : String
  output : String
  verbose : Bool
  list : Bool
deriving DecidableEq, Repr

namespace Settings

def standard : Settings where
  cacheDir := ""
  cachePrune := false
  ramBase := Memory.Placement.standard.base
  ramSize := Memory.Placement.standard.size
  listing := ""
  output := ""
  verbose := false
  list := false

/-- Settings with nothing in them. -/
def blank : Settings where
  cacheDir := ""
  cachePrune := false
  ramBase := 0
  ramSize := 0
  listing := ""
  output := ""
  verbose := false
  list := false

/-- The settings with one flag's value put in. -/
def assigned (s : Settings) : Assignment → Settings
  | .configPath _ => s
  | .cacheDir v => { s with cacheDir := v }
  | .cachePrune v => { s with cachePrune := v }
  | .list v => { s with list := v }
  | .listing v => { s with listing := v }
  | .output v => { s with output := v }
  | .ramBase v => { s with ramBase := v }
  | .ramSize v => { s with ramSize := v }
  | .verbose v => { s with verbose := v }

/-- Letters without regard to case. Two letters outside ASCII are variants of ones
inside. -/
def fold (c : Char) : Char :=
  if c.toNat = 0x17f then 's' else if c.toNat = 0x212a then 'k' else c.toLower

def folded (s : String) : List Char := s.toList.map fold

/-- The digits of a decimal integer as a file may give it, with the sign. -/
def decimal? (text : String) : Option (Bool × Nat) :=
  let read (cs : List Char) : Option Nat :=
    if cs.all Json.isDigit then some (cs.foldl (fun n c => 10 * n + (c.toNat - 48)) 0) else none
  match text.toList with
  | '-' :: cs => (read cs).map fun n => (true, n)
  | cs => (read cs).map fun n => (false, n)

/-- A text, or null for `old`. -/
def text? (old : String) : Json → Option String
  | .null => some old
  | .string s => some s
  | _ => none

/-- A truth value, or null for `old`. -/
def bool? (old : Bool) : Json → Option Bool
  | .null => some old
  | .bool b => some b
  | _ => none

/-- An unsigned integer, or null for `old`. -/
def word? (old : UInt64) : Json → Option UInt64
  | .null => some old
  | .number t =>
      (decimal? t).bind fun (neg, n) =>
        if neg ∨ Integer.wordLimit ≤ n then none else some (UInt64.ofNat n)
  | _ => none

/-- A signed integer, or null for `old`. -/
def int? (old : Int64) : Json → Option Int64
  | .null => some old
  | .number t =>
      (decimal? t).bind fun (neg, n) =>
        if neg then if Integer.signedLimit < n then none else some (Int64.ofInt (-n))
        else if Integer.signedLimit ≤ n then none
        else some (Int64.ofNat n)
  | _ => none

/-- Takes one member of the file in. -/
def member? (s : Settings) (m : String × Json) : Option Settings :=
  let is (name : String) : Bool := folded m.1 == name.toList
  if is "cache_dir" then (text? s.cacheDir m.2).map fun v => { s with cacheDir := v }
  else if is "cache_prune" then (bool? s.cachePrune m.2).map fun v => { s with cachePrune := v }
  else if is "ram_base" then (word? s.ramBase m.2).map fun v => { s with ramBase := v }
  else if is "ram_size" then (int? s.ramSize m.2).map fun v => { s with ramSize := v }
  else if is "listing" then (text? s.listing m.2).map fun v => { s with listing := v }
  else if is "output" then (text? s.output m.2).map fun v => { s with output := v }
  else if is "verbose" then (bool? s.verbose m.2).map fun v => { s with verbose := v }
  else some s

/-- Takes a whole file in. -/
def file? (s : Settings) (contents : Bytes) : Option Settings :=
  match Json.read? (Text.chars contents) with
  | some .null => some s
  | some (.object ms) => ms.foldlM member? s
  | _ => none

/-- Why there are no settings. -/
inductive Fault where
  | flag (f : FlagFault)
  | unread (f : FileFailure)
  | malformedFile
  | arguments (n : Nat)
deriving DecidableEq, Repr

namespace Fault

def failure : Fault → Failure
  | .flag f => .plain f.message
  | .unread f => .context "failed to read config file" (.plain f.text)
  | .malformedFile => .plain "failed to parse config file"
  | .arguments n =>
      .plain ("expected exactly one bytecode file, got " ++ toString n ++ " arguments")

end Fault

/-- What is made of the arguments: settings and the program's path, and what is wrong. -/
structure Parsed where
  settings : Settings
  path : String
  fault : Option Fault
deriving DecidableEq, Repr

namespace Parsed

def found (s : Settings) (path : String) : Parsed := ⟨s, path, none⟩

def failed (f : Fault) : Parsed := ⟨blank, "", some f⟩

end Parsed

namespace Arguments

/-- The path of the file with settings; the last one given counts. -/
def configPath (a : Arguments) : String :=
  a.assignments.foldl (fun path x =>
    match x with
    | .configPath p => p
    | _ => path) ""

/-- What results once the file has been read. -/
def settings (a : Arguments) (file : Option Bytes) : Parsed :=
  let base :=
    match file with
    | none => some standard
    | some contents => file? standard contents
  match base with
  | none => .failed .malformedFile
  | some base =>
      match a.plain with
      | [path] => .found (a.assignments.foldl assigned base) path
      | plain => .failed (.arguments plain.length)

end Arguments

/-- What a list of arguments gives, with a way to read files. -/
def ofArguments {m : Type → Type} [Monad m] (read : String → m (Except FileFailure Bytes))
    (argv : List String) : m Parsed :=
  match Arguments.read argv with
  | .error f => pure (.failed (.flag f))
  | .ok a =>
      if a.configPath = "" then pure (a.settings none)
      else do
        match ← read a.configPath with
        | .error f => return .failed (.unread f)
        | .ok contents => return a.settings (some contents)

end Settings
end StackCode
