import StackCode.Settings.Integer
import StackCode.Text.Quoted

/-!
# Flags

Arguments in front of the first plain one are flags. A flag is written with one or two
dashes; its value follows behind an equals sign or, except for a switch, as the next
argument. Two dashes alone end the flags. Each flag that is given makes an assignment;
the first fault ends the reading.
-/
namespace StackCode.Settings

inductive Flag where
  | configPath
  | cacheDir
  | cachePrune
  | list
  | listing
  | output
  | ramBase
  | ramSize
  | verbose
deriving DecidableEq, Repr

namespace Flag

def name : Flag → String
  | .configPath => "config-path"
  | .cacheDir => "cache-dir"
  | .cachePrune => "cache-prune"
  | .list => "list"
  | .listing => "listing"
  | .output => "o"
  | .ramBase => "ram-base"
  | .ramSize => "ram-size"
  | .verbose => "verbose"

def all : List Flag :=
  [.configPath, .cacheDir, .cachePrune, .list, .listing, .output, .ramBase, .ramSize, .verbose]

def ofName? (s : String) : Option Flag := all.find? fun f => f.name == s

/-- Switches take no value from the next argument. -/
def isSwitch : Flag → Bool
  | .cachePrune | .list | .verbose => true
  | _ => false

end Flag

/-- A flag with its value. -/
inductive Assignment where
  | configPath (path : String)
  | cacheDir (path : String)
  | cachePrune (on : Bool)
  | list (on : Bool)
  | listing (path : String)
  | output (path : String)
  | ramBase (v : UInt64)
  | ramSize (v : Int64)
  | verbose (on : Bool)
deriving DecidableEq, Repr

namespace Assignment

def flag : Assignment → Flag
  | .configPath _ => .configPath
  | .cacheDir _ => .cacheDir
  | .cachePrune _ => .cachePrune
  | .list _ => .list
  | .listing _ => .listing
  | .output _ => .output
  | .ramBase _ => .ramBase
  | .ramSize _ => .ramSize
  | .verbose _ => .verbose

end Assignment

inductive FlagFault where
  | badSyntax (arg : String)
  | help
  | unknown (name : String)
  | noValue (flag : Flag)
  | badSwitch (flag : Flag) (value : String)
  | badValue (flag : Flag) (value : String) (fault : IntegerFault)
deriving DecidableEq, Repr

namespace FlagFault

def message : FlagFault → String
  | .badSyntax arg => "bad flag syntax: " ++ arg
  | .help => "flag: help requested"
  | .unknown name => "flag provided but not defined: -" ++ name
  | .noValue f => "flag needs an argument: -" ++ f.name
  | .badSwitch f v =>
      "invalid boolean value " ++ Text.quoted v ++ " for -" ++ f.name ++ ": parse error"
  | .badValue f v fault =>
      "invalid value " ++ Text.quoted v ++ " for flag -" ++ f.name ++ ": " ++ fault.message

end FlagFault

/-- The spellings of a switch's value. -/
def truth? (s : String) : Option Bool :=
  if s ∈ ["1", "t", "T", "true", "TRUE", "True"] then some true
  else if s ∈ ["0", "f", "F", "false", "FALSE", "False"] then some false
  else none

/-- A flag set to a value. -/
def assign (f : Flag) (value : String) : Except FlagFault Assignment :=
  let switch (make : Bool → Assignment) : Except FlagFault Assignment :=
    match truth? value with
    | some b => .ok (make b)
    | none => .error (.badSwitch f value)
  match f with
  | .configPath => .ok (.configPath value)
  | .cacheDir => .ok (.cacheDir value)
  | .cachePrune => switch .cachePrune
  | .list => switch .list
  | .listing => .ok (.listing value)
  | .output => .ok (.output value)
  | .ramBase => ((Integer.word value).mapError (.badValue f value)).map .ramBase
  | .ramSize => ((Integer.signed value).mapError (.badValue f value)).map .ramSize
  | .verbose => switch .verbose

/-- What an argument is by its shape. -/
inductive Shape where
  | plain
  /-- ends the flags -/
  | dashes
  | malformed
  | named (name : String) (value : Option String)
deriving DecidableEq, Repr

namespace Shape

/-- Splits at the first equals sign, which cannot come first. -/
def ofBody : List Char → Shape
  | [] => .malformed
  | c :: cs =>
      if c = '-' ∨ c = '=' then .malformed
      else
        let name := String.ofList (c :: cs.takeWhile (· ≠ '='))
        match cs.dropWhile (· ≠ '=') with
        | [] => .named name none
        | _ :: value => .named name (some (String.ofList value))

def ofArgument (arg : String) : Shape :=
  match arg.toList with
  | ['-', '-'] => .dashes
  | '-' :: '-' :: body => ofBody body
  | '-' :: c :: body => ofBody (c :: body)
  | _ => .plain

end Shape

/-- The flag with a name. -/
def resolve (name : String) : Except FlagFault Flag :=
  match Flag.ofName? name with
  | some f => .ok f
  | none => .error (if name = "help" ∨ name = "h" then .help else .unknown name)

/-- What the arguments say: assignments in order, then plain arguments. -/
structure Arguments where
  assignments : List Assignment
  plain : List String
deriving DecidableEq, Repr

namespace Arguments

/-- Puts an assignment in front. -/
def withFirst (a : Assignment) (r : Except FlagFault Arguments) : Except FlagFault Arguments :=
  r.map fun args => { args with assignments := a :: args.assignments }

def read : List String → Except FlagFault Arguments
  | [] => .ok ⟨[], []⟩
  | arg :: rest =>
      match Shape.ofArgument arg with
      | .plain => .ok ⟨[], arg :: rest⟩
      | .dashes => .ok ⟨[], rest⟩
      | .malformed => .error (.badSyntax arg)
      | .named name value =>
          match resolve name with
          | .error f => .error f
          | .ok flag =>
              match value, flag.isSwitch, rest with
              | some v, _, rest =>
                  match assign flag v with
                  | .error f => .error f
                  | .ok a => withFirst a (read rest)
              | none, true, rest =>
                  match assign flag "true" with
                  | .error f => .error f
                  | .ok a => withFirst a (read rest)
              | none, false, [] => .error (.noValue flag)
              | none, false, v :: rest =>
                  match assign flag v with
                  | .error f => .error f
                  | .ok a => withFirst a (read rest)

end Arguments
end StackCode.Settings
