/-!
# Failures and their texts

A failure is a chain. A report carries a kind and the source offset it is about; a
negative offset means that it is about none. Context and reports may have a cause,
whose text follows after a colon. The kind of a chain is that of its first report.
-/
namespace StackCode

/-- Why something was given up. Kinds are known by their numbers. -/
structure FailureKind where
  code : Int
deriving DecidableEq, Repr

namespace FailureKind

def nullInput : FailureKind := ⟨1⟩
def allocationFailure : FailureKind := ⟨2⟩
def undefinedOpcode : FailureKind := ⟨3⟩
def unexpectedOperandTag : FailureKind := ⟨4⟩
def truncatedInstruction : FailureKind := ⟨5⟩
def undefinedJumpTarget : FailureKind := ⟨6⟩
def protectionChangeFailure : FailureKind := ⟨7⟩
def invariantViolation : FailureKind := ⟨8⟩
def unsupported : FailureKind := ⟨9⟩

/-- The kinds that have a name, with it. -/
def names : List (FailureKind × String) :=
  [(nullInput, "null input"), (allocationFailure, "allocation failure"),
    (undefinedOpcode, "undefined opcode"), (unexpectedOperandTag, "unexpected operand tag"),
    (truncatedInstruction, "truncated instruction"),
    (undefinedJumpTarget, "undefined jump target"),
    (protectionChangeFailure, "protection change failure"),
    (invariantViolation, "invariant violation"), (unsupported, "unsupported")]

def name (k : FailureKind) : String :=
  match names.lookup k with
  | some n => n
  | none => "kind(" ++ toString k.code ++ ")"

end FailureKind

inductive Failure where
  | plain (text : String)
  | context (text : String) (cause : Failure)
  | report (kind : FailureKind) (ip : Int) (message : String)
  | wrapped (kind : FailureKind) (ip : Int) (message : String) (cause : Failure)
deriving DecidableEq, Repr

namespace Failure

/-- The text of a report without its cause. -/
def head (kind : FailureKind) (ip : Int) (message : String) : String :=
  kind.name ++ (if 0 ≤ ip then " at ip " ++ toString ip else "") ++
    (if message = "" then "" else ": " ++ message)

def text : Failure → String
  | .plain t => t
  | .context t c => t ++ ": " ++ c.text
  | .report k ip m => head k ip m
  | .wrapped k ip m c => head k ip m ++ ": " ++ c.text

/-- The failure directly behind this one. -/
def cause? : Failure → Option Failure
  | .plain _ | .report _ _ _ => none
  | .context _ c | .wrapped _ _ _ c => some c

/-- Kind and source offset of the first report in the chain. -/
def report? : Failure → Option (FailureKind × Int)
  | .plain _ => none
  | .context _ c => c.report?
  | .report k ip _ | .wrapped k ip _ _ => some (k, ip)

def kind? (f : Failure) : Option FailureKind := f.report?.map Prod.fst

def isKind (f : Failure) (k : FailureKind) : Bool := f.kind? == some k

end Failure
end StackCode
