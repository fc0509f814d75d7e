import StackCode.Lowering.Patched

/-!
# Images

The three passes in a row: lay out, fill, patch. The result is the finished machine
code of a program together with the figures of the passes.
-/
namespace StackCode.Lowering

structure Image where
  layout : Layout
  emitted : Nat
  patched : Nat
  native : Bytes
deriving DecidableEq, Repr

namespace Image

/-- Fills and patches a buffer. The first fault ends it. A pass that leaves its buffer has no
answer at all. -/
def into (buffer : Bytes) (code : Option Bytes) (layout : Layout) (h : Helpers) :
    Except Outcome Image :=
  let filled := Filled.ofCode code (some layout.nativeLen) (some buffer) h
  match filled.outcome with
  | .done =>
      let patched := Patched.ofCode code layout.relocations filled.native
      match patched.outcome with
      | .done => .ok ⟨layout, filled.emitted, patched.patched, patched.native.getD []⟩
      | stop => .error stop
  | stop => .error stop

/-- Runs the three passes, the last two on a fresh buffer of the size that the layout gives. -/
def ofCode (code : Option Bytes) (h : Helpers) : Except Outcome Image :=
  match Layout.ofCode code with
  | .error f => .error (.failed f)
  | .ok layout => into (List.replicate layout.nativeLen 0) code layout h

end Image
end StackCode.Lowering
