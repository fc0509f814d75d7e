import StackCode.Proofs.Bytecode.ListingLines
import StackCode.Proofs.Text.Hexadecimal
import StackCode.X64.Text

/-!
# The text of a machine instruction stays on its line

Names, numbers and addresses hold no line break, so the text of an instruction holds none.
-/
namespace StackCode

namespace Text.OneLine

theorem hex (width n : Nat) : OneLine (Text.hex width n) := by
  intro hmem
  exact absurd (isSome_of_mem_hex hmem) (by decide)

theorem markedHex (n : Int) : OneLine (Text.markedHex n) := by
  have hsign : OneLine "-0x" := by decide
  have hmark : OneLine "0x" := by decide
  unfold Text.markedHex
  split
  · exact hsign.append (hex 0 _)
  · exact hmark.append (hex 0 _)

theorem getD {names : List String} (h : ∀ s ∈ names, OneLine s) (n : Nat) :
    OneLine (names.getD n "?") := by
  rw [List.getD_eq_getElem?_getD]
  cases hn : names[n]? with
  | none => decide
  | some s => exact h s (List.mem_of_getElem? hn)

theorem operands {name a sep b : String} (hname : OneLine name) (ha : OneLine a)
    (hsep : OneLine sep) (hb : OneLine b) : OneLine (name ++ a ++ sep ++ b) :=
  ((hname.append ha).append hsep).append hb

end Text.OneLine

namespace X64

open Text (OneLine)

namespace Reg

theorem oneLine_name64 (r : Reg) : OneLine r.name64 := .getD (by decide) _

theorem oneLine_name32 (r : Reg) : OneLine r.name32 := .getD (by decide) _

theorem oneLine_nameXmm (r : Reg) : OneLine r.nameXmm := by
  have hfront : OneLine "xmm" := by decide
  exact hfront.append (.int r.toNat)

end Reg

namespace Insn

theorem oneLine_imm64Text (v : UInt64) : OneLine (imm64Text v) := by
  simp only [imm64Text]
  split <;> exact .markedHex _

theorem oneLine_signedText (n : Int) : OneLine (signedText n) := by
  have hsign : OneLine (if n < 0 then "-" else "+") := by split <;> decide
  have hmark : OneLine "0x" := by decide
  exact (hsign.append hmark).append (.hex 0 _)

theorem oneLine_addressText {base : String} (h : OneLine base) (disp : Int32) :
    OneLine (addressText base disp) := by
  have hopen : OneLine "[" := by decide
  have hclose : OneLine "]" := by decide
  have hmark : OneLine "0x" := by decide
  have hplus : OneLine (if base = "" then "" else "+") := by split <;> decide
  have hshown : OneLine (if disp.toUInt32.toNat = 0 then ""
      else (if base = "" then "" else "+") ++ "0x" ++ Text.hex 0 disp.toUInt32.toNat) := by
    split
    · decide
    · exact (hplus.append hmark).append (.hex 0 _)
  exact ((hopen.append h).append hshown).append hclose

theorem oneLine_slotText (disp : Int8) : OneLine (slotText disp) := by
  have hopen : OneLine "[rsp" := by decide
  have hclose : OneLine "]" := by decide
  have hshown : OneLine (if disp.toInt = 0 then "" else signedText disp.toInt) := by
    split
    · decide
    · exact oneLine_signedText _
  exact (hopen.append hshown).append hclose

theorem oneLine_targetText (pc size : Nat) (rel : Int32) :
    OneLine (targetText pc size rel) := by
  have hdot : OneLine "." := by decide
  unfold targetText
  split
  · exact hdot.append (oneLine_signedText _)
  · exact .markedHex _

theorem oneLine_scalarName (op : UInt8) : OneLine (scalarName op) := by
  unfold scalarName
  repeat' split
  all_goals decide

theorem oneLine_condition (cc : UInt8) : OneLine (conditions.getD cc.toNat "?") :=
  .getD (by decide) _

theorem oneLine_text (pc size : Nat) (i : Insn) : OneLine (i.text pc size) := by
  have haddress (r : Reg) (d : Int32) := oneLine_addressText r.oneLine_name64 d
  have habs (d : Int32) : OneLine (addressText "" d) := oneLine_addressText (by decide) d
  have hblank : OneLine " " := by decide
  cases i with
  | movImm64 r imm =>
      exact .operands (by decide) r.oneLine_name64 (by decide) (oneLine_imm64Text imm)
  | movImm32 r imm => exact .operands (by decide) r.oneLine_name32 (by decide) (.markedHex _)
  | loadAbs r d => exact .operands (by decide) r.oneLine_name64 (by decide) (habs d)
  | storeAbs d r => exact .operands (by decide) (habs d) (by decide) r.oneLine_name64
  | load r b => exact .operands (by decide) r.oneLine_name64 (by decide) (haddress b 0)
  | store b r => exact .operands (by decide) (haddress b 0) (by decide) r.oneLine_name64
  | loadDisp r b d => exact .operands (by decide) r.oneLine_name64 (by decide) (haddress b d)
  | storeDisp b d r => exact .operands (by decide) (haddress b d) (by decide) r.oneLine_name64
  | leaRsp r d => exact .operands (by decide) r.oneLine_name64 (by decide) (oneLine_slotText d)
  | addImm r imm | subImm r imm =>
      exact .operands (by decide) r.oneLine_name64 (by decide) (.markedHex _)
  | xor a b | cmp a b =>
      exact .operands (by decide) a.oneLine_name64 (by decide) b.oneLine_name64
  | jcc cc rel => exact ((oneLine_condition cc).append hblank).append (oneLine_targetText pc size rel)
  | jmp rel | call rel => exact .append (by decide) (oneLine_targetText pc size rel)
  | callReg r | push r | pop r => exact .append (by decide) r.oneLine_name64
  | ret =>
      have hname : OneLine "ret" := by decide
      exact hname
  | syscall =>
      have hname : OneLine "syscall" := by decide
      exact hname
  | movsdLoad x d | sqrtsd x d =>
      exact .operands (by decide) x.oneLine_nameXmm (by decide) (oneLine_slotText d)
  | movsdStore d x =>
      exact .operands (by decide) (oneLine_slotText d) (by decide) x.oneLine_nameXmm
  | arithsd op a b =>
      exact .operands ((oneLine_scalarName op).append hblank) a.oneLine_nameXmm (by decide)
        b.oneLine_nameXmm

end Insn

end X64

end StackCode
