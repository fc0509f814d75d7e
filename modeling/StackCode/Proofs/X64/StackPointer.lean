import StackCode.Proofs.X64.Effects

/-!
# The stack pointer along machine code

What an instruction does to the stack pointer, in any state whatever: memory, registers and
streams do not matter. `lift` counts the words that an instruction puts on the stack. A steady
instruction moves the stack pointer by its lift and goes on behind itself or, if it is a jump,
at its distance. `Level` says how many words the stack pointer is away from an aligned address;
words come in pairs, so only the parity of the number counts.
-/
namespace StackCode.X64

open Memory

namespace Insn

def lift : Insn → Int
  | .push _ => 1
  | .pop _ => -1
  | .subImm r _ => if r = .rsp then 1 else 0
  | .addImm r _ => if r = .rsp then -1 else 0
  | _ => 0

def lifts (is : List Insn) : Int := (is.map lift).sum

def general (r : Reg) : Bool := r < 16 && r != .rsp

/-- Does an instruction move the stack pointer by its lift alone, and go on behind itself or at
its distance? A call through a register does where it calls an outside routine. -/
def steady : Insn → Bool
  | .movImm64 r _ | .movImm32 r _ | .loadAbs r _ | .load r _ | .loadDisp r _ _ => general r
  | .leaRsp r _ | .xor r _ | .pop r => general r
  | .addImm r imm | .subImm r imm => general r || r == .rsp && imm == 8
  | .call _ | .ret => false
  | .storeAbs _ _ | .store _ _ | .storeDisp _ _ _ | .cmp _ _ | .jcc _ _ | .jmp _ => true
  | .callReg _ | .push _ | .syscall => true
  | .movsdLoad _ _ | .movsdStore _ _ | .sqrtsd _ _ | .arithsd _ _ _ => true

def rel? : Insn → Option Int32
  | .jmp rel | .jcc _ rel => some rel
  | _ => none

@[simp] theorem lifts_nil : lifts [] = 0 := rfl

@[simp] theorem lifts_cons (i : Insn) (is : List Insn) : lifts (i :: is) = i.lift + lifts is := by
  simp [lifts]

@[simp] theorem lifts_append (a b : List Insn) : lifts (a ++ b) = lifts a + lifts b := by
  simp [lifts]

theorem general_iff {r : Reg} : general r = true ↔ r < 16 ∧ r ≠ .rsp := by
  simp [general]

end Insn

/-- The stack pointer is so many words away from an aligned address. -/
def Level (s : State) (words : Int) : Prop := (s.rsp.toNat : Int) % 16 = 8 * words % 16

namespace Level

variable {s t : State} {words : Int}

theorem of_rsp (hs : Level s words) (h : t.rsp = s.rsp) : Level t words := by
  unfold Level
  rwa [h]

theorem pushed (hs : Level s words) (h : t.rsp = s.rsp - 8) : Level t (words + 1) := by
  unfold Level at hs ⊢
  rw [h, UInt64.toNat_sub]
  have h8 : (8 : UInt64).toNat = 8 := rfl
  omega

theorem popped (hs : Level s words) (h : t.rsp = s.rsp + 8) : Level t (words + -1) := by
  unfold Level at hs ⊢
  rw [h, UInt64.toNat_add]
  have h8 : (8 : UInt64).toNat = 8 := rfl
  omega

/-- Only the parity counts. -/
theorem congr (hs : Level s words) {words' : Int} (h : words % 2 = words' % 2) :
    Level s words' := by
  unfold Level at hs ⊢
  omega

end Level

namespace State

variable {h : Host} {s t : State} {next : UInt64}

theorem storing_inv {rs : Regs} {addr v : UInt64} (hx : s.storing next rs addr v = .goes t) :
    t.rsp = rs.get .rsp ∧ t.rip = next := by
  unfold storing at hx
  split at hx
  split at hx
  next => cases hx; exact ⟨rfl, rfl⟩
  next => cases hx

theorem loading_inv {r : Reg} {addr : UInt64} (hr : Insn.general r = true)
    (hx : s.loading next r addr = .goes t) : t.rsp = s.rsp ∧ t.rip = next := by
  obtain ⟨hlt, hne⟩ := Insn.general_iff.mp hr
  unfold loading at hx
  split at hx
  next v _ =>
    cases hx
    exact ⟨Regs.get_set_of_ne _ hlt (by decide) hne v, rfl⟩
  next => cases hx

theorem rsp_scratched (h : Host) (rs : Regs) : (h.scratched rs).get .rsp = rs.get .rsp := by
  have hlt : ∀ r ∈ Host.callerSaved, r < 16 := by decide +kernel
  exact Regs.get_foldl_set _ hlt _ (by decide)

theorem readNumber_inv (hx : s.readNumber h next = .goes t) : t.rsp = s.rsp ∧ t.rip = next := by
  simp only [readNumber] at hx
  split at hx
  next => cases hx; exact ⟨rsp_scratched h _, rfl⟩
  next => cases hx

theorem printNumber_inv (hx : s.printNumber h next = .goes t) :
    t.rsp = s.rsp ∧ t.rip = next := by
  simp only [printNumber] at hx
  split at hx
  next => cases hx; exact ⟨rsp_scratched h _, rfl⟩
  next => cases hx

/-- An outside routine returns with the stack pointer as it was at the call. -/
theorem calling_inv {target : UInt64} (htarget : target = h.input ∨ target = h.output)
    (hx : s.calling h next target = .goes t) : t.rsp = s.rsp ∧ t.rip = next := by
  simp only [calling, if_pos htarget] at hx
  split at hx
  next =>
    split at hx
    next =>
      have hmoved := readNumber_inv hx
      exact hmoved
    next =>
      have hmoved := printNumber_inv hx
      exact hmoved
  next => cases hx

/-- Where an instruction goes on. -/
def Leaves (i : Insn) (next : UInt64) (t : State) : Prop :=
  t.rip = next ∨ ∃ rel, i.rel? = some rel ∧ t.rip = next + signed32 rel

/-- The registers that a call goes through hold an outside routine. -/
def Ready (h : Host) (s : State) (i : Insn) : Prop :=
  ∀ r, i = .callReg r → s.regs.get r = h.input ∨ s.regs.get r = h.output

end State

/-- A steady instruction moves the stack pointer by its lift, in any state. -/
theorem Level.execute {h : Host} {s t : State} {next : UInt64} {words : Int} {i : Insn}
    (hs : Level s words) (hi : i.steady = true) (hready : s.Ready h i)
    (hx : s.execute h next i = .goes t) :
    Level t (words + i.lift) ∧ State.Leaves i next t := by
  have still (hlift : i.lift = 0) (hrsp : t.rsp = s.rsp) : Level t (words + i.lift) := by
    rw [hlift, Int.add_zero]
    exact hs.of_rsp hrsp
  have same (hlift : i.lift = 0) (hmoved : t.rsp = s.rsp ∧ t.rip = next) :
      Level t (words + i.lift) ∧ State.Leaves i next t :=
    ⟨still hlift hmoved.1, .inl hmoved.2⟩
  cases i with
  | movImm64 r imm | movImm32 r imm =>
      obtain ⟨hlt, hne⟩ := Insn.general_iff.mp hi
      cases hx
      exact same rfl ⟨Regs.get_set_of_ne _ hlt (by decide) hne _, rfl⟩
  | loadAbs r disp | load r base | loadDisp r base disp =>
      exact same rfl (State.loading_inv hi hx)
  | storeAbs disp r | store base r | storeDisp base disp r =>
      exact same rfl (State.storing_inv hx)
  | leaRsp r disp | xor r src =>
      obtain ⟨hlt, hne⟩ := Insn.general_iff.mp hi
      cases hx
      exact same rfl ⟨Regs.get_set_of_ne _ hlt (by decide) hne _, rfl⟩
  | addImm r imm =>
      cases hx
      rcases Bool.or_eq_true _ _ ▸ hi with hr | hr
      · obtain ⟨hlt, hne⟩ := Insn.general_iff.mp hr
        exact same (if_neg hne) ⟨Regs.get_set_of_ne _ hlt (by decide) hne _, rfl⟩
      · obtain ⟨rfl, rfl⟩ : r = .rsp ∧ imm = 8 := by simpa using hr
        exact ⟨hs.popped (Regs.get_set_self ..), .inl rfl⟩
  | subImm r imm =>
      cases hx
      rcases Bool.or_eq_true _ _ ▸ hi with hr | hr
      · obtain ⟨hlt, hne⟩ := Insn.general_iff.mp hr
        exact same (if_neg hne) ⟨Regs.get_set_of_ne _ hlt (by decide) hne _, rfl⟩
      · obtain ⟨rfl, rfl⟩ : r = .rsp ∧ imm = 8 := by simpa using hr
        exact ⟨hs.pushed (Regs.get_set_self ..), .inl rfl⟩
  | cmp left right =>
      cases hx
      exact same rfl ⟨rfl, rfl⟩
  | jcc cc rel =>
      cases hx
      refine ⟨still rfl rfl, ?_⟩
      by_cases hc : s.flags.holds cc
      · exact .inr ⟨rel, rfl, if_pos hc⟩
      · exact .inl (if_neg hc)
  | jmp rel =>
      cases hx
      exact ⟨still rfl rfl, .inr ⟨rel, rfl, rfl⟩⟩
  | call rel => cases hi
  | callReg r => exact same rfl (State.calling_inv (hready r rfl) hx)
  | ret => cases hi
  | push r =>
      obtain ⟨hrsp, hrip⟩ := State.storing_inv hx
      rw [Regs.get_set_self] at hrsp
      exact ⟨hs.pushed hrsp, .inl hrip⟩
  | pop r =>
      obtain ⟨hlt, hne⟩ := Insn.general_iff.mp hi
      simp only [State.execute] at hx
      split at hx
      next v _ =>
        cases hx
        have hrsp : ((s.regs.set .rsp (s.rsp + 8)).set r v).get .rsp = s.rsp + 8 := by
          rw [Regs.get_set_of_ne _ hlt (by decide) hne, Regs.get_set_self]
        exact ⟨hs.popped hrsp, .inl rfl⟩
      next => cases hx
  | syscall =>
      simp only [State.execute] at hx
      split at hx <;> cases hx
  | movsdLoad x disp | sqrtsd x disp | arithsd op dst src =>
      simp only [State.execute] at hx
      split at hx
      next => cases hx; exact same rfl ⟨rfl, rfl⟩
      next => cases hx
  | movsdStore disp x => exact same rfl (State.storing_inv hx)

end StackCode.X64
