import StackCode.Proofs.Bytecode.ListingLines
import StackCode.Proofs.Lowering.Acceptance

/-!
# The listing and the first pass agree

Listing and layout both go along a program once, and each keeps its own record of where
instructions start and which targets that leaves out. They stop at the same instruction with the
same report, and a program that can be listed is laid out just if its listing ends with no stray
targets.
-/
namespace StackCode.Bytecode

/-- Reading a program comes to an instruction that cannot be read. -/
def Unreadable (code : Bytes) (f : Failure) : Prop :=
  ∃ ls ip, Reads code 0 ls ip ∧ ip < code.length ∧ Instr.decode (some code) ip = .error f

namespace Listing

variable {code : Bytes}

theorem ofCode_of_reads {ls : List Located} (h : Reads code 0 ls code.length) :
    ofCode code = .ok (text ⟨ls, none⟩) := by
  simp only [ofCode, h.scan_end]
  rfl

theorem ofCode_of_unreadable {f : Failure} (h : Unreadable code f) : ofCode code = .error f := by
  obtain ⟨ls, ip, hr, hip, hd⟩ := h
  obtain ⟨fault, hs, rfl⟩ := hr.scan_fault hip hd
  simp only [ofCode, hs]
  rfl

theorem reads_or_unreadable (code : Bytes) :
    (∃ ls, Reads code 0 ls code.length) ∨ ∃ f, Unreadable code f := by
  obtain ⟨ls, stop, hr, rfl | ⟨hlt, f, hd⟩⟩ := Scan.exists_reads code (Nat.zero_le _)
  · exact .inl ⟨ls, hr⟩
  · exact .inr ⟨f, ls, stop, hr, hlt, hd⟩

theorem exists_reads_of_ok {text : String} (h : ofCode code = .ok text) :
    ∃ ls, Reads code 0 ls code.length := by
  rcases reads_or_unreadable code with hreads | ⟨f, hf⟩
  · exact hreads
  · rw [ofCode_of_unreadable hf] at h
    cases h

theorem ofCode_eq_error_iff {f : Failure} : ofCode code = .error f ↔ Unreadable code f := by
  constructor
  · intro h
    rcases reads_or_unreadable code with ⟨ls, hr⟩ | ⟨g, hg⟩
    · rw [ofCode_of_reads hr] at h
      cases h
    · rw [ofCode_of_unreadable hg] at h
      cases h
      exact hg
  · intro h
    exact ofCode_of_unreadable h

theorem unresolved_eq_nil_iff (s : Scan) :
    unresolved s = [] ↔ ∀ l ∈ s.instrs, l.lands s.instrs = true := by
  constructor
  · intro hnil l hl
    rw [Located.lands_iff]
    intro t ht
    by_contra hno
    have hmem : t.toInt ∈ unresolved s :=
      (mem_unresolved s _).mpr ⟨⟨l, hl, t, ht, rfl⟩, fun k hk hip => hno ⟨k, hk, hip⟩⟩
    rw [hnil] at hmem
    cases hmem
  · intro h
    rw [List.eq_nil_iff_forall_not_mem]
    intro t ht
    obtain ⟨⟨l, hl, u, hu, rfl⟩, hno⟩ := (mem_unresolved s t).mp ht
    obtain ⟨k, hk, hip⟩ := Located.lands_iff.mp (h l hl) u hu
    exact hno k hk hip

end Listing

end StackCode.Bytecode

namespace StackCode.Lowering

open Bytecode

variable {code : Bytes}

theorem Layout.ofCode_of_unreadable (hne : code ≠ []) {f : Failure} (h : Unreadable code f) :
    ofCode (some code) = .error f := by
  obtain ⟨ls, ip, hr, hip, hd⟩ := h
  have hmap := (Verdict.unreadable hr hip hd).answered hne
  cases hl : ofCode (some code) with
  | ok layout =>
      rw [hl] at hmap
      cases hmap
  | error g =>
      rw [hl] at hmap
      cases hmap
      rfl

theorem Layout.exists_ofCode_iff (hne : code ≠ []) {ls : List Located}
    (hr : Reads code 0 ls code.length) :
    (∃ layout, ofCode (some code) = .ok layout) ↔ Bytecode.Listing.unresolved ⟨ls, none⟩ = [] := by
  have hs := hr.scan_end
  rw [Bytecode.Listing.unresolved_eq_nil_iff]
  constructor
  · rintro ⟨layout, h⟩
    obtain ⟨-, -, -, hlands⟩ := Layout.ofCode_eq_ok_iff.mp h
    rwa [hs] at hlands
  · intro hlands
    refine ⟨_, Layout.ofCode_eq_ok_iff.mpr ⟨hne, ?_, rfl, ?_⟩⟩
    · rw [hs]
    · rwa [hs]

/-- The listing of a program that is not empty fails just where reading fails, and then with the
report of the first pass. Otherwise its text shows the instructions and the stray targets of the
program, and the first pass accepts the program if and only if there are none of the latter. -/
theorem listing_agrees_with_layout (hne : code ≠ []) :
    (∀ f, Bytecode.Listing.ofCode code = .error f ↔ Unreadable code f) ∧
      (∀ f, Bytecode.Listing.ofCode code = .error f → Layout.ofCode (some code) = .error f) ∧
      ∀ text, Bytecode.Listing.ofCode code = .ok text →
        ∃ ls strays, Reads code 0 ls code.length ∧ Bytecode.Listing.Shows ls text strays ∧
          ((∃ layout, Layout.ofCode (some code) = .ok layout) ↔ strays = []) := by
  refine ⟨fun f => Bytecode.Listing.ofCode_eq_error_iff, ?_, ?_⟩
  · intro f hf
    exact Layout.ofCode_of_unreadable hne (Bytecode.Listing.ofCode_eq_error_iff.mp hf)
  · intro text htext
    obtain ⟨ls, hr⟩ := Bytecode.Listing.exists_reads_of_ok htext
    rw [Bytecode.Listing.ofCode_of_reads hr] at htext
    cases htext
    exact ⟨ls, _, hr, Bytecode.Listing.shows_text ⟨ls, none⟩, Layout.exists_ofCode_iff hne hr⟩

/-- Jumps to an instruction, in front of the program, twice into the middle of one, and to the
end. -/
def strayTargets : List Located :=
  [⟨0, .branch .jmp 5⟩, ⟨5, .branch (.cond .e) (-1)⟩, ⟨10, .branch .call 3⟩,
    ⟨15, .branch .jmp 3⟩, ⟨20, .branch (.cond .a) 26⟩, ⟨25, .ret⟩]

theorem listing_agrees_with_layout_strays :
    let code := strayTargets.flatMap fun l => l.instr.encode
    code ≠ [] ∧ ∃ text strays, Bytecode.Listing.ofCode code = .ok text ∧
      Bytecode.Listing.Shows strayTargets text strays ∧ -1 ∈ strays ∧
      ¬ ∃ layout, Layout.ofCode (some code) = .ok layout := by
  intro code
  have hreads : Reads code 0 strayTargets 26 :=
    .next rfl (.next rfl (.next rfl (.next rfl (.next rfl (.next rfl (.here 26))))))
  have htext := Bytecode.Listing.ofCode_of_reads hreads
  obtain ⟨ls, strays, hr, hshows, hiff⟩ :=
    (listing_agrees_with_layout (by decide)).2.2 _ htext
  have hls : ls = strayTargets := by
    have hs := hr.scan_end.symm.trans hreads.scan_end
    exact congrArg Scan.instrs hs
  subst hls
  have hmem : -1 ∈ strays := by
    rw [hshows.mem_strays]
    exact ⟨⟨⟨5, .branch (.cond .e) (-1)⟩, by decide, -1, rfl, rfl⟩, by decide⟩
  refine ⟨by decide, _, strays, htext, hshows, hmem, ?_⟩
  rw [hiff]
  rintro rfl
  cases hmem

end StackCode.Lowering
