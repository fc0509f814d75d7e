import Mathlib.Data.Prod.Lex
import StackCode.Proofs.Lowering.Catalog

/-!
# The order of the catalog

Variants are compared part by part, which is the lexicographic order of their parts: a strict order
in which of any two variants one comes first. A sort that only compares may leave equals in any
order, but descriptors of different variants have no equals. All it can make of them is one list,
whatever order they came in. So neither the catalog nor the bytes that its fingerprint is taken of
tell in which order the descriptors were registered.
-/
namespace StackCode.Lowering

open Bytecode

namespace Variant

/-! ## Comparing variants -/

/-- The parts of a variant, the one that is compared first in front. -/
def parts (v : Variant) : Nat ×ₗ Int ×ₗ Nat ×ₗ Bool :=
  toLex (v.op.toNat, toLex (v.form, toLex (v.reg.toNat, v.padded)))

theorem parts_injective : Function.Injective parts := by
  intro a b h
  obtain ⟨op, form, reg, padded⟩ := a
  obtain ⟨op', form', reg', padded'⟩ := b
  simpa [parts, UInt8.toNat_inj] using h

theorem less_iff (a b : Variant) : a.less b = true ↔ a.parts < b.parts := by
  simp only [parts, Prod.Lex.toLex_lt_toLex, UInt8.toNat_inj, ← UInt8.lt_iff_toNat_lt, less]
  by_cases hop : a.op = b.op
  · by_cases hform : a.form = b.form
    · by_cases hreg : a.reg = b.reg
      · simp [hop, hform, hreg, UInt8.lt_irrefl, Bool.lt_iff]
      · simp [hop, hform, hreg, UInt8.lt_irrefl]
    · simp [hop, hform, UInt8.lt_irrefl]
  · simp [hop]

theorem less_irrefl (a : Variant) : a.less a = false := by
  rw [← Bool.not_eq_true, less_iff]
  exact lt_irrefl _

theorem less_trans {a b c : Variant} (hab : a.less b = true) (hbc : b.less c = true) :
    a.less c = true := by
  rw [less_iff] at *
  exact hab.trans hbc

theorem less_eq_false_of_less {a b c : Variant} (hab : a.less b = true)
    (hcb : c.less b = false) : c.less a = false := by
  rw [← Bool.not_eq_true] at hcb ⊢
  exact fun hca => hcb (less_trans hca hab)

theorem less_of_ne {a b : Variant} (h : a ≠ b) : b.less a = !a.less b := by
  rw [Bool.eq_iff_iff, Bool.not_eq_true', ← Bool.not_eq_true, less_iff, less_iff, not_lt]
  exact (parts_injective.ne h).symm.le_iff_lt.symm

end Variant

namespace Descriptor

/-! ## Sorting descriptors -/

def Ordered (ds : List Descriptor) : Prop :=
  ds.Pairwise fun d e => e.variant.less d.variant = false

/-- What a sort that compares variants may make of descriptors. Nothing is said of the order of
equals. -/
structure SortsTo (ds out : List Descriptor) : Prop where
  perm : out.Perm ds
  ordered : Ordered out

theorem insert_ordered (d : Descriptor) {ds : List Descriptor} (h : Ordered ds) :
    Ordered (insert d ds) := by
  induction ds with
  | nil => exact List.pairwise_singleton _ _
  | cons e es ih =>
      obtain ⟨he, hes⟩ := List.pairwise_cons.mp h
      unfold insert
      split
      next hless =>
        refine .cons (fun f hf => Variant.less_eq_false_of_less hless ?_) h
        rcases List.mem_cons.mp hf with rfl | hf
        · exact Variant.less_irrefl _
        · exact he f hf
      next hless =>
        refine .cons (fun f hf => ?_) (ih hes)
        rcases List.mem_cons.mp ((insert_perm d es).mem_iff.mp hf) with rfl | hf
        · exact Bool.eq_false_of_not_eq_true hless
        · exact he f hf

theorem sort_ordered (ds : List Descriptor) : Ordered (sort ds) := by
  have step : ∀ acc, Ordered acc → Ordered (ds.foldl (fun acc d => insert d acc) acc) := by
    induction ds with
    | nil => exact fun acc h => h
    | cons d ds ih => exact fun acc h => ih (insert d acc) (insert_ordered d h)
  exact step [] .nil

theorem sortsTo_sort (ds : List Descriptor) : SortsTo ds (sort ds) :=
  ⟨sort_perm ds, sort_ordered ds⟩

variable {ds es out out' : List Descriptor}

theorem SortsTo.of_perm (h : SortsTo es out) (hp : es.Perm ds) : SortsTo ds out :=
  ⟨h.perm.trans hp, h.ordered⟩

/-- Descriptors of different variants are sorted in one way only. -/
theorem SortsTo.unique (hn : (ds.map variant).Nodup) (h : SortsTo ds out)
    (h' : SortsTo ds out') : out = out' := by
  refine List.Perm.eq_of_pairwise ?_ h.ordered h'.ordered (h.perm.trans h'.perm.symm)
  intro d e hd he hed hde
  have hv : d.variant = e.variant := by
    by_contra hne
    rw [Variant.less_of_ne hne, hde] at hed
    cases hed
  exact List.inj_on_of_nodup_map hn (h.perm.mem_iff.mp hd) (h'.perm.mem_iff.mp he) hv

end Descriptor

/-- Comparing variants is a strict total order: no variant comes before itself, the order is
transitive, and of two variants exactly one comes before the other. So whatever order descriptors
of different variants are in, sorting them has one result, however the sort treats equals. In
particular the catalog and the bytes of its fingerprint are the same for every order in which the
descriptors are registered. -/
theorem catalog_order_canonical :
    (∀ a : Variant, a.less a = false) ∧
      (∀ a b c : Variant, a.less b = true → b.less c = true → a.less c = true) ∧
      (∀ a b : Variant, a ≠ b → b.less a = !a.less b) ∧
      (∀ ds : List Descriptor, (ds.map Descriptor.variant).Nodup →
        ∀ es, es.Perm ds → ∀ out, Descriptor.SortsTo es out ↔ out = Descriptor.sort ds) ∧
      ∀ registered, registered.Perm (Opcode.all.flatMap Catalog.ofOpcode) →
        ∀ out, Descriptor.SortsTo registered out →
          out = Catalog.descriptors ∧
            Catalog.fingerprint = Blake2b.digest (Catalog.serialize out) := by
  refine ⟨Variant.less_irrefl, fun _ _ _ => Variant.less_trans, fun _ _ => Variant.less_of_ne,
    ?_, ?_⟩
  · intro ds hn es hp out
    constructor
    · exact fun h => (h.of_perm hp).unique hn (Descriptor.sortsTo_sort ds)
    · intro h
      rw [h]
      exact (Descriptor.sortsTo_sort ds).of_perm hp.symm
  · intro registered hp out hout
    have hsorted := Descriptor.sortsTo_sort (Opcode.all.flatMap Catalog.ofOpcode)
    have hn : ((Opcode.all.flatMap Catalog.ofOpcode).map Descriptor.variant).Nodup :=
      (hsorted.perm.map Descriptor.variant).nodup_iff.mp Catalog.nodup_variants
    have heq : out = Catalog.descriptors := (hout.of_perm hp).unique hn hsorted
    exact ⟨heq, by rw [heq]; rfl⟩

end StackCode.Lowering
