import Mathlib.Data.List.Nodup

/-!
# Lists that are read by key

The catalog, the slots of a template and the pairs of a store are lists in which an element is
looked for by its key. The search gives the first element with the key, so it gives all there
is to the key where no two elements share one.
-/
namespace StackCode.Keyed

theorem find?_key {α κ : Type} [DecidableEq κ] {key : α → κ} {xs : List α}
    (hn : (xs.map key).Nodup) {a : α} (h : a ∈ xs) :
    xs.find? (fun x => key x == key a) = some a := by
  cases hf : xs.find? fun x => key x == key a with
  | none =>
      have := List.find?_eq_none.mp hf a h
      simp at this
  | some b =>
      have hk : key b = key a := by simpa using List.find?_some hf
      rw [List.inj_on_of_nodup_map hn (List.mem_of_find?_eq_some hf) h hk]

section Pairs

variable {κ α : Type} [BEq κ] [LawfulBEq κ] {pairs : List (κ × α)} {key : κ} {value : α}

theorem mem_of_lookup (h : pairs.lookup key = some value) : (key, value) ∈ pairs := by
  obtain ⟨before, after, rfl, -⟩ := List.lookup_eq_some_iff.mp h
  exact List.mem_append_right _ (.head _)

/-- It is enough that the key itself has one value: other keys may be there twice. -/
theorem lookup_eq_some_iff_mem
    (hone : ∀ v w, (key, v) ∈ pairs → (key, w) ∈ pairs → v = w) :
    pairs.lookup key = some value ↔ (key, value) ∈ pairs := by
  constructor
  · exact mem_of_lookup
  · intro hmem
    cases hl : pairs.lookup key with
    | none =>
        have := List.lookup_eq_none_iff.mp hl (key, value) hmem
        simp at this
    | some w => rw [hone w value (mem_of_lookup hl) hmem]

end Pairs

end StackCode.Keyed
