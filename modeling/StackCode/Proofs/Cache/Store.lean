import StackCode.Cache.Store
import StackCode.Proofs.Keyed

/-!
# What a store holds

A store is a map: a key has the value that was set, no other key is touched, and an erased key
has none. A property of keys and values that holds of all pairs of a store is kept by every
operation that does not bring in a pair without it.
-/
namespace StackCode.Cache.Store

/-! ## Keys -/

theorem lookup_insert_self (key value : Bytes) (pairs : List (Bytes × Bytes)) :
    (insert key value pairs).lookup key = some value := by
  induction pairs with
  | nil => simp [insert]
  | cons p rest ih =>
      unfold insert
      split
      next => simp
      next =>
        split
        next => simp
        next hne =>
          rw [List.lookup_cons, beq_false_of_ne hne]
          exact ih

theorem lookup_insert_of_ne {key other : Bytes} (hne : other ≠ key) (value : Bytes)
    (pairs : List (Bytes × Bytes)) :
    (insert key value pairs).lookup other = pairs.lookup other := by
  have hfront (rest : List (Bytes × Bytes)) :
      ((key, value) :: rest).lookup other = rest.lookup other := by
    rw [List.lookup_cons, beq_false_of_ne hne]
  induction pairs with
  | nil => exact hfront []
  | cons p rest ih =>
      unfold insert
      split
      next => exact hfront _
      next =>
        split
        next hkey =>
          rw [hfront, List.lookup_cons, beq_false_of_ne (hkey ▸ hne)]
        next => rw [List.lookup_cons, List.lookup_cons, ih]

theorem lookup_filter_self (key : Bytes) (pairs : List (Bytes × Bytes)) :
    (pairs.filter fun p => p.1 ≠ key).lookup key = none := by
  rw [List.lookup_eq_none_iff]
  intro p hp
  have hne : p.1 ≠ key := of_decide_eq_true (List.mem_filter.mp hp).2
  exact bne_iff_ne.mpr hne.symm

theorem lookup_filter_of_ne {key other : Bytes} (hne : other ≠ key)
    (pairs : List (Bytes × Bytes)) :
    (pairs.filter fun p => p.1 ≠ key).lookup other = pairs.lookup other := by
  induction pairs with
  | nil => rfl
  | cons p rest ih =>
      by_cases hp : p.1 = key
      · rw [List.filter_cons_of_neg (by simp [hp]), List.lookup_cons,
          beq_false_of_ne (hp ▸ hne)]
        exact ih
      · rw [List.filter_cons_of_pos (by simp [hp]), List.lookup_cons, List.lookup_cons, ih]

@[simp] theorem get?_set_self (s : Store) (key value : Bytes) :
    (s.set key value).get? key = some value := lookup_insert_self key value s.pairs

theorem get?_set_of_ne (s : Store) {key other : Bytes} (hne : other ≠ key) (value : Bytes) :
    (s.set key value).get? other = s.get? other := lookup_insert_of_ne hne value s.pairs

@[simp] theorem get?_erase_self (s : Store) (key : Bytes) : (s.erase key).get? key = none :=
  lookup_filter_self key s.pairs

theorem get?_erase_of_ne (s : Store) {key other : Bytes} (hne : other ≠ key) :
    (s.erase key).get? other = s.get? other := lookup_filter_of_ne hne s.pairs

/-! ## Properties of all pairs -/

def All (P : Bytes → Bytes → Prop) (s : Store) : Prop := ∀ p ∈ s.pairs, P p.1 p.2

namespace All

variable {P : Bytes → Bytes → Prop} {s : Store}

theorem empty : All P .empty := fun _ h => nomatch h

theorem get? (hs : s.All P) {key value : Bytes} (h : s.get? key = some value) : P key value :=
  hs (key, value) (Keyed.mem_of_lookup h)

theorem set (hs : s.All P) {key value : Bytes} (h : P key value) : (s.set key value).All P := by
  intro p hp
  rcases mem_insert hp with rfl | hp
  · exact h
  · exact hs p hp

theorem erase (hs : s.All P) (key : Bytes) : (s.erase key).All P :=
  fun p hp => hs p ((List.mem_filter.mp hp).1)

theorem eraseAll (hs : s.All P) (keys : List Bytes) : (keys.foldl Store.erase s).All P := by
  induction keys generalizing s with
  | nil => exact hs
  | cons key keys ih => exact ih (hs.erase key)

theorem prune (hs : s.All P) (f : Fingerprint) : (s.prune f).2.All P := hs.eraseAll _

end All

end StackCode.Cache.Store
