import Mathlib.Data.List.Basic

/-!
# Histories

What is done to a draft, a store or a piece of memory is a list of events, the first one in
front. An event with what came before it and behind it is a way to cut the list.
-/
namespace StackCode.Histories

/-- An event of a history is its last one, or one of the history before that. -/
theorem append_cons_eq_concat {α : Type} {before later events : List α} {x last : α} :
    before ++ x :: later = events ++ [last] ↔
      (before = events ∧ x = last ∧ later = []) ∨
        ∃ rest, later = rest ++ [last] ∧ before ++ x :: rest = events := by
  constructor
  · intro h
    rcases List.eq_nil_or_concat later with rfl | ⟨rest, y, rfl⟩
    · obtain ⟨hfront, hlast⟩ := List.append_inj' h rfl
      exact .inl ⟨hfront, (List.cons.inj hlast).1, rfl⟩
    · rw [List.concat_eq_append, ← List.cons_append, ← List.append_assoc] at h
      obtain ⟨hfront, hlast⟩ := List.append_inj' h rfl
      rw [List.concat_eq_append, (List.cons.inj hlast).1]
      exact .inr ⟨rest, rfl, hfront⟩
  · rintro (⟨rfl, rfl, rfl⟩ | ⟨rest, rfl, rfl⟩)
    · rfl
    · rw [List.append_assoc, List.cons_append]

theorem mem_later_of_split {α : Type} {before later front back : List α} {a b : α}
    (hsplit : before ++ a :: later = front ++ b :: back) (hab : b ≠ a) (hlater : b ∉ later) :
    a ∈ back := by
  rcases List.append_eq_append_iff.mp hsplit with ⟨middle, -, hrest⟩ | ⟨middle, -, hrest⟩
  · cases middle with
    | nil => exact absurd (List.cons.inj hrest).1.symm hab
    | cons c middle =>
        rw [(List.cons.inj hrest).2] at hlater
        exact absurd (List.mem_append_right _ List.mem_cons_self) hlater
  · cases middle with
    | nil => exact absurd (List.cons.inj hrest).1 hab
    | cons c middle =>
        rw [(List.cons.inj hrest).2]
        exact List.mem_append_right _ List.mem_cons_self

end StackCode.Histories
