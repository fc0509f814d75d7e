import StackCode.Proofs.Cache.Pruning

/-!
# The range of a beginning

In lexicographic order the byte strings with a common beginning stand next to each other. The
beginning itself is the first of them. Where they end follows from its bytes alone: those at its
back that cannot grow are dropped, and the byte in front of them grows by one. A beginning of which
no byte can grow has no end, and all strings from it on begin with it.
-/
namespace StackCode.Cache

/-! ## The end of a beginning -/

theorem prefixEnd_eq_none_iff (p : Bytes) : prefixEnd p = none ↔ ∀ b ∈ p, b = 0xff := by
  induction p with
  | nil => simp [prefixEnd]
  | cons b bs ih =>
      rw [List.forall_mem_cons, ← ih, prefixEnd]
      cases prefixEnd bs with
      | some e => simp
      | none => simp

/-- `e` is `p` with its last byte that can grow made larger by one, and nothing behind it. -/
def Carried (p e : Bytes) : Prop :=
  ∃ lead b full, p = lead ++ b :: full ∧ b ≠ 0xff ∧ (∀ c ∈ full, c = 0xff) ∧ e = lead ++ [b + 1]

theorem prefixEnd_append {b : UInt8} (hb : b ≠ 0xff) (lead : Bytes) {full : Bytes}
    (hfull : ∀ c ∈ full, c = 0xff) :
    prefixEnd (lead ++ b :: full) = some (lead ++ [b + 1]) := by
  induction lead with
  | nil =>
      rw [List.nil_append, prefixEnd, (prefixEnd_eq_none_iff full).mpr hfull]
      exact if_neg hb
  | cons c lead ih => rw [List.cons_append, prefixEnd, ih, List.cons_append]

theorem carried_of_prefixEnd {p e : Bytes} (h : prefixEnd p = some e) : Carried p e := by
  induction p generalizing e with
  | nil => cases h
  | cons b bs ih =>
      rw [prefixEnd] at h
      cases hbs : prefixEnd bs with
      | some e' =>
          rw [hbs] at h
          cases h
          obtain ⟨lead, c, full, rfl, hc, hfull, rfl⟩ := ih hbs
          exact ⟨b :: lead, c, full, rfl, hc, hfull, rfl⟩
      | none =>
          -- the rest cannot grow, so it is the first byte that does
          simp only [hbs, Option.ite_none_left_eq_some, Option.some.injEq] at h
          exact ⟨[], b, bs, rfl, h.1, (prefixEnd_eq_none_iff bs).mp hbs, h.2.symm⟩

theorem prefixEnd_eq_some_iff (p e : Bytes) : prefixEnd p = some e ↔ Carried p e := by
  constructor
  · exact carried_of_prefixEnd
  · intro h
    obtain ⟨lead, b, full, rfl, hb, hfull, rfl⟩ := h
    exact prefixEnd_append hb lead hfull

/-! ## Between a beginning and its end -/

theorem prefix_iff (p k : Bytes) : p <+: k ↔ p ≤ k ∧ ∀ e, prefixEnd p = some e → k < e := by
  rw [← inRange_prefixEnd, Store.inRange_iff]
  rfl

/-- No string in front of the end is above all that begin with `p`. -/
theorem prefixEnd_le {p e u : Bytes} (he : prefixEnd p = some e) (h : ∀ k, p <+: k → k < u) :
    e ≤ u := by
  intro hu
  have hlow : p ≤ u := List.le_of_lt (h p (List.prefix_refl p))
  have hbegins : p <+: u := (prefix_iff p u).mpr ⟨hlow, fun e' he' => by
    rw [he] at he'
    cases he'
    exact hu⟩
  exact List.lt_irrefl u (h u hbegins)

/-- The byte strings that begin with `p` are those from `p` on, up to the end of `p` if it has
one. It has none exactly if it is empty or all its bytes are the last one. The end of any other `p`
is `p` with one byte grown and cut behind it, and no smaller string is above all that begin with
`p`. -/
theorem beginnings_fill_range (p : Bytes) :
    (∀ k, p <+: k ↔ p ≤ k ∧ (prefixEnd p = none ∨ ∃ e, prefixEnd p = some e ∧ k < e)) ∧
      (prefixEnd p = none ↔ p = [] ∨ ∀ b ∈ p, b = 0xff) ∧
      (∀ e, prefixEnd p = some e ↔ Carried p e) ∧
      ∀ e u, prefixEnd p = some e → (∀ k, p <+: k → k < u) → e ≤ u := by
  refine ⟨fun k => ?_, ?_, prefixEnd_eq_some_iff p, fun e u => prefixEnd_le⟩
  · rw [prefix_iff]
    cases prefixEnd p with
    | none => simp
    | some e => simp
  · rw [prefixEnd_eq_none_iff]
    constructor
    · exact .inr
    · intro h
      rcases h with rfl | h
      · exact fun b hb => nomatch hb
      · exact h

/-- Bytes that cannot grow are dropped, and a beginning of nothing else has no end. -/
example : prefixEnd [0x6e, 0xff, 0xff] = some [0x6f] ∧ prefixEnd [0xff, 0xff] = none := by decide

end StackCode.Cache
