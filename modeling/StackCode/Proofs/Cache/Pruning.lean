import Mathlib.Data.List.Nodup
import StackCode.Cache.Store
import StackCode.Proofs.Cache.Entries
import StackCode.Proofs.Keyed

/-!
# What pruning leaves

Pruning looks at the keys between the beginning of all keys of images and the least key above
them, and these are just the keys with that beginning. It gathers the stale ones and then erases
them one by one. Since no key is in a store twice, what is left are the pairs under other keys and
the entries of the fingerprint.
-/
namespace StackCode.Cache

/-! ## Keys with a common beginning -/

theorem Store.inRange_iff (lo : Bytes) (hi : Option Bytes) (k : Bytes) :
    inRange lo hi k = true ↔ ¬ k < lo ∧ ∀ e ∈ hi, k < e := by
  cases hi with
  | none => simp [inRange]
  | some e => simp [inRange]

theorem lt_succ_iff {b c : UInt8} (h : b ≠ 0xff) : c < b + 1 ↔ ¬ b < c := by
  have hb := b.toNat_lt
  have hlast : b.toNat ≠ 255 := fun heq => h (UInt8.toNat_inj.mp heq)
  have hnext : (b + 1).toNat = b.toNat + 1 := by
    rw [UInt8.toNat_add]
    exact Nat.mod_eq_of_lt (by simp; omega)
  rw [UInt8.lt_iff_toNat_lt, UInt8.lt_iff_toNat_lt, hnext]
  omega

/-- Where the rest of a beginning has no end, its first byte bounds the keys above. -/
theorem lt_end_iff (b c : UInt8) (cs : Bytes) :
    (∀ e ∈ (if b = 0xff then none else some [b + 1] : Option Bytes), c :: cs < e) ↔ ¬ b < c := by
  split
  next hlast =>
    subst hlast
    have hc : ¬ (0xff : UInt8) < c := UInt8.not_lt.mpr (UInt8.le_iff_toNat_le.mpr (by
      have := c.toNat_lt
      simp
      omega))
    simp [hc]
  next hnext =>
    simp only [Option.mem_some_iff, forall_eq', List.cons_lt_cons_iff, List.not_lt_nil, and_false,
      or_false]
    exact lt_succ_iff hnext

/-- The byte strings from `p` up to the end of `p` are those that begin with `p`. -/
theorem inRange_prefixEnd (p k : Bytes) :
    Store.inRange p (prefixEnd p) k = true ↔ p <+: k := by
  rw [Store.inRange_iff]
  induction p generalizing k with
  | nil => simp [prefixEnd]
  | cons b bs ih =>
      cases k with
      | nil => simp
      | cons c cs =>
          -- not in front of `p`: the first byte is larger, or the same and the rest decides
          have hlow : ¬ (c :: cs < b :: bs) ↔ ¬ c < b ∧ (b = c → ¬ cs < bs) := by
            rw [List.cons_lt_cons_iff]
            grind
          rw [List.cons_prefix_cons, ← ih cs, prefixEnd, hlow]
          cases prefixEnd bs with
          | some e =>
              simp only [Option.mem_some_iff, forall_eq', List.cons_lt_cons_iff]
              constructor
              · rintro ⟨⟨hcb, hrest⟩, hlt | ⟨rfl, hhigh⟩⟩
                · exact absurd hlt hcb
                · exact ⟨rfl, hrest rfl, hhigh⟩
              · rintro ⟨rfl, hrest, hhigh⟩
                exact ⟨⟨UInt8.lt_irrefl b, fun _ => hrest⟩, .inr ⟨rfl, hhigh⟩⟩
          | none =>
              rw [lt_end_iff]
              constructor
              · rintro ⟨⟨hcb, hrest⟩, hbc⟩
                have heq : b = c := UInt8.le_antisymm (UInt8.not_lt.mp hcb) (UInt8.not_lt.mp hbc)
                exact ⟨heq, hrest heq, by simp⟩
              · rintro ⟨rfl, hrest, -⟩
                exact ⟨⟨UInt8.lt_irrefl b, fun _ => hrest⟩, UInt8.lt_irrefl b⟩

/-! ## Pairs -/

namespace Store

/-- A pair that pruning leaves: not one of the images, or an entry of the fingerprint. -/
def Kept (f : Fingerprint) (key value : Bytes) : Prop :=
  ¬ keySpace <+: key ∨ ∃ e, Entry.decode value = some e ∧ e.fingerprint = f

theorem isCurrent_iff (f : Fingerprint) (value : Bytes) :
    isCurrent f value = true ↔ ∃ e, Entry.decode value = some e ∧ e.fingerprint = f := by
  simp [isCurrent, Option.any_eq_true]

theorem isStale_iff (f : Fingerprint) (p : Bytes × Bytes) :
    isStale f p = true ↔ ¬ Kept f p.1 p.2 := by
  rw [isStale, Bool.and_eq_true, inRange_prefixEnd, Bool.not_eq_true', ← Bool.not_eq_true,
    isCurrent_iff, Kept, not_or, not_not]

variable {s : Store}

theorem pairs_eraseAll (keys : List Bytes) :
    (keys.foldl erase s).pairs = s.pairs.filter fun p => p.1 ∉ keys := by
  induction keys generalizing s with
  | nil => simp
  | cons key keys ih =>
      rw [List.foldl_cons, ih, erase, List.filter_filter]
      refine List.filter_congr fun p _ => ?_
      simp [Bool.and_comm]

theorem nodup_keys (s : Store) : s.keys.Nodup := by
  refine List.pairwise_map.mpr (s.ascending.imp fun {p q} hlt => ?_)
  exact fun heq => List.lt_irrefl q.1 (heq ▸ hlt)

/-- A key under which there is a stale pair is the key of no other pair. -/
theorem mem_staleKeys {f : Fingerprint} {p : Bytes × Bytes}
    (hp : p ∈ s.pairs) : p.1 ∈ s.staleKeys f ↔ isStale f p = true := by
  rw [staleKeys, List.mem_map]
  constructor
  · rintro ⟨q, hq, hkey⟩
    obtain ⟨hq, hstale⟩ := List.mem_filter.mp hq
    rwa [← List.inj_on_of_nodup_map s.nodup_keys hq hp hkey]
  · intro hstale
    exact ⟨p, List.mem_filter.mpr ⟨hp, hstale⟩, rfl⟩

theorem pairs_prune (f : Fingerprint) :
    (s.prune f).2.pairs = s.pairs.filter fun p => !isStale f p := by
  have hleft : (s.prune f).2.pairs = s.pairs.filter fun p => p.1 ∉ s.staleKeys f :=
    pairs_eraseAll _
  rw [hleft]
  refine List.filter_congr fun p hp => ?_
  rw [Bool.eq_iff_iff, decide_eq_true_iff, mem_staleKeys hp, Bool.not_eq_true',
    Bool.not_eq_true]

theorem length_prune (f : Fingerprint) :
    (s.prune f).1 = (s.pairs.filter (isStale f)).length := List.length_map _

theorem get?_eq_some_iff {key value : Bytes} :
    s.get? key = some value ↔ (key, value) ∈ s.pairs := by
  refine Keyed.lookup_eq_some_iff_mem fun v w hv hw => ?_
  exact (Prod.mk.inj (List.inj_on_of_nodup_map s.nodup_keys hv hw rfl)).2

theorem get?_prune (f : Fingerprint) (key value : Bytes) :
    (s.prune f).2.get? key = some value ↔ s.get? key = some value ∧ Kept f key value := by
  have hkept : isStale f (key, value) = false ↔ Kept f key value := by
    rw [← Bool.not_eq_true, isStale_iff, not_not]
  rw [get?_eq_some_iff, get?_eq_some_iff, pairs_prune,
    List.mem_filter, Bool.not_eq_true', hkept]

theorem prune_prune (f : Fingerprint) :
    (s.prune f).2.prune f = (0, (s.prune f).2) := by
  have hnone : (s.prune f).2.staleKeys f = [] := by
    rw [staleKeys, pairs_prune, List.filter_filter, List.map_eq_nil_iff,
      List.filter_eq_nil_iff]
    simp
  conv_lhs => rw [prune, hnone]
  rfl

/-- The least key above the keys of images. -/
def spaceEnd : Bytes := "native0".toList.map fun c => UInt8.ofNat c.toNat

theorem not_prefix_of_outside {key : Bytes} (h : key < keySpace ∨ ¬ key < spaceEnd) :
    ¬ keySpace <+: key := by
  have hend : prefixEnd keySpace = some spaceEnd := by decide
  rw [← inRange_prefixEnd, inRange_iff, hend]
  rintro ⟨hlow, hhigh⟩
  rcases h with h | h
  · exact hlow h
  · exact h (hhigh spaceEnd rfl)

/-- Pruning leaves the pairs that are no images and the entries of the fingerprint, in their
order, and removes as many pairs as it says. Pruning again removes nothing, and keys in front of
those of images or behind them are not touched. -/
theorem prune_removes_stale (s : Store) (f : Fingerprint) :
    (∀ key value, (s.prune f).2.get? key = some value ↔
        s.get? key = some value ∧ Kept f key value) ∧
      (s.prune f).2.pairs.Sublist s.pairs ∧
      (s.prune f).1 + (s.prune f).2.pairs.length = s.pairs.length ∧
      (s.prune f).2.prune f = (0, (s.prune f).2) ∧
      ∀ key, key < keySpace ∨ ¬ key < spaceEnd → (s.prune f).2.get? key = s.get? key := by
  refine ⟨get?_prune f, ?_, ?_, prune_prune f, fun key hkey => ?_⟩
  · rw [pairs_prune]
    exact List.filter_sublist
  · rw [pairs_prune, length_prune, ← List.length_eq_length_filter_add]
  · refine Option.ext fun value => ?_
    rw [get?_prune]
    exact and_iff_left (.inl (not_prefix_of_outside hkey))

/-- An entry and a value that is none under keys of images, and another value behind them. -/
def mixed : Store :=
  ⟨[(keySpace, Entry.zero.encode), (keySpace ++ [0], []), (spaceEnd, [])], by decide⟩

theorem prune_removes_stale_mixed :
    (mixed.prune .zero).2.get? keySpace = some Entry.zero.encode ∧
      (mixed.prune .zero).2.get? (keySpace ++ [0]) = none ∧
      (mixed.prune .zero).2.get? spaceEnd = some [] := by
  have hread : Entry.decode Entry.zero.encode = some Entry.zero :=
    Entry.decode_encode (by decide) (by decide)
  obtain ⟨hget, -, -, -, hout⟩ := prune_removes_stale mixed .zero
  refine ⟨?_, ?_, ?_⟩
  · exact (hget keySpace _).mpr ⟨rfl, .inr ⟨Entry.zero, hread, rfl⟩⟩
  · refine Option.eq_none_iff_forall_ne_some.mpr fun value h => ?_
    obtain ⟨hvalue, hno | ⟨e, he, -⟩⟩ := (hget _ value).mp h
    · exact hno (List.prefix_append _ _)
    · cases hvalue
      cases he
  · exact (hout spaceEnd (.inr (by decide))).trans rfl

end Store

end StackCode.Cache
