import Mathlib.Tactic.SplitIfs
import StackCode.Settings.Basic

/-!
# One setting at a time

A flag and a member of a file each put a value into one setting and leave the others alone. So
of many values for a setting the last one counts, whatever stands between them. A file can be
taken in if every member with a setting's name is null or states a value for that setting.
-/
namespace StackCode.Settings

/-! ## Values -/

/-- What a flag takes. -/
abbrev Flag.Value : Flag → Type
  | .configPath | .cacheDir | .listing | .output => String
  | .cachePrune | .list | .verbose => Bool
  | .ramBase => UInt64
  | .ramSize => Int64

/-- The value that an assignment gives to a flag. -/
def Assignment.value? : (f : Flag) → Assignment → Option f.Value
  | .configPath, .configPath v => some v
  | .cacheDir, .cacheDir v => some v
  | .cachePrune, .cachePrune v => some v
  | .list, .list v => some v
  | .listing, .listing v => some v
  | .output, .output v => some v
  | .ramBase, .ramBase v => some v
  | .ramSize, .ramSize v => some v
  | .verbose, .verbose v => some v
  | _, _ => none

theorem Assignment.value?_of_ne {f : Flag} {a : Assignment} (h : a.flag ≠ f) :
    a.value? f = none := by
  cases f <;> cases a <;> first | rfl | exact absurd rfl h

inductive Setting where
  | cacheDir
  | cachePrune
  | ramBase
  | ramSize
  | listing
  | output
  | verbose
  | list
deriving DecidableEq, Repr

def Setting.flag : Setting → Flag
  | .cacheDir => .cacheDir
  | .cachePrune => .cachePrune
  | .ramBase => .ramBase
  | .ramSize => .ramSize
  | .listing => .listing
  | .output => .output
  | .verbose => .verbose
  | .list => .list

def get (s : Settings) : (k : Setting) → k.flag.Value
  | .cacheDir => s.cacheDir
  | .cachePrune => s.cachePrune
  | .ramBase => s.ramBase
  | .ramSize => s.ramSize
  | .listing => s.listing
  | .output => s.output
  | .verbose => s.verbose
  | .list => s.list

def set (s : Settings) : (k : Setting) → k.flag.Value → Settings
  | .cacheDir, v => { s with cacheDir := v }
  | .cachePrune, v => { s with cachePrune := v }
  | .ramBase, v => { s with ramBase := v }
  | .ramSize, v => { s with ramSize := v }
  | .listing, v => { s with listing := v }
  | .output, v => { s with output := v }
  | .verbose, v => { s with verbose := v }
  | .list, v => { s with list := v }

theorem eq_of_get {s t : Settings} (h : ∀ k, s.get k = t.get k) : s = t := by
  cases s
  cases t
  rw [Settings.mk.injEq]
  exact ⟨h .cacheDir, h .cachePrune, h .ramBase, h .ramSize, h .listing, h .output, h .verbose,
    h .list⟩

@[simp] theorem get_set_self (s : Settings) (k : Setting) (v : k.flag.Value) :
    (s.set k v).get k = v := by
  cases k <;> rfl

theorem get_set_of_ne (s : Settings) {k j : Setting} (h : j ≠ k) (v : k.flag.Value) :
    (s.set k v).get j = s.get j := by
  cases k <;> cases j <;> first | rfl | exact absurd rfl h

/-! ## The last value counts -/

section
variable {α β σ : Type} (view : σ → β) (value? : α → Option β)

/-- Where each step puts in the value it has, if any, the last value stays. -/
theorem view_foldlM {step? : σ → α → Option σ}
    (hstep : ∀ {s x t}, step? s x = some t → view t = (value? x).getD (view s))
    {xs : List α} {s t : σ} (h : xs.foldlM step? s = some t) :
    view t = (xs.filterMap value?).getLast?.getD (view s) := by
  induction xs generalizing s with
  | nil =>
      cases h
      rfl
  | cons x xs ih =>
      rw [List.foldlM_cons] at h
      obtain ⟨u, hu, ht⟩ := Option.bind_eq_some_iff.mp h
      rw [ih ht, hstep hu]
      cases hx : value? x with
      | none => rw [List.filterMap_cons_none hx, Option.getD_none]
      | some v => rw [List.filterMap_cons_some hx, List.getLast?_cons, Option.getD_some,
          Option.getD_some]

theorem view_foldl {step : σ → α → σ}
    (hstep : ∀ s x, view (step s x) = (value? x).getD (view s)) (xs : List α) (s : σ) :
    view (xs.foldl step s) = (xs.filterMap value?).getLast?.getD (view s) := by
  have hpure : xs.foldlM (fun s x => some (step s x)) s = some (xs.foldl step s) :=
    List.foldlM_pure
  refine view_foldlM view value? ?_ hpure
  rintro s x t ⟨⟩
  exact hstep s x

end

theorem get_assigned (k : Setting) (s : Settings) (a : Assignment) :
    (s.assigned a).get k = (a.value? k.flag).getD (s.get k) := by
  cases k <;> cases a <;> rfl

def last? (f : Flag) (as : List Assignment) : Option f.Value :=
  (as.filterMap (Assignment.value? f)).getLast?

theorem get_foldl_assigned (k : Setting) (as : List Assignment) (s : Settings) :
    (as.foldl assigned s).get k = (last? k.flag as).getD (s.get k) :=
  view_foldl (fun s => s.get k) (Assignment.value? k.flag) (get_assigned k) as s

theorem configPath_eq (a : Arguments) :
    a.configPath = (last? .configPath a.assignments).getD "" := by
  refine view_foldl id (Assignment.value? .configPath) (fun path x => ?_) a.assignments ""
  cases x <;> rfl

/-! ## Members of a file -/

namespace Setting

/-- The name of a setting in a file. One setting has none. -/
def key? : Setting → Option String
  | .cacheDir => some "cache_dir"
  | .cachePrune => some "cache_prune"
  | .ramBase => some "ram_base"
  | .ramSize => some "ram_size"
  | .listing => some "listing"
  | .output => some "output"
  | .verbose => some "verbose"
  | .list => none

/-- Whether a member has the name of a setting, in upper or lower case. -/
def names (k : Setting) (m : String × Json) : Bool :=
  k.key?.any fun key => folded m.1 == key.toList

def stated? : (k : Setting) → Json → Option k.flag.Value
  | .cacheDir, .string s => some s
  | .cachePrune, .bool b => some b
  | .ramBase, .number t => word? 0 (.number t)
  | .ramSize, .number t => int? 0 (.number t)
  | .listing, .string s => some s
  | .output, .string s => some s
  | .verbose, .bool b => some b
  | _, _ => none

def entry? (k : Setting) (m : String × Json) : Option k.flag.Value :=
  if k.names m then k.stated? m.2 else none

theorem names_iff {j k : Setting} {m : String × Json} (hk : k.names m = true) :
    j.names m = true ↔ j = k := by
  constructor
  · intro hj
    obtain ⟨a, ha, hma⟩ := (Option.any_eq_true _ _).mp hj
    obtain ⟨b, hb, hmb⟩ := (Option.any_eq_true _ _).mp hk
    have hab : a = b := by
      rw [← String.toList_inj, ← beq_iff_eq.mp hma, ← beq_iff_eq.mp hmb]
    have hkeys : j.key? = k.key? := by rw [ha, hb, hab]
    have hsome : j.key? ≠ none := by simp [ha]
    revert hkeys hsome
    cases j <;> cases k <;> decide
  · rintro rfl
    exact hk

theorem stated?_null (k : Setting) : k.stated? .null = none := by
  cases k <;> rfl

end Setting

/-- A member can be read if it has no setting's name, or is null, or states a value. -/
def Legible (m : String × Json) : Prop :=
  ∀ k : Setting, k.names m = true → m.2 = .null ∨ (k.stated? m.2).isSome = true

theorem member?_eq (s : Settings) (m : String × Json) :
    member? s m =
      if Setting.cacheDir.names m then (text? s.cacheDir m.2).map (s.set .cacheDir)
      else if Setting.cachePrune.names m then (bool? s.cachePrune m.2).map (s.set .cachePrune)
      else if Setting.ramBase.names m then (word? s.ramBase m.2).map (s.set .ramBase)
      else if Setting.ramSize.names m then (int? s.ramSize m.2).map (s.set .ramSize)
      else if Setting.listing.names m then (text? s.listing m.2).map (s.set .listing)
      else if Setting.output.names m then (text? s.output m.2).map (s.set .output)
      else if Setting.verbose.names m then (bool? s.verbose m.2).map (s.set .verbose)
      else some s := rfl

theorem member?_of_null {m : String × Json} (h : m.2 = .null) (s : Settings) :
    member? s m = some s := by
  rw [member?_eq, h]
  split_ifs <;> rfl

theorem member?_of_names {k : Setting} {m : String × Json} (hk : k.names m = true)
    (h : m.2 ≠ .null) (s : Settings) : member? s m = (k.stated? m.2).map (s.set k) := by
  have hnames : ∀ j : Setting, j.names m = decide (j = k) := fun j =>
    Bool.eq_iff_iff.mpr ((Setting.names_iff hk).trans decide_eq_true_iff.symm)
  rw [member?_eq]
  simp only [hnames]
  obtain ⟨name, j⟩ := m
  cases k with
  | list => cases hk
  | _ =>
      cases j with
      | null => exact absurd rfl h
      | _ => rfl

theorem member?_of_unnamed {m : String × Json} (h : ∀ k : Setting, k.names m = false)
    (s : Settings) : member? s m = some s := by
  rw [member?_eq]
  simp only [h, Bool.false_eq_true, if_false]

/-- A member that is taken in puts its value in, if it states one, and changes nothing else. -/
theorem get_member? (k : Setting) {s t : Settings} {m : String × Json}
    (h : member? s m = some t) : t.get k = (k.entry? m).getD (s.get k) := by
  unfold Setting.entry?
  by_cases hnamed : ∃ j : Setting, j.names m = true
  · obtain ⟨j, hj⟩ := hnamed
    -- Null keeps the old value: it is as if the member were not there.
    by_cases hnull : m.2 = .null
    · rw [member?_of_null hnull] at h
      cases h
      rw [hnull, Setting.stated?_null, ite_self, Option.getD_none]
    · rw [member?_of_names hj hnull] at h
      obtain ⟨v, hv, rfl⟩ := Option.map_eq_some_iff.mp h
      by_cases hkj : k = j
      · subst hkj
        rw [if_pos hj, hv, get_set_self, Option.getD_some]
      · have hk : ¬ k.names m = true := fun hk => hkj ((Setting.names_iff hj).mp hk)
        rw [if_neg hk, get_set_of_ne s hkj, Option.getD_none]
  · have hnone : ∀ j : Setting, j.names m = false := by simpa using hnamed
    rw [member?_of_unnamed hnone] at h
    cases h
    rw [hnone, if_neg Bool.false_ne_true, Option.getD_none]

theorem isSome_member?_iff (s : Settings) (m : String × Json) :
    (member? s m).isSome = true ↔ Legible m := by
  by_cases hnamed : ∃ j : Setting, j.names m = true
  · obtain ⟨j, hj⟩ := hnamed
    have hlegible : Legible m ↔ m.2 = .null ∨ (j.stated? m.2).isSome = true := by
      constructor
      · intro h
        exact h j hj
      · intro h k hk
        rwa [(Setting.names_iff hj).mp hk]
    rw [hlegible]
    by_cases hnull : m.2 = .null
    · rw [member?_of_null hnull]
      exact iff_of_true rfl (.inl hnull)
    · rw [member?_of_names hj hnull, Option.isSome_map, or_iff_right hnull]
  · have hnone : ∀ j : Setting, j.names m = false := by simpa using hnamed
    rw [member?_of_unnamed hnone]
    exact iff_of_true rfl fun k hk => absurd hk (by simp [hnone])

theorem isSome_foldlM_member?_iff (ms : List (String × Json)) (s : Settings) :
    (ms.foldlM member? s).isSome = true ↔ ∀ m ∈ ms, Legible m := by
  induction ms generalizing s with
  | nil => simp
  | cons m ms ih =>
      rw [List.foldlM_cons, List.forall_mem_cons, ← isSome_member?_iff s]
      cases member? s m with
      | none => simp
      | some t => simpa using ih t

def membersOf? (contents : Bytes) : Option (List (String × Json)) :=
  match Json.read? (Text.chars contents) with
  | some .null => some []
  | some (.object ms) => some ms
  | _ => none

theorem file?_eq (s : Settings) (contents : Bytes) :
    file? s contents = (membersOf? contents).bind fun ms => ms.foldlM member? s := by
  unfold file? membersOf?
  cases Json.read? (Text.chars contents) with
  | none => rfl
  | some j => cases j <;> rfl

end StackCode.Settings
