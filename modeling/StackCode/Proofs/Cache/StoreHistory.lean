import StackCode.Proofs.Cache.Entries
import StackCode.Proofs.Cache.Store
import StackCode.Proofs.Histories

/-!
# What is put into a store comes back

Entries are put under keys, deleted and asked for, in any order and any number of times. A key
gives the entry that was put under it last, with all its fields, if the image has the length
that the entry states. An entry whose image has another length is refused. There is nothing
under a key if no entry was put there since the last deletion, and what is done to other keys
does not matter.
-/
namespace StackCode.Cache

inductive Operation where
  | put (key : Bytes) (e : Entry)
  | delete (key : Bytes)
  | get (key : Bytes)
deriving DecidableEq, Repr

/-- Can the operation change what is under the key? -/
def Operation.touches (key : Bytes) : Operation → Bool
  | .put k _ | .delete k => k == key
  | .get _ => false

def Entry.Consistent (e : Entry) : Prop := ((e.image.getD []).length : Int) = e.nativeLen.toInt

namespace Store

def perform (s : Store) : Operation → Store
  | .put key e => s.putEntry key e
  | .delete key => s.erase key
  | .get _ => s

def after (s : Store) (history : List Operation) : Store := history.foldl perform s

variable {s t : Store} {key : Bytes}

/-! ## One key among others -/

theorem get?_perform_of_not_touches {op : Operation} (h : op.touches key = false) :
    (s.perform op).get? key = s.get? key := by
  cases op with
  | put k e => exact s.get?_set_of_ne (Ne.symm (ne_of_beq_false h)) e.encode
  | delete k => exact s.get?_erase_of_ne (Ne.symm (ne_of_beq_false h))
  | get k => rfl

theorem get?_after_of_untouched {history : List Operation}
    (h : ∀ op ∈ history, op.touches key = false) : (s.after history).get? key = s.get? key := by
  induction history generalizing s with
  | nil => rfl
  | cons op history ih =>
      have hrest := ih (s := s.perform op) fun op' hop' => h op' (List.mem_cons_of_mem op hop')
      exact hrest.trans (get?_perform_of_not_touches (h op List.mem_cons_self))

theorem get?_perform_congr (h : s.get? key = t.get? key) (op : Operation) :
    (s.perform op).get? key = (t.perform op).get? key := by
  by_cases htouch : op.touches key = true
  · cases op with
    | put k e =>
        obtain rfl := eq_of_beq htouch
        exact (s.get?_set_self k _).trans (t.get?_set_self k _).symm
    | delete k =>
        obtain rfl := eq_of_beq htouch
        exact (s.get?_erase_self k).trans (t.get?_erase_self k).symm
    | get k => exact h
  · have hno := Bool.eq_false_iff.mpr htouch
    rw [get?_perform_of_not_touches hno, get?_perform_of_not_touches hno, h]

/-- Only the operations that touch a key count for it. -/
theorem get?_after_filter (h : s.get? key = t.get? key) (history : List Operation) :
    (s.after history).get? key = (t.after (history.filter (·.touches key))).get? key := by
  induction history generalizing s t with
  | nil => exact h
  | cons op history ih =>
      by_cases htouch : op.touches key = true
      · rw [List.filter_cons_of_pos htouch]
        exact ih (get?_perform_congr h op)
      · rw [List.filter_cons_of_neg htouch]
        exact ih ((get?_perform_of_not_touches (Bool.eq_false_iff.mpr htouch)).trans h)

/-! ## What a history leaves under a key -/

/-- What the last operation on a key has left there. -/
inductive Standing (key : Bytes) : List Operation → Option Entry → Prop
  | untouched {history : List Operation} :
      (∀ op ∈ history, op.touches key = false) → Standing key history none
  | put (before : List Operation) {later : List Operation} {e : Entry} :
      (∀ op ∈ later, op.touches key = false) →
      Standing key (before ++ .put key e :: later) (some e)
  | deleted (before : List Operation) {later : List Operation} :
      (∀ op ∈ later, op.touches key = false) →
      Standing key (before ++ .delete key :: later) none

theorem exists_standing (key : Bytes) (history : List Operation) :
    ∃ found, Standing key history found := by
  induction history with
  | nil => exact ⟨none, .untouched fun _ hop => nomatch hop⟩
  | cons op history ih =>
      obtain ⟨found, hstands⟩ := ih
      -- The operation in front decides only if nothing behind it touches the key.
      cases hstands with
      | untouched hno =>
          by_cases htouch : op.touches key = true
          · cases op with
            | put k e =>
                obtain rfl := eq_of_beq htouch
                exact ⟨some e, Standing.put [] hno⟩
            | delete k =>
                obtain rfl := eq_of_beq htouch
                exact ⟨none, Standing.deleted [] hno⟩
            | get k => cases htouch
          · refine ⟨none, .untouched fun op' hop' => ?_⟩
            rcases List.mem_cons.mp hop' with rfl | hop'
            · exact Bool.eq_false_iff.mpr htouch
            · exact hno op' hop'
      | put before hno => exact ⟨_, Standing.put (op :: before) hno⟩
      | deleted before hno => exact ⟨_, Standing.deleted (op :: before) hno⟩

theorem after_append (before later : List Operation) :
    s.after (before ++ later) = (s.after before).after later := List.foldl_append

theorem Standing.get? {history : List Operation} {found : Option Entry}
    (h : Standing key history found) :
    (empty.after history).get? key = found.map Entry.encode := by
  cases h with
  | untouched hno => exact get?_after_of_untouched hno
  | put before hno =>
      rw [after_append]
      exact (get?_after_of_untouched hno).trans (get?_set_self _ _ _)
  | deleted before hno =>
      rw [after_append]
      exact (get?_after_of_untouched hno).trans (get?_erase_self _ _)

theorem Standing.eq_none_iff {history : List Operation} {found : Option Entry}
    (h : Standing key history found) :
    found = none ↔
      ∀ before e later, history = before ++ .put key e :: later → .delete key ∈ later := by
  have hput (e : Entry) : (Operation.put key e).touches key = true := beq_self_eq_true key
  have hdelete : (Operation.delete key).touches key = true := beq_self_eq_true key
  cases h with
  | untouched hno =>
      refine iff_of_true rfl fun before e later hsplit => ?_
      have hcontra := hno (.put key e) (by rw [hsplit]; simp)
      rw [hput] at hcontra
      cases hcontra
  | @put before later e hno =>
      refine iff_of_false (fun hnone => nomatch hnone) fun hall => ?_
      have hcontra := hno _ (hall before e later rfl)
      rw [hdelete] at hcontra
      cases hcontra
  | deleted before hno =>
      refine iff_of_true rfl fun front e back hsplit => ?_
      refine Histories.mem_later_of_split hsplit (fun heq => nomatch heq) fun hmem => ?_
      have hcontra := hno _ hmem
      rw [hput] at hcontra
      cases hcontra

/-! ## Entries -/

theorem entry_eq_ok_none_iff : s.entry key = .ok none ↔ s.get? key = none := by
  unfold entry
  split
  next hnone => exact iff_of_true rfl hnone
  next value hsome =>
    refine iff_of_false ?_ (by rw [hsome]; exact fun h => nomatch h)
    split
    next => exact fun h => nomatch h
    next =>
      simp only
      split <;> exact fun h => nomatch h

theorem entry_of_encode {e : Entry} (hget : s.get? key = some e.encode)
    (hf : e.fixups.length ≤ Cbor.maxElements) (he : e.Consistent) :
    s.entry key = .ok (some e) := by
  have hlength : (e.image.getD []).length < 2 ^ 64 := by
    have hfit := e.nativeLen.toInt_lt
    unfold Entry.Consistent at he
    omega
  simp only [entry, hget, Entry.decode_encode hf hlength]
  exact if_pos he

/-- Any other entry that was written is refused, also if its image is too long to be written. -/
theorem entry_of_encode_of_not {e : Entry} (hget : s.get? key = some e.encode)
    (hf : e.fixups.length ≤ Cbor.maxElements) (he : ¬ e.Consistent) :
    ∃ fault, s.entry key = .error fault := by
  by_cases hlength : (e.image.getD []).length < 2 ^ 64
  · simp only [entry, hget, Entry.decode_encode hf hlength]
    exact ⟨_, if_neg he⟩
  · simp only [entry, hget, Entry.decode_encode_of_overlong hf (Nat.not_lt.mp hlength)]
    exact ⟨_, rfl⟩

theorem entry_congr (h : s.get? key = t.get? key) : s.entry key = t.entry key := by
  rw [entry, entry, h]

/-- What a store that was empty gives under a key after a history. -/
structure Recalls (key : Bytes) (history : List Operation) : Prop where
  /-- There is nothing just if every put was followed by a deletion. -/
  miss_iff : (empty.after history).entry key = .ok none ↔
    ∀ before e later, history = before ++ .put key e :: later → .delete key ∈ later
  /-- Otherwise there is a last put, with no deletion behind it. -/
  last_put : (empty.after history).entry key ≠ .ok none →
    ∃ before e later, history = before ++ .put key e :: later ∧
      ∀ op ∈ later, op.touches key = false
  /-- What was put last is given back as a whole. -/
  hit : ∀ before e later, history = before ++ .put key e :: later →
    (∀ op ∈ later, op.touches key = false) → e.fixups.length ≤ Cbor.maxElements →
    e.Consistent → (empty.after history).entry key = .ok (some e)
  /-- An image of another length than stated is never given out. -/
  fault : ∀ before e later, history = before ++ .put key e :: later →
    (∀ op ∈ later, op.touches key = false) → e.fixups.length ≤ Cbor.maxElements →
    ¬ e.Consistent → ∃ f, (empty.after history).entry key = .error f
  /-- Only the operations on the key count. -/
  others : ∀ history' : List Operation,
    history'.filter (·.touches key) = history.filter (·.touches key) →
    (empty.after history').entry key = (empty.after history).entry key

/-- After any history of puts, deletions and questions, a store gives under every key what was put
there last. -/
theorem store_recalls (history : List Operation) (key : Bytes) : Recalls key history where
  miss_iff := by
    obtain ⟨found, hstands⟩ := exists_standing key history
    rw [entry_eq_ok_none_iff, hstands.get?, Option.map_eq_none_iff, hstands.eq_none_iff]
  last_put hfound := by
    obtain ⟨found, hstands⟩ := exists_standing key history
    rw [Ne, entry_eq_ok_none_iff, hstands.get?, Option.map_eq_none_iff] at hfound
    cases hstands with
    | untouched hno => exact absurd rfl hfound
    | put before hno => exact ⟨before, _, _, rfl, hno⟩
    | deleted before hno => exact absurd rfl hfound
  hit before e later hsplit hno hf he := by
    subst hsplit
    exact entry_of_encode (Standing.put before hno).get? hf he
  fault before e later hsplit hno hf he := by
    subst hsplit
    exact entry_of_encode_of_not (Standing.put before hno).get? hf he
  others history' hsame := by
    apply entry_congr
    rw [get?_after_filter rfl history', get?_after_filter rfl history, hsame]

def extremes : Entry :=
  ⟨.zero, Int64.minValue, 1, Int64.maxValue, -1, [⟨Int64.maxValue, Int64.minValue⟩], some [0xc3]⟩

/-- An entry that promises a longer image than it has. -/
def shortened : Entry := { extremes with nativeLen := 2 }

/-- An entry is replaced under one key, put and deleted under another, and put under a third. -/
def threeKeys : List Operation :=
  [.put [1] shortened, .put [2] extremes, .put [1] extremes, .delete [2], .get [1],
    .put [3] shortened]

theorem store_recalls_three_keys :
    (empty.after threeKeys).entry [1] = .ok (some extremes) ∧
      (empty.after threeKeys).entry [2] = .ok none ∧
      ∃ fault, (empty.after threeKeys).entry [3] = .error fault := by
  have hfew : extremes.fixups.length ≤ Cbor.maxElements := by decide
  refine ⟨?_, ?_, ?_⟩
  · exact (store_recalls threeKeys [1]).hit [.put [1] shortened, .put [2] extremes] extremes _ rfl
      (by simp [Operation.touches]) hfew rfl
  · rw [← (store_recalls threeKeys [2]).others [.put [2] extremes, .delete [2]] rfl]
    exact entry_eq_ok_none_iff.mpr rfl
  · exact (store_recalls threeKeys [3]).fault threeKeys.dropLast shortened [] rfl
      (fun _ hop => nomatch hop) hfew
      (by decide : ¬ ((1 : Nat) : Int) = 2)

end Store

end StackCode.Cache
