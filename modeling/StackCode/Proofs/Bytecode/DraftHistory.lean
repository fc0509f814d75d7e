import Mathlib.Data.List.Dedup
import Mathlib.Data.List.Induction
import StackCode.Proofs.Bytecode.DraftRefusals
import StackCode.Proofs.Histories

/-!
# What a draft makes of any requests

Calls come in any order and with any arguments, and between them the draft is asked to finish as
often as one likes. A refused call leaves nothing behind but its refusal, and the first refusal is
what the draft answers from then on. Without a refusal it finishes if the labels of all jumps are
bound by then, and else it names the label of the first jump whose label is not. To ask changes
nothing.
-/
namespace StackCode.Bytecode

/-! ## One call -/

def Call.binds? : Call → Option String
  | .label n => some n
  | _ => none

def Call.jumpsTo? : Call → Option String
  | .jump _ l => some l
  | _ => none

namespace Draft

/-- What an honoured call does to the labels, the pending jumps and the refusal. -/
structure Grows (d : Draft) (c : Call) (d' : Draft) : Prop where
  bound : d'.bound = c.binds?.toList ++ d.bound
  pending : d'.pending.map Prod.snd = d.pending.map Prod.snd ++ c.jumpsTo?.toList
  refusal : d'.refusal = d.refusal

theorem grows_append (d : Draft) (bs : Bytes) {c : Call} (hb : c.binds? = none)
    (hj : c.jumpsTo? = none) : d.Grows c (d.append bs) := by
  constructor
  · rw [hb]
    rfl
  · rw [hj]
    exact (List.append_nil _).symm
  · rfl

theorem grows_stackOp {d d' : Draft} {op : Opcode} {o : Operand} {c : Call}
    (hb : c.binds? = none) (hj : c.jumpsTo? = none) (h : d.stackOp op o = .ok d') :
    d.Grows c d' := by
  unfold stackOp at h
  split at h
  next =>
    split at h
    next => cases h
    next =>
      cases h
      exact d.grows_append _ hb hj
  next => cases h

theorem grows_of_attempt {d d' : Draft} {c : Call} (h : d.attempt c = .ok d') : d.Grows c d' := by
  cases c with
  | label n =>
      simp only [attempt, bind] at h
      split at h
      next => cases h
      next =>
        cases h
        exact ⟨rfl, (List.append_nil _).symm, rfl⟩
  | emit op =>
      simp only [attempt, emit] at h
      split at h
      next =>
        split at h
        next =>
          cases h
          exact d.grows_append _ rfl rfl
        next => cases h
      next => cases h
  | push o => exact grows_stackOp rfl rfl h
  | pop o => exact grows_stackOp rfl rfl h
  | jump op l =>
      simp only [attempt, jump] at h
      split at h
      next =>
        cases h
        exact ⟨rfl, List.map_append, rfl⟩
      next => cases h
  | jumpTo op t =>
      simp only [attempt, jumpTo] at h
      split at h
      next =>
        cases h
        exact d.grows_append _ rfl rfl
      next => cases h
  | raw bs =>
      cases h
      exact d.grows_append _ rfl rfl

theorem apply_of_refused {d : Draft} {c : Call} {r : Refusal} (h : c.Refused d.bound r) :
    d.apply c = d.refuse r := by
  rw [apply, attempt_eq_error_iff.mpr h]

theorem grows_apply {d : Draft} {c : Call} (h : ∀ r, ¬ c.Refused d.bound r) :
    d.Grows c (d.apply c) := by
  rw [apply]
  cases hc : d.attempt c with
  | ok d' => exact grows_of_attempt hc
  | error r => exact absurd (attempt_eq_error_iff.mp hc) (h r)

theorem refusal_apply {d : Draft} {r : Refusal} (h : d.refusal = some r) (c : Call) :
    (d.apply c).refusal = some r := by
  rw [apply]
  cases hc : d.attempt c with
  | ok d' => exact (grows_of_attempt hc).refusal.trans h
  | error r' => simp [refuse, h]

/-! ## Finishing -/

theorem resolve_of_unbound {labels : List (String × Nat)} {ps : List (Nat × String)} {n : String}
    (h : (ps.map Prod.snd).find? (fun l => (labels.lookup l).isNone) = some n) (code : Bytes) :
    resolve labels ps code = .error (.unboundLabel n) := by
  induction ps generalizing code with
  | nil => cases h
  | cons p ps ih =>
      rw [List.map_cons, List.find?_cons] at h
      rw [resolve]
      cases hp : labels.lookup p.2 with
      | none =>
          rw [hp] at h
          cases h
          rfl
      | some t =>
          rw [hp] at h
          exact ih h _

theorem exists_resolve {labels : List (String × Nat)} {ps : List (Nat × String)}
    (h : (ps.map Prod.snd).find? (fun l => (labels.lookup l).isNone) = none) (code : Bytes) :
    ∃ result, resolve labels ps code = .ok result := by
  induction ps generalizing code with
  | nil => exact ⟨code, rfl⟩
  | cons p ps ih =>
      rw [List.map_cons, List.find?_cons] at h
      rw [resolve]
      cases hp : labels.lookup p.2 with
      | none =>
          rw [hp] at h
          cases h
      | some t =>
          rw [hp] at h
          exact ih h _

/-! ## Any requests -/

/-- A request to a draft: a call, or to finish. -/
inductive Request where
  | call (c : Call)
  | finish
deriving DecidableEq, Repr

namespace Request

def call? : Request → Option Call
  | .call c => some c
  | .finish => none

def jumpsTo? (q : Request) : Option String := q.call?.bind Call.jumpsTo?

theorem jumpsTo?_eq_some_iff {q : Request} {n : String} :
    q.jumpsTo? = some n ↔ ∃ op, q = .call (.jump op n) := by
  constructor
  · intro h
    cases q with
    | finish => cases h
    | call c =>
        cases c with
        | jump op l =>
            cases h
            exact ⟨op, rfl⟩
        | _ => cases h
  · rintro ⟨op, rfl⟩
    rfl

end Request

/-- The draft after a request. To finish leaves it as it is. -/
def use (d : Draft) : Request → Draft
  | .call c => d.apply c
  | .finish => d

def after (requests : List Request) : Draft := requests.foldl use empty

theorem after_concat (requests : List Request) (q : Request) :
    after (requests ++ [q]) = (after requests).use q :=
  List.foldl_concat use empty q requests

def NoneRefused (requests : List Request) : Prop :=
  ∀ before c later, requests = before ++ .call c :: later →
    ∀ r, ¬ c.Refused (after before).bound r

theorem noneRefused_nil : NoneRefused [] := by
  intro before c later h
  cases before <;> cases h

theorem noneRefused_concat {requests : List Request} {q : Request} :
    NoneRefused (requests ++ [q]) ↔
      NoneRefused requests ∧ ∀ c, q = .call c → ∀ r, ¬ c.Refused (after requests).bound r := by
  constructor
  · intro h
    constructor
    · rintro before c later rfl
      exact h before c (later ++ [q]) (by rw [List.append_assoc, List.cons_append])
    · rintro c rfl
      exact h requests c [] rfl
  · rintro ⟨hall, hlast⟩ before c later hsplit
    rcases Histories.append_cons_eq_concat.mp hsplit.symm with ⟨rfl, hq, -⟩ | ⟨rest, -, hrest⟩
    · exact hlast c hq.symm
    · exact hall before c rest hrest.symm

/-- The first call that was refused, and why. -/
def FirstRefused (requests : List Request) (r : Refusal) : Prop :=
  ∃ before c later, requests = before ++ .call c :: later ∧ NoneRefused before ∧
    c.Refused (after before).bound r

theorem noneRefused_or_firstRefused (requests : List Request) :
    NoneRefused requests ∨ ∃ r, FirstRefused requests r := by
  induction requests using List.reverseRecOn with
  | nil => exact .inl noneRefused_nil
  | append_singleton requests q ih =>
      rcases ih with hnone | ⟨r, before, c, later, hsplit, hbefore, hr⟩
      · by_cases hlast : ∃ c r, q = .call c ∧ c.Refused (after requests).bound r
        · obtain ⟨c, r, rfl, hr⟩ := hlast
          exact .inr ⟨r, requests, c, [], rfl, hnone, hr⟩
        · refine .inl (noneRefused_concat.mpr ⟨hnone, fun c hc r hr => ?_⟩)
          exact hlast ⟨c, r, hc, hr⟩
      · refine .inr ⟨r, before, c, later ++ [q], ?_, hbefore, hr⟩
        rw [hsplit, List.append_assoc, List.cons_append]

/-- What is in a draft that has refused none of its calls. -/
structure Holds (requests : List Request) (d : Draft) : Prop where
  refusal : d.refusal = none
  bound : ∀ n, n ∈ d.bound ↔ .call (.label n) ∈ requests
  pending : d.pending.map Prod.snd = requests.filterMap Request.jumpsTo?

theorem holds_after {requests : List Request} (h : NoneRefused requests) :
    Holds requests (after requests) := by
  -- From the end, since the labels before a call decide whether it is refused.
  induction requests using List.reverseRecOn with
  | nil => exact ⟨rfl, fun n => iff_of_false (fun hn => nomatch hn) (fun hn => nomatch hn), rfl⟩
  | append_singleton requests q ih =>
      obtain ⟨hbefore, hlast⟩ := noneRefused_concat.mp h
      have hd := ih hbefore
      rw [after_concat]
      cases q with
      | finish =>
          refine ⟨hd.refusal, fun n => ?_, ?_⟩
          · rw [use, hd.bound]
            simp
          · rw [use, hd.pending]
            simp [Request.jumpsTo?, Request.call?]
      | call c =>
          have hgrows := grows_apply (hlast c rfl)
          refine ⟨hgrows.refusal.trans hd.refusal, fun n => ?_, ?_⟩
          · rw [use, hgrows.bound, List.mem_append, hd.bound, List.mem_append]
            cases c <;> simp [Call.binds?, or_comm]
          · rw [use, hgrows.pending, hd.pending, List.filterMap_append]
            cases c <;> simp [Call.jumpsTo?, Request.jumpsTo?, Request.call?]

theorem find?_jumpsTo {requests : List Request} {p : String → Bool} {n : String} :
    (requests.filterMap Request.jumpsTo?).find? p = some n ↔
      p n = true ∧ ∃ before op later, requests = before ++ .call (.jump op n) :: later ∧
        ∀ op' m, .call (.jump op' m) ∈ before → p m = false := by
  rw [List.find?_filterMap, Option.bind_eq_some_iff]
  constructor
  · rintro ⟨q, hfind, hq⟩
    obtain ⟨hp, before, later, hsplit, hbefore⟩ := List.find?_eq_some_iff_append.mp hfind
    obtain ⟨op, rfl⟩ := Request.jumpsTo?_eq_some_iff.mp hq
    refine ⟨hp, before, op, later, hsplit, fun op' m hm => ?_⟩
    exact Bool.not_eq_true' _ ▸ hbefore _ hm
  · rintro ⟨hp, before, op, later, hsplit, hbefore⟩
    refine ⟨.call (.jump op n), ?_, rfl⟩
    refine List.find?_eq_some_iff_append.mpr ⟨hp, before, later, hsplit, fun q hq => ?_⟩
    cases hjump : q.jumpsTo? with
    | none => rfl
    | some m =>
        obtain ⟨op', rfl⟩ := Request.jumpsTo?_eq_some_iff.mp hjump
        simp [hbefore op' m hq]

/-- The label is not bound, and it is that of the first jump whose label is not. -/
def FirstUnbound (requests : List Request) (n : String) : Prop :=
  .call (.label n) ∉ requests ∧ ∃ before op later, requests = before ++ .call (.jump op n) :: later ∧
    ∀ op' m, .call (.jump op' m) ∈ before → .call (.label m) ∈ requests

def AllBound (requests : List Request) : Prop :=
  ∀ op n, .call (.jump op n) ∈ requests → .call (.label n) ∈ requests

namespace Holds

variable {requests : List Request} {d : Draft}

theorem isNone_lookup (h : Holds requests d) (n : String) :
    (d.labels.lookup n).isNone = decide (Request.call (.label n) ∉ requests) := by
  rw [Bool.eq_iff_iff, decide_eq_true_iff, ← h.bound, mem_bound_iff, Option.isNone_iff_eq_none,
    Option.not_isSome_iff_eq_none]

theorem finish_eq (h : Holds requests d) : d.finish = resolve d.labels d.pending d.code := by
  rw [finish, h.refusal]

theorem finish_of_firstUnbound (h : Holds requests d) {n : String}
    (hn : FirstUnbound requests n) : d.finish = .error (.unboundLabel n) := by
  obtain ⟨hunbound, before, op, later, hsplit, hbefore⟩ := hn
  rw [h.finish_eq]
  apply resolve_of_unbound
  rw [h.pending, funext h.isNone_lookup]
  refine find?_jumpsTo.mpr ⟨decide_eq_true hunbound, before, op, later, hsplit, ?_⟩
  intro op' m hm
  exact decide_eq_false (not_not_intro (hbefore op' m hm))

theorem exists_finish (h : Holds requests d) (hall : AllBound requests) :
    ∃ code, d.finish = .ok code := by
  rw [h.finish_eq]
  apply exists_resolve
  rw [h.pending, funext h.isNone_lookup, List.find?_eq_none]
  intro n hn
  obtain ⟨q, hq, hjump⟩ := List.mem_filterMap.mp hn
  obtain ⟨op, rfl⟩ := Request.jumpsTo?_eq_some_iff.mp hjump
  simp [hall op n hq]

end Holds

theorem allBound_or_firstUnbound (requests : List Request) :
    AllBound requests ∨ ∃ n, FirstUnbound requests n := by
  cases hfind : (requests.filterMap Request.jumpsTo?).find?
      (fun n => decide (Request.call (.label n) ∉ requests)) with
  | some n =>
      obtain ⟨hn, before, op, later, hsplit, hbefore⟩ := find?_jumpsTo.mp hfind
      refine .inr ⟨n, of_decide_eq_true hn, before, op, later, hsplit, fun op' m hm => ?_⟩
      exact Decidable.not_not.mp (of_decide_eq_false (hbefore op' m hm))
  | none =>
      refine .inl fun op n hn => ?_
      have hmem : n ∈ requests.filterMap Request.jumpsTo? :=
        List.mem_filterMap.mpr ⟨_, hn, rfl⟩
      have hno := List.find?_eq_none.mp hfind n hmem
      rw [decide_eq_true_iff] at hno
      exact Decidable.not_not.mp hno

theorem finish_eq_error_iff {requests : List Request} {d : Draft} (h : Holds requests d)
    {e : Unfinished} :
    d.finish = .error e ↔ ∃ n, FirstUnbound requests n ∧ e = .unboundLabel n := by
  constructor
  · intro hfail
    rcases allBound_or_firstUnbound requests with hall | ⟨n, hn⟩
    · obtain ⟨code, hcode⟩ := h.exists_finish hall
      rw [hcode] at hfail
      cases hfail
    · rw [h.finish_of_firstUnbound hn] at hfail
      exact ⟨n, hn, (Except.error.inj hfail).symm⟩
  · rintro ⟨n, hn, rfl⟩
    exact h.finish_of_firstUnbound hn

theorem noneRefused_labels {requests : List Request} {names : List String}
    (h : NoneRefused requests) (hnames : names.Nodup)
    (hfresh : ∀ n ∈ names, Request.call (.label n) ∉ requests) :
    NoneRefused (requests ++ names.map fun n => .call (.label n)) := by
  induction names generalizing requests with
  | nil => rwa [List.map_nil, List.append_nil]
  | cons n names ih =>
      obtain ⟨hn, hnames⟩ := List.nodup_cons.mp hnames
      have hnext : NoneRefused (requests ++ [.call (.label n)]) := by
        refine noneRefused_concat.mpr ⟨h, fun c hc r href => ?_⟩
        cases hc
        cases href with
        | label hbound =>
            exact hfresh n List.mem_cons_self (((holds_after h).bound n).mp hbound)
      rw [List.map_cons, ← List.singleton_append, ← List.append_assoc]
      refine ih hnext hnames fun m hm hmem => ?_
      rcases List.mem_append.mp hmem with hmem | hmem
      · exact hfresh m (List.mem_cons_of_mem n hm) hmem
      · cases List.mem_singleton.mp hmem
        exact hn hm

/-- Once the missing labels are bound, a draft finishes. -/
theorem exists_labels {requests : List Request} (h : NoneRefused requests) :
    ∃ names : List String, NoneRefused (requests ++ names.map fun n => .call (.label n)) ∧
      AllBound (requests ++ names.map fun n => .call (.label n)) := by
  have hmiss (n : String) : n ∈ ((requests.filterMap Request.jumpsTo?).filter fun l =>
      Request.call (.label l) ∉ requests).dedup ↔
      n ∈ requests.filterMap Request.jumpsTo? ∧ Request.call (.label n) ∉ requests := by
    simp
  refine ⟨_, noneRefused_labels h (List.nodup_dedup _) fun n hn => ((hmiss n).mp hn).2, ?_⟩
  intro op n hn
  by_cases hbound : Request.call (.label n) ∈ requests
  · exact List.mem_append_left _ hbound
  · refine List.mem_append_right _ (List.mem_map_of_mem ((hmiss n).mpr ⟨?_, hbound⟩))
    rcases List.mem_append.mp hn with hn | hn
    · exact List.mem_filterMap.mpr ⟨_, hn, rfl⟩
    · obtain ⟨m, -, hm⟩ := List.mem_map.mp hn
      cases hm

theorem refusal_foldl {d : Draft} {r : Refusal} (h : d.refusal = some r)
    (requests : List Request) : (requests.foldl use d).refusal = some r := by
  induction requests generalizing d with
  | nil => exact h
  | cons q requests ih =>
      cases q with
      | call c => exact ih (refusal_apply h c)
      | finish => exact ih h

theorem finish_of_firstRefused {requests : List Request} {r : Refusal}
    (h : FirstRefused requests r) : (after requests).finish = .error (.refused r) := by
  obtain ⟨before, c, later, rfl, hbefore, hr⟩ := h
  have hfirst : ((after before).apply c).refusal = some r := by
    rw [apply_of_refused hr, refuse, (holds_after hbefore).refusal]
    rfl
  have hstays : (after (before ++ .call c :: later)).refusal = some r := by
    rw [after, List.foldl_append]
    exact refusal_foldl hfirst later
  rw [finish, hstays]

/-- Only the calls count. -/
theorem after_eq_ofCalls (requests : List Request) :
    after requests = ofCalls (requests.filterMap Request.call?) := by
  rw [after, ofCalls]
  generalize empty = d
  induction requests generalizing d with
  | nil => rfl
  | cons q requests ih =>
      cases q with
      | call c => exact ih (d.apply c)
      | finish => exact ih d

/-- What a draft makes of requests. -/
structure Accounts (requests : List Request) : Prop where
  /-- A call that is refused changes neither the code nor the labels nor the pending jumps. -/
  refused_keeps : ∀ c r, c.Refused (after requests).bound r →
    (after (requests ++ [.call c])).code = (after requests).code ∧
      (after (requests ++ [.call c])).labels = (after requests).labels ∧
      (after (requests ++ [.call c])).pending = (after requests).pending
  /-- Once a call was refused, the first refusal is the answer, and it never is otherwise. -/
  refused_iff : ∀ r, (after requests).finish = .error (.refused r) ↔ FirstRefused requests r
  refused_or : NoneRefused requests ∨ ∃ r, FirstRefused requests r
  /-- Without a refusal it fails just for a label that is not bound, that of the first such
  jump. -/
  fails_iff : NoneRefused requests → ∀ e, (after requests).finish = .error e ↔
    ∃ n, FirstUnbound requests n ∧ e = .unboundLabel n
  finishes_iff : NoneRefused requests →
    ((∃ code, (after requests).finish = .ok code) ↔ AllBound requests)
  /-- Binding what is missing lets it finish. -/
  finishes_later : NoneRefused requests → ∃ names : List String,
    NoneRefused (requests ++ names.map fun n => .call (.label n)) ∧
      ∃ code, (after (requests ++ names.map fun n => .call (.label n))).finish = .ok code
  /-- Requests to finish make no difference to what comes after them. -/
  asking_is_free : ∀ requests' : List Request,
    requests'.filterMap Request.call? = requests.filterMap Request.call? →
    (after requests').offset = (after requests).offset ∧
      (after requests').finish = (after requests).finish

/-- A draft accounts for any calls with any arguments, however often it is asked to finish. -/
theorem draft_accounts (requests : List Request) : Accounts requests where
  refused_keeps c r h := by
    rw [after_concat, use, apply_of_refused h]
    exact ⟨rfl, rfl, rfl⟩
  refused_iff r := by
    constructor
    · intro hfail
      rcases noneRefused_or_firstRefused requests with hnone | ⟨r', hr'⟩
      · obtain ⟨n, -, hn⟩ := (finish_eq_error_iff (holds_after hnone)).mp hfail
        cases hn
      · rw [finish_of_firstRefused hr'] at hfail
        cases hfail
        exact hr'
    · exact finish_of_firstRefused
  refused_or := noneRefused_or_firstRefused requests
  fails_iff h e := finish_eq_error_iff (holds_after h)
  finishes_iff h := by
    have hholds := holds_after h
    constructor
    · rintro ⟨code, hcode⟩
      rcases allBound_or_firstUnbound requests with hall | ⟨n, hn⟩
      · exact hall
      · rw [hholds.finish_of_firstUnbound hn] at hcode
        cases hcode
    · exact hholds.exists_finish
  finishes_later h := by
    obtain ⟨names, hnone, hall⟩ := exists_labels h
    exact ⟨names, hnone, (holds_after hnone).exists_finish hall⟩
  asking_is_free requests' hcalls := by
    rw [after_eq_ofCalls, after_eq_ofCalls, hcalls]
    exact ⟨rfl, rfl⟩

/-- A jump forward, and a first attempt to finish. -/
def forwardJump : List Request := [.call (.jump 0x0a "end"), .finish]

def pushNowhere : Call := .push (.register 9)

theorem noneRefused_forwardJump : NoneRefused forwardJump := by
  refine noneRefused_concat.mpr ⟨noneRefused_concat.mpr ⟨noneRefused_nil, ?_⟩, ?_⟩
  · intro c hc r hr
    cases hc
    cases hr with
    | jump hop => exact hop .jmp rfl
  · intro c hc
    cases hc

/-- The label is missing at first and can be bound later; an operand that is refused stays the
answer. -/
theorem draft_accounts_forward_jump :
    (after forwardJump).finish = .error (.unboundLabel "end") ∧
      (∃ code, (after (forwardJump ++ [.call (.label "end")])).finish = .ok code) ∧
      (after (forwardJump ++ [.call pushNowhere, .finish, .call (.label "end")])).finish =
        .error (.refused (.noTag (.noRegister Form.reg.code 9))) := by
  have hnone := noneRefused_forwardJump
  have hbound : NoneRefused (forwardJump ++ [.call (.label "end")]) := by
    refine noneRefused_concat.mpr ⟨hnone, fun c hc r hr => ?_⟩
    cases hc
    cases hr with
    | label hmem => cases hmem
  have hrefused : pushNowhere.Refused (after forwardJump).bound
      (.noTag (.noRegister Form.reg.code 9)) := by
    refine .pushTag (.register (by decide) (by decide) fun r => ?_)
    cases r <;> decide
  refine ⟨?_, ?_, ?_⟩
  · refine ((draft_accounts forwardJump).fails_iff hnone _).mpr ⟨"end", ⟨by decide, ?_⟩, rfl⟩
    exact ⟨[], 0x0a, [.finish], rfl, fun op m hm => nomatch hm⟩
  · refine ((draft_accounts _).finishes_iff hbound).mpr fun op n hn => ?_
    simp [forwardJump] at hn ⊢
    exact hn.2
  · exact ((draft_accounts _).refused_iff _).mpr ⟨forwardJump, _, _, rfl, hnone, hrefused⟩

end Draft

end StackCode.Bytecode
