import StackCode.Proofs.Decimal.Reading
import StackCode.Settings.Flags

/-!
# How flags are written

A flag is spelled with one or two dashes in front of its name. The value stands behind an equals
sign or, except for a switch, in the next argument; a switch without one is on. Reading takes one
spelling after the other off the front of the arguments. So it accepts exactly the arguments that
are spellings, followed by plain arguments, perhaps behind two dashes.
-/
namespace StackCode.Settings

/-! ## One argument -/

/-- The texts in front of a flag's name. -/
def marks : List String := ["-", "--"]

/-- A name, and the value that is joined to it. -/
def joined (name : String) : Option String → String
  | none => name
  | some v => name ++ "=" ++ v

def behindName : Option String → List Char
  | none => []
  | some v => '=' :: v.toList

theorem toList_joined (name : String) (value : Option String) :
    (joined name value).toList = name.toList ++ behindName value := by
  cases value <;> simp [joined, behindName]

theorem head_behindName (value : Option String) : ∀ c ∈ (behindName value).head?, c = '=' := by
  cases value <;> simp [behindName]

theorem Flag.toList_name (f : Flag) :
    ∃ c cs, f.name.toList = c :: cs ∧ c ≠ '-' ∧ c ≠ '=' ∧ '=' ∉ cs := by
  cases f <;> exact ⟨_, _, rfl, by decide⟩

theorem resolve_name (f : Flag) : resolve f.name = .ok f := by
  cases f <;> rfl

theorem eq_name_of_resolve {name : String} {f : Flag} (h : resolve name = .ok f) :
    name = f.name := by
  unfold resolve Flag.ofName? at h
  split at h
  next g hg =>
    cases h
    have hname := List.find?_some hg
    exact (beq_iff_eq.mp hname).symm
  next => cases h

namespace Shape

/-- A name without an equals sign is found again behind a flag's dashes. -/
theorem ofBody_joined {name : String} {c : Char} {cs : List Char} (hname : name.toList = c :: cs)
    (hdash : c ≠ '-') (hequals : c ≠ '=') (hcs : '=' ∉ cs) (value : Option String) :
    ofBody (c :: (cs ++ behindName value)) = .named name value := by
  obtain ⟨htake, hdrop⟩ := Text.span_mark hcs (head_behindName value)
  have hspelled : String.ofList (c :: cs) = name := by rw [← hname, String.ofList_toList]
  rw [ofBody, if_neg (not_or.mpr ⟨hdash, hequals⟩), htake, hdrop, hspelled]
  cases value with
  | none => rfl
  | some v => simp [behindName]

theorem eq_joined_of_ofBody {cs : List Char} {name : String} {value : Option String}
    (h : ofBody cs = .named name value) : cs = (joined name value).toList := by
  cases cs with
  | nil => cases h
  | cons c cs =>
      have hsplit : cs.takeWhile (· ≠ '=') ++ cs.dropWhile (· ≠ '=') = cs :=
        List.takeWhile_append_dropWhile
      have hhead := cs.head?_dropWhile_not (· ≠ '=')
      rw [toList_joined]
      rw [ofBody] at h
      split at h
      next => cases h
      next =>
        cases hdrop : cs.dropWhile (· ≠ '=') with
        | nil =>
            rw [hdrop] at h hsplit
            cases h
            simpa [behindName] using hsplit.symm
        | cons d v =>
            rw [hdrop] at h hsplit hhead
            have hd : d = '=' := by simpa using hhead
            cases h
            simpa [behindName, hd] using hsplit.symm

theorem ofArgument_joined {mark : String} (hmark : mark ∈ marks) (f : Flag)
    (value : Option String) :
    ofArgument (mark ++ joined f.name value) = .named f.name value := by
  obtain ⟨c, cs, hname, hdash, hequals, hcs⟩ := f.toList_name
  have hbody := ofBody_joined hname hdash hequals hcs value
  have htext : (joined f.name value).toList = c :: (cs ++ behindName value) := by
    rw [toList_joined, hname, List.cons_append]
  unfold ofArgument
  simp only [marks, List.mem_cons, List.not_mem_nil, or_false] at hmark
  rcases hmark with rfl | rfl
  · simp [htext, hbody, hdash]
  · simp [htext, hbody]

theorem eq_joined_of_ofArgument {arg name : String} {value : Option String}
    (h : ofArgument arg = .named name value) :
    ∃ mark ∈ marks, arg = mark ++ joined name value := by
  unfold ofArgument at h
  split at h
  next => cases h
  next body harg =>
    refine ⟨"--", by decide, ?_⟩
    rw [← String.toList_inj, harg, eq_joined_of_ofBody h]
    simp
  next c body hfirst harg =>
    refine ⟨"-", by decide, ?_⟩
    rw [← String.toList_inj, harg, eq_joined_of_ofBody h]
    simp
  next => cases h

theorem ofBody_ne_plain (cs : List Char) : ofBody cs ≠ .plain ∧ ofBody cs ≠ .dashes := by
  cases cs with
  | nil => simp [ofBody]
  | cons c cs =>
      rw [ofBody]
      split
      next => simp
      next =>
        dsimp only
        split <;> simp

/-- A plain argument does not start with a dash, or is nothing but one. -/
def Unmarked (arg : String) : Prop := arg = "-" ∨ arg.toList.head? ≠ some '-'

theorem ofArgument_eq_plain_iff (arg : String) : ofArgument arg = .plain ↔ Unmarked arg := by
  have hdash : arg = "-" ↔ arg.toList = ['-'] := String.toList_inj.symm
  unfold ofArgument Unmarked
  rw [hdash]
  split
  next harg => simp [harg]
  next body harg => simp [harg, ofBody_ne_plain]
  next c body harg => simp [harg, ofBody_ne_plain]
  next hlonger =>
    refine iff_of_true rfl ?_
    cases harg : arg.toList with
    | nil => simp
    | cons c cs =>
        cases cs with
        | nil => simp [Classical.em]
        | cons d cs =>
            have hc : c ≠ '-' := by
              rintro rfl
              exact hlonger d cs harg
            simp [hc]

theorem eq_dashes_of_ofArgument {arg : String} (h : ofArgument arg = .dashes) : arg = "--" := by
  unfold ofArgument at h
  split at h
  next harg => rwa [← String.toList_inj]
  next => exact absurd h (ofBody_ne_plain _).2
  next => exact absurd h (ofBody_ne_plain _).2
  next => cases h

end Shape

/-! ## One flag -/

/-- The arguments that spell an assignment. -/
inductive Spells : List String → Assignment → Prop where
  | joined {mark v : String} {f : Flag} {a : Assignment} (hmark : mark ∈ marks)
      (ha : assign f v = .ok a) : Spells [mark ++ f.name ++ "=" ++ v] a
  | apart {mark v : String} {f : Flag} {a : Assignment} (hmark : mark ∈ marks)
      (hf : f.isSwitch = false) (ha : assign f v = .ok a) : Spells [mark ++ f.name, v] a
  | switch {mark : String} {f : Flag} {a : Assignment} (hmark : mark ∈ marks)
      (hf : f.isSwitch = true) (ha : assign f "true" = .ok a) : Spells [mark ++ f.name] a

structure Written where
  tokens : List String
  assignment : Assignment
  spells : Spells tokens assignment

/-- Where the flags end: with nothing, a plain argument or two dashes. -/
inductive Ends : List String → List String → Prop where
  | nothing : Ends [] []
  | plain {arg : String} (h : Shape.Unmarked arg) (rest : List String) :
      Ends (arg :: rest) (arg :: rest)
  | dashes (rest : List String) : Ends ("--" :: rest) rest

namespace Arguments

theorem read_spells {tokens : List String} {a : Assignment} (h : Spells tokens a)
    (rest : List String) : read (tokens ++ rest) = withFirst a (read rest) := by
  cases h with
  | @joined mark v f a hmark ha =>
      have hshape := Shape.ofArgument_joined hmark f (some v)
      rw [joined, ← String.append_assoc, ← String.append_assoc] at hshape
      rw [List.singleton_append, read, hshape]
      simp only [resolve_name, ha]
  | @apart mark v f a hmark hf ha =>
      have hshape := Shape.ofArgument_joined hmark f none
      rw [joined] at hshape
      rw [List.cons_append, List.singleton_append, read, hshape]
      simp only [resolve_name, hf, ha]
  | @switch mark f a hmark hf ha =>
      have hshape := Shape.ofArgument_joined hmark f none
      rw [joined] at hshape
      rw [List.singleton_append, read, hshape]
      simp only [resolve_name, hf, ha]

theorem read_ends {tail plain : List String} (h : Ends tail plain) :
    read tail = .ok ⟨[], plain⟩ := by
  cases h with
  | nothing => rfl
  | plain harg rest => rw [read, (Shape.ofArgument_eq_plain_iff _).mpr harg]
  | dashes rest => rfl

/-! ## All arguments -/

theorem read_flags (flags : List Written) (rest : List String) :
    read (flags.flatMap Written.tokens ++ rest) =
      (read rest).map fun args =>
        ⟨flags.map Written.assignment ++ args.assignments, args.plain⟩ := by
  induction flags with
  | nil => cases hrest : read rest <;> simp [hrest, Except.map]
  | cons w flags ih =>
      rw [List.flatMap_cons, List.append_assoc, read_spells w.spells, ih]
      cases read rest <;> rfl

/-- Arguments are flags, and then what ends with plain arguments. -/
def LaidOut (argv : List String) (flags : List Written) (plain : List String) : Prop :=
  ∃ tail, Ends tail plain ∧ argv = flags.flatMap Written.tokens ++ tail

theorem read_laidOut {argv plain : List String} {flags : List Written}
    (h : LaidOut argv flags plain) : read argv = .ok ⟨flags.map Written.assignment, plain⟩ := by
  obtain ⟨tail, hends, rfl⟩ := h
  rw [read_flags, read_ends hends]
  simp [Except.map]

theorem laidOut_of_withFirst {tokens rest : List String} {a : Assignment} {args : Arguments}
    (hspells : Spells tokens a)
    (hrest : ∀ {args}, read rest = .ok args →
      ∃ flags, LaidOut rest flags args.plain ∧ flags.map Written.assignment = args.assignments)
    (h : withFirst a (read rest) = .ok args) :
    ∃ flags, LaidOut (tokens ++ rest) flags args.plain ∧
      flags.map Written.assignment = args.assignments := by
  cases hread : read rest with
  | error f =>
      rw [hread] at h
      cases h
  | ok more =>
      rw [hread] at h
      cases h
      obtain ⟨flags, ⟨tail, hends, rfl⟩, hflags⟩ := hrest hread
      refine ⟨⟨tokens, a, hspells⟩ :: flags, ⟨tail, hends, ?_⟩, ?_⟩
      · rw [List.flatMap_cons, List.append_assoc]
      · rw [List.map_cons, hflags]

theorem laidOut_of_read {argv : List String} {args : Arguments} (h : read argv = .ok args) :
    ∃ flags, LaidOut argv flags args.plain ∧
      flags.map Written.assignment = args.assignments := by
  -- The reader goes on behind a joined value, a switch and a value that stands apart, and
  -- stops with a result at three more places; everywhere else it fails.
  fun_induction read argv generalizing args with
  | case1 =>
      cases h
      exact ⟨[], ⟨[], .nothing, rfl⟩, rfl⟩
  | case2 arg rest hshape =>
      cases h
      have hunmarked := (Shape.ofArgument_eq_plain_iff arg).mp hshape
      exact ⟨[], ⟨arg :: rest, .plain hunmarked rest, rfl⟩, rfl⟩
  | case3 arg rest hshape =>
      cases h
      rw [Shape.eq_dashes_of_ofArgument hshape]
      exact ⟨[], ⟨"--" :: rest, .dashes rest, rfl⟩, rfl⟩
  | case4 | case5 | case6 | case8 | case10 | case11 => cases h
  | case7 arg name flag hflag v rest a ha hshape ih =>
      obtain ⟨mark, hmark, rfl⟩ := Shape.eq_joined_of_ofArgument hshape
      rw [eq_name_of_resolve hflag, joined, ← String.append_assoc, ← String.append_assoc]
      exact laidOut_of_withFirst (.joined hmark ha) ih h
  | case9 arg name flag hflag rest hswitch a ha hshape ih =>
      obtain ⟨mark, hmark, rfl⟩ := Shape.eq_joined_of_ofArgument hshape
      rw [eq_name_of_resolve hflag, joined]
      exact laidOut_of_withFirst (.switch hmark hswitch ha) ih h
  | case12 arg name flag hflag v rest hvalued a ha hshape ih =>
      obtain ⟨mark, hmark, rfl⟩ := Shape.eq_joined_of_ofArgument hshape
      rw [eq_name_of_resolve hflag, joined]
      exact laidOut_of_withFirst (.apart hmark hvalued ha) ih h

end Arguments

end StackCode.Settings
