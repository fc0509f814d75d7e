import StackCode.Proofs.Settings.Flags
import StackCode.Proofs.Settings.Values

/-!
# Which value a setting has

A setting has the value of its flag where the flag is given, however often: the last time counts.
Otherwise it has the value that the file states last, and otherwise the standard one. As each
value goes into one setting, the settings do not depend on each other, nor on the order among
flags of different names.
-/
namespace StackCode.Settings

/-! ## All arguments -/

/-- What the arguments come to, with files that have fixed contents. -/
def parsed (read : String → Except FileFailure Bytes) (argv : List String) : Parsed :=
  Id.run (ofArguments (fun path => pure (read path)) argv)

section
variable {read : String → Except FileFailure Bytes} {argv : List String} {a : Arguments}

theorem parsed_of_error {f : FlagFault} (h : Arguments.read argv = .error f) :
    parsed read argv = .failed (.flag f) := by
  simp [parsed, ofArguments, h]

theorem parsed_of_ok (h : Arguments.read argv = .ok a) :
    parsed read argv =
      if a.configPath = "" then a.settings none
      else
        match read a.configPath with
        | .error f => .failed (.unread f)
        | .ok contents => a.settings (some contents) := by
  simp only [parsed, ofArguments, h]
  split
  next => rfl
  next => cases read a.configPath <;> rfl

end

/-- The settings before the flags: the standard ones with the file taken in. -/
def base? : Option Bytes → Option Settings
  | none => some standard
  | some contents => file? standard contents

namespace Arguments

theorem settings_eq (a : Arguments) (file : Option Bytes) :
    a.settings file =
      match base? file with
      | none => .failed .malformedFile
      | some base =>
          match a.plain with
          | [path] => .found (a.assignments.foldl assigned base) path
          | plain => .failed (.arguments plain.length) := by
  cases file <;> rfl

theorem settings_of_base {a : Arguments} {file : Option Bytes} {base : Settings} {path : String}
    (hbase : base? file = some base) (hplain : a.plain = [path]) :
    a.settings file = .found (a.assignments.foldl assigned base) path := by
  rw [settings_eq, hbase, hplain]

/-- Settings are blank, with the fault, unless there is one plain argument and a sound file. -/
theorem settings_cases (a : Arguments) (file : Option Bytes) :
    (∃ f, a.settings file = .failed f) ∨
      ∃ base path, base? file = some base ∧ a.plain = [path] := by
  rw [settings_eq]
  cases hbase : base? file with
  | none => exact .inl ⟨_, rfl⟩
  | some base =>
      dsimp only
      split
      next path hplain => exact .inr ⟨base, path, rfl, hplain⟩
      next => exact .inl ⟨_, rfl⟩

/-- Only the last value of each flag matters. -/
theorem settings_congr {a b : Arguments}
    (h : ∀ f, last? f a.assignments = last? f b.assignments) (hplain : a.plain = b.plain)
    (file : Option Bytes) : a.settings file = b.settings file := by
  have hassigned (base : Settings) :
      a.assignments.foldl assigned base = b.assignments.foldl assigned base := by
    apply eq_of_get
    intro k
    rw [get_foldl_assigned, get_foldl_assigned, h]
  simp only [settings_eq, hplain, hassigned]

end Arguments

/-- One plain argument is left behind the flags, and the file that they name can be taken in. -/
def Accepted (read : String → Except FileFailure Bytes) (argv : List String) : Prop :=
  ∃ a path, Arguments.read argv = .ok a ∧ a.plain = [path] ∧
    (a.configPath ≠ "" → ∃ contents base, read a.configPath = .ok contents ∧
      file? standard contents = some base)

theorem parsed_cases (read : String → Except FileFailure Bytes) (argv : List String) :
    (∃ f, parsed read argv = .failed f) ∨ Accepted read argv := by
  cases hread : Arguments.read argv with
  | error f => exact .inl ⟨_, parsed_of_error hread⟩
  | ok a =>
      rw [parsed_of_ok hread]
      split
      next hpath =>
        rcases a.settings_cases none with hfailed | ⟨base, path, -, hplain⟩
        · exact .inl hfailed
        · exact .inr ⟨a, path, hread, hplain, fun hne => absurd hpath hne⟩
      next hpath =>
        cases hfile : read a.configPath with
        | error f => exact .inl ⟨_, rfl⟩
        | ok contents =>
            rcases a.settings_cases (some contents) with hfailed | ⟨base, path, hbase, hplain⟩
            · exact .inl hfailed
            · exact .inr ⟨a, path, hread, hplain, fun _ => ⟨contents, base, hfile, hbase⟩⟩

/-! ## One invocation -/

/-- What the arguments and the file say: flags as they are written, members, and a path. -/
structure Invocation where
  flags : List Written
  members : List (String × Json)
  path : String

namespace Invocation

def given? (i : Invocation) (f : Flag) : Option f.Value :=
  last? f (i.flags.map Written.assignment)

def stated? (i : Invocation) (k : Setting) : Option k.flag.Value :=
  (i.members.filterMap k.entry?).getLast?

/-- The value of a setting: given, or else stated, or else the standard one. -/
def value (i : Invocation) (k : Setting) : k.flag.Value :=
  ((i.given? k.flag).or (i.stated? k)).getD (standard.get k)

def configPath (i : Invocation) : String := (i.given? .configPath).getD ""

/-- The invocation stands in the arguments and, if they name one, in a file. -/
structure Reads (i : Invocation) (read : String → Except FileFailure Bytes)
    (argv : List String) : Prop where
  arguments : Arguments.LaidOut argv i.flags [i.path]
  file : i.configPath = "" ∧ i.members = [] ∨ i.configPath ≠ "" ∧
    ∃ contents, read i.configPath = .ok contents ∧ membersOf? contents = some i.members
  legible : ∀ m ∈ i.members, Legible m

variable {i : Invocation} {read : String → Except FileFailure Bytes} {argv : List String}

theorem Reads.base (h : i.Reads read argv) :
    ∃ base, i.members.foldlM member? standard = some base ∧
      ∀ k, base.get k = (i.stated? k).getD (standard.get k) := by
  obtain ⟨base, hbase⟩ :=
    Option.isSome_iff_exists.mp ((isSome_foldlM_member?_iff i.members standard).mpr h.legible)
  refine ⟨base, hbase, fun k => ?_⟩
  exact view_foldlM (fun s => s.get k) k.entry? (get_member? k) hbase

theorem Reads.found (h : i.Reads read argv) :
    ∃ s, parsed read argv = .found s i.path ∧ ∀ k, s.get k = i.value k := by
  obtain ⟨base, hbase, hget⟩ := h.base
  have hpath : Arguments.configPath ⟨i.flags.map Written.assignment, [i.path]⟩ = i.configPath :=
    configPath_eq _
  refine ⟨(i.flags.map Written.assignment).foldl assigned base, ?_, fun k => ?_⟩
  · rw [parsed_of_ok (Arguments.read_laidOut h.arguments), hpath]
    rcases h.file with ⟨hnone, hmembers⟩ | ⟨hsome, contents, hread, hmembers⟩
    · rw [if_pos hnone]
      rw [hmembers] at hbase
      exact Arguments.settings_of_base hbase rfl
    · rw [if_neg hsome, hread]
      refine Arguments.settings_of_base ?_ rfl
      rw [base?, file?_eq, hmembers]
      exact hbase
  · rw [get_foldl_assigned, hget, value, Option.getD_or]
    rfl

theorem exists_reads (h : Accepted read argv) : ∃ i : Invocation, i.Reads read argv := by
  obtain ⟨a, path, hread, hplain, hfile⟩ := h
  obtain ⟨flags, hlaid, hflags⟩ := Arguments.laidOut_of_read hread
  rw [hplain] at hlaid
  have hpath (ms : List (String × Json)) : configPath ⟨flags, ms, path⟩ = a.configPath := by
    rw [configPath_eq, ← hflags]
    rfl
  by_cases hnone : a.configPath = ""
  · refine ⟨⟨flags, [], path⟩, hlaid, .inl ⟨?_, rfl⟩, ?_⟩
    · rw [hpath, hnone]
    · simp
  · obtain ⟨contents, base, hcontents, hbase⟩ := hfile hnone
    rw [file?_eq] at hbase
    obtain ⟨ms, hms, hbase⟩ := Option.bind_eq_some_iff.mp hbase
    refine ⟨⟨flags, ms, path⟩, hlaid, .inr ⟨?_, contents, ?_, hms⟩, ?_⟩
    · rwa [hpath]
    · rw [hpath, hcontents]
    · exact (isSome_foldlM_member?_iff ms standard).mp (by rw [hbase]; rfl)

end Invocation

theorem parsed_eq_none_iff (read : String → Except FileFailure Bytes) (argv : List String) :
    (parsed read argv).fault = none ↔ Accepted read argv := by
  constructor
  · intro hfault
    rcases parsed_cases read argv with ⟨f, hf⟩ | haccepted
    · rw [hf] at hfault
      cases hfault
    · exact haccepted
  · intro haccepted
    obtain ⟨i, hi⟩ := Invocation.exists_reads haccepted
    obtain ⟨s, hs, -⟩ := hi.found
    rw [hs]
    rfl

/-! ## Independence -/

def Written.flag (w : Written) : Flag := w.assignment.flag

theorem last?_filter (f : Flag) (flags : List Written) :
    last? f ((flags.filter (·.flag = f)).map Written.assignment) =
      last? f (flags.map Written.assignment) := by
  unfold last?
  rw [List.filterMap_map, List.filterMap_map, List.filterMap_filter]
  congr 2
  funext w
  by_cases h : w.flag = f
  · simp [h]
  · simp [h, Assignment.value?_of_ne h]

theorem last?_append (f : Flag) (as bs : List Assignment) :
    last? f (as ++ bs) = (last? f bs).or (last? f as) := by
  unfold last?
  rw [List.filterMap_append, List.getLast?_append]

theorem entry?_filter (k : Setting) (ms : List (String × Json)) :
    (ms.filter k.names).filterMap k.entry? = ms.filterMap k.entry? := by
  rw [List.filterMap_filter]
  congr 1
  funext m
  by_cases h : k.names m = true
  · rw [if_pos h]
  · rw [if_neg h, Setting.entry?, if_neg h]

theorem Invocation.value_congr {i j : Invocation} {k : Setting}
    (hflags : i.flags.filter (·.flag = k.flag) = j.flags.filter (·.flag = k.flag))
    (hmembers : i.members.filter k.names = j.members.filter k.names) : i.value k = j.value k := by
  have hgiven : i.given? k.flag = j.given? k.flag := by
    unfold given?
    rw [← last?_filter, hflags, last?_filter]
  have hstated : i.stated? k = j.stated? k := by
    unfold stated?
    rw [← entry?_filter, hmembers, entry?_filter]
  rw [value, hgiven, hstated, value]

theorem Invocation.value_list (i : Invocation) : i.value .list = (i.given? .list).getD false := by
  have hstated : i.stated? .list = none := by
    have hnone : i.members.filterMap Setting.list.entry? = [] :=
      List.filterMap_eq_nil_iff.mpr fun _ _ => rfl
    rw [stated?, hnone]
    rfl
  rw [value, hstated, Option.or_none]
  rfl

/-- The same flags, in orders that differ between flags of different names only. -/
def Rearranged (fs gs : List Written) : Prop :=
  ∀ f : Flag, fs.filter (·.flag = f) = gs.filter (·.flag = f)

theorem parsed_rearranged {fs gs : List Written} (h : Rearranged fs gs)
    (read : String → Except FileFailure Bytes) (rest : List String) :
    parsed read (fs.flatMap Written.tokens ++ rest) =
      parsed read (gs.flatMap Written.tokens ++ rest) := by
  have hfs := Arguments.read_flags fs rest
  have hgs := Arguments.read_flags gs rest
  cases hrest : Arguments.read rest with
  | error f =>
      rw [hrest] at hfs hgs
      rw [parsed_of_error hfs, parsed_of_error hgs]
  | ok a =>
      rw [hrest] at hfs hgs
      -- Flags in `rest` win over both lists, so the order within these does not show there.
      have hlast (f : Flag) : last? f (fs.map Written.assignment ++ a.assignments) =
          last? f (gs.map Written.assignment ++ a.assignments) := by
        rw [last?_append, last?_append, ← last?_filter, h f, last?_filter]
      have hsettings := Arguments.settings_congr
        (a := ⟨fs.map Written.assignment ++ a.assignments, a.plain⟩)
        (b := ⟨gs.map Written.assignment ++ a.assignments, a.plain⟩) hlast rfl
      rw [parsed_of_ok hfs, parsed_of_ok hgs]
      simp only [configPath_eq, hlast, hsettings]

/-! ## The whole rule -/

/-- How settings come from flags, a file and defaults, for files with given contents. -/
structure Precedence (read : String → Except FileFailure Bytes) : Prop where
  /-- The arguments are accepted if flags, file and the number of plain arguments are right. -/
  accepted_iff : ∀ argv, (parsed read argv).fault = none ↔ Accepted read argv
  /-- What is accepted consists of written flags, members of a file, and a path. -/
  reads : ∀ argv, Accepted read argv → ∃ i : Invocation, i.Reads read argv
  path_eq : ∀ argv (i : Invocation), i.Reads read argv → (parsed read argv).path = i.path
  /-- A setting has its flag's last value, or the file's, or the standard one. -/
  get_eq : ∀ argv (i : Invocation), i.Reads read argv →
    ∀ k, (parsed read argv).settings.get k = i.value k
  /-- The file has no say on listing. -/
  list_iff : ∀ argv (i : Invocation), i.Reads read argv →
    ((parsed read argv).settings.list = true ↔ i.given? .list = some true)
  /-- A setting depends on its own flag and its own members only. -/
  independent : ∀ read' argv argv' (i j : Invocation), i.Reads read argv → j.Reads read' argv' →
    ∀ k : Setting, i.flags.filter (·.flag = k.flag) = j.flags.filter (·.flag = k.flag) →
      i.members.filter k.names = j.members.filter k.names →
        (parsed read argv).settings.get k = (parsed read' argv').settings.get k
  /-- Flags of different names may change places. -/
  rearranged : ∀ fs gs rest, Rearranged fs gs →
    parsed read (fs.flatMap Written.tokens ++ rest) =
      parsed read (gs.flatMap Written.tokens ++ rest)
  /-- With a fault nothing is handed on. -/
  failed : ∀ argv f, (parsed read argv).fault = some f →
    (parsed read argv).settings = blank ∧ (parsed read argv).path = ""

theorem settings_precedence (read : String → Except FileFailure Bytes) :
    Precedence read := by
  have hget (read') (argv) (i : Invocation) (hi : i.Reads read' argv) (k : Setting) :
      (parsed read' argv).settings.get k = i.value k := by
    obtain ⟨s, hs, hvalue⟩ := hi.found
    rw [hs]
    exact hvalue k
  constructor
  case accepted_iff => exact parsed_eq_none_iff read
  case reads => exact fun argv => Invocation.exists_reads
  case path_eq =>
    intro argv i hi
    obtain ⟨s, hs, -⟩ := hi.found
    rw [hs]
    rfl
  case get_eq => exact hget read
  case list_iff =>
    intro argv i hi
    have hlist : (parsed read argv).settings.list = (i.given? .list).getD false :=
      (hget read argv i hi .list).trans i.value_list
    rw [hlist]
    cases i.given? .list with
    | none => simp
    | some on => simp
  case independent =>
    intro read' argv argv' i j hi hj k hflags hmembers
    rw [hget read argv i hi, hget read' argv' j hj, i.value_congr hflags hmembers]
  case rearranged => exact fun fs gs rest h => parsed_rearranged h read rest
  case failed =>
    intro argv f hf
    rcases parsed_cases read argv with ⟨g, hg⟩ | haccepted
    · rw [hg]
      exact ⟨rfl, rfl⟩
    · rw [(parsed_eq_none_iff read argv).mpr haccepted] at hf
      cases hf

/-- A file says to be verbose, with 8 bytes of memory, and a flag says not to be verbose. -/
def quieted : Invocation where
  flags := [⟨_, _, @Spells.apart "-" "c.json" .configPath _ (by decide) rfl rfl⟩,
    ⟨_, _, @Spells.joined "-" "false" .verbose _ (by decide) rfl⟩,
    ⟨_, _, @Spells.switch "--" .list _ (by decide) rfl rfl⟩]
  members := [("VERBOSE", .bool true), ("ram_size", .number "8")]
  path := "p"

def quietedFile : Bytes := Text.toUtf8 "\x7b\"VERBOSE\":true,\"ram_size\":8\x7d"

def quietedArguments : List String :=
  ["-config-path", "c.json", "-verbose=false", "--list", "p"]

theorem quieted_reads : quieted.Reads (fun _ => .ok quietedFile) quietedArguments where
  arguments := ⟨["p"], .plain (.inr (by decide)) [], by decide⟩
  file := .inr ⟨by decide, quietedFile, rfl, by with_unfolding_all rfl⟩
  legible := (isSome_foldlM_member?_iff quieted.members standard).mp (by decide)

theorem settings_precedence_quieted :
    (parsed (fun _ => .ok quietedFile) quietedArguments).settings =
        { standard with verbose := false, ramSize := 8, list := true } ∧
      parsed (fun _ => .ok quietedFile) quietedArguments =
        parsed (fun _ => .ok quietedFile)
          ["--list", "-verbose=false", "-config-path", "c.json", "p"] ∧
      (parsed (fun _ => .ok quietedFile) []).settings = blank := by
  have hrule := settings_precedence fun _ => .ok quietedFile
  refine ⟨eq_of_get fun k => ?_, ?_, ?_⟩
  · rw [hrule.get_eq quietedArguments quieted quieted_reads]
    cases k <;> rfl
  · exact hrule.rearranged quieted.flags quieted.flags.reverse ["p"] fun f => by cases f <;> rfl
  · exact (hrule.failed [] (.arguments 0) rfl).1

end StackCode.Settings
