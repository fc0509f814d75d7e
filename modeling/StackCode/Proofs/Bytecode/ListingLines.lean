import Mathlib.Data.List.Forall2
import StackCode.Bytecode.Listing

/-!
# The lines of a listing

No part of a listing holds a line break of its own, so its text can be cut into lines again and
the lines are those that were joined. `Shows` says what the lines of a listing have to be: a
group for each instruction, in order, that ends with the line of the instruction and starts with
a label if some jump goes there; then a line for each target at which no instruction starts.
-/
namespace StackCode

/-! ## Characters of numbers -/

namespace Decimal

/-- The characters that the text of a number is made of. -/
def numberChar (c : Char) : Bool :=
  c.isDigit || ['+', '-', '.', 'e', 'I', 'n', 'f', 'N', 'a'].contains c

theorem numberChar_digits {n : Nat} {c : Char} (h : c ∈ Nat.toDigits 10 n) :
    numberChar c = true := by
  have hd := Nat.isDigit_of_mem_toDigits (by decide) (by decide) h
  rw [numberChar, hd, Bool.true_or]

theorem numberChar_leftpad {w n : Nat} {c : Char}
    (h : c ∈ List.leftpad w '0' (Nat.toDigits 10 n)) : numberChar c = true := by
  rcases List.mem_append.mp h with hpad | hdigit
  · rw [List.eq_of_mem_replicate hpad]
    rfl
  · exact numberChar_digits hdigit

theorem numberChar_int {n : Int} {c : Char} (h : c ∈ (toString n).toList) :
    numberChar c = true := by
  rw [Int.toString_eq_repr] at h
  cases n with
  | ofNat m =>
      rw [Int.repr, Nat.repr_eq_ofList_toDigits, String.toList_ofList] at h
      exact numberChar_digits h
  | negSucc m =>
      rw [Int.repr, Nat.repr_eq_ofList_toDigits, String.toList_append] at h
      rcases List.mem_append.mp h with hsign | hdigit
      · rw [List.mem_singleton.mp hsign]
        rfl
      · exact numberChar_digits (String.toList_ofList ▸ hdigit)

section
variable {d : Decimal} (hd : ∀ c ∈ d.digits, numberChar c = true)
include hd

theorem numberChar_text {c : Char} (h : c ∈ d.text) : numberChar c = true := by
  have hfraction : ∀ n, c ∈ fraction (d.digits.drop n) → numberChar c = true := by
    intro n hc
    unfold fraction at hc
    split at hc
    · cases hc
    · rcases List.mem_cons.mp hc with rfl | hc
      · rfl
      · exact hd c (List.mem_of_mem_drop hc)
  have hexponent : c ∈ exponentText d.exponent → numberChar c = true := by
    intro hc
    simp only [exponentText, List.mem_cons] at hc
    rcases hc with rfl | hc | hc
    · rfl
    · rw [hc]
      split <;> rfl
    · exact numberChar_leftpad hc
  unfold text at h
  split at h
  · simp only [List.mem_append] at h
    rcases h with (h | h) | h
    · exact hd c (List.mem_of_mem_take h)
    · exact hfraction 1 h
    · exact hexponent h
  · split at h
    · simp only [List.mem_cons, List.mem_append] at h
      rcases h with rfl | rfl | h | h
      · rfl
      · rfl
      · rw [List.eq_of_mem_replicate h]
        rfl
      · exact hd c h
    · simp only [List.mem_append] at h
      rcases h with (h | h) | h
      · exact hd c (List.mem_of_mem_take h)
      · rw [List.eq_of_mem_replicate h]
        rfl
      · exact hfraction _ h

theorem numberChar_render (neg : Bool) {c : Char} (h : c ∈ (render neg d).toList) :
    numberChar c = true := by
  rw [render, String.toList_ofList] at h
  rcases List.mem_append.mp h with hsign | htext
  · cases neg
    · cases hsign
    · rw [List.mem_singleton.mp hsign]
      rfl
  · exact numberChar_text hd htext

end

theorem numberChar_ofScaled {coeff : Nat} {k : Int} :
    ∀ c ∈ (ofScaled coeff k).digits, numberChar c = true := by
  intro c hc
  have hmem : c ∈ (Nat.toDigits 10 coeff).reverse :=
    (List.dropWhile_sublist _).mem (List.mem_reverse.mp hc)
  exact numberChar_digits (List.mem_reverse.mp hmem)

theorem numberChar_searchGrids (v : Ratio) (i : Interval) (lead : Int) (tries digits : Nat) :
    ∀ c ∈ (searchGrids v i lead tries digits).digits, numberChar c = true := by
  induction tries generalizing digits with
  | zero => exact numberChar_ofScaled
  | succ tries ih =>
      simp only [searchGrids]
      split
      · exact numberChar_ofScaled
      · exact ih (digits + 1)

/-- The text of a literal is made of digits, signs, a point and the letters of its names. -/
theorem numberChar_literal (bits : UInt64) :
    ∀ c ∈ (literal.spell bits).toList, numberChar c = true := by
  unfold Spelling.spell
  split
  next neg _ => cases neg <;> exact List.all_eq_true.mp rfl
  next neg _ => cases neg <;> exact List.all_eq_true.mp rfl
  next neg _ _ => cases neg <;> exact List.all_eq_true.mp rfl
  next neg m e _ _ =>
    intro c hc
    exact numberChar_render (numberChar_searchGrids _ _ _ _ _) neg hc

end Decimal

/-! ## Texts of one line -/

def Text.OneLine (s : String) : Prop := '\n' ∉ s.toList

namespace Text.OneLine

instance (s : String) : Decidable (OneLine s) := inferInstanceAs (Decidable ('\n' ∉ s.toList))

theorem append {s t : String} (hs : OneLine s) (ht : OneLine t) : OneLine (s ++ t) := by
  rw [OneLine, String.toList_append, List.mem_append]
  exact not_or_intro hs ht

theorem of_numberChar {s : String} (h : ∀ c ∈ s.toList, Decimal.numberChar c = true) :
    OneLine s := by
  intro hmem
  cases h _ hmem

theorem offset4 (n : Nat) : OneLine (Text.offset4 n) := by
  apply of_numberChar
  intro c hc
  rw [Text.offset4, digits, String.toList_ofList] at hc
  exact Decimal.numberChar_leftpad hc

theorem int (n : Int) : OneLine (toString n) := of_numberChar fun _ hc => Decimal.numberChar_int hc

/-- Lines that are each ended by a break are found again between the breaks. -/
theorem splitOn_join {rows : List String} (h : ∀ r ∈ rows, OneLine r) :
    (String.join (rows.map (· ++ "\n"))).toList.splitOn '\n' =
      rows.map String.toList ++ [[]] := by
  rw [String.toList_join]
  induction rows with
  | nil => rfl
  | cons r rows ih =>
      have hr : OneLine r := h r List.mem_cons_self
      have hbreak : (r ++ "\n").toList = r.toList ++ ['\n'] := String.toList_append
      rw [List.map_cons, List.flatMap_cons, hbreak, List.append_assoc, List.singleton_append,
        List.splitOn_append_cons_self_of_not_mem hr,
        ih fun r' hr' => h r' (List.mem_cons_of_mem r hr')]
      rfl

end Text.OneLine

namespace Bytecode

open Text (OneLine)

theorem Register.oneLine_name (r : Register) : OneLine r.name := by
  cases r <;> decide

theorem Opcode.oneLine_name (op : Opcode) : OneLine op.name := by
  cases op with
  | arith op => cases op <;> decide
  | branch b =>
      cases b with
      | cond c => cases c <;> decide
      | _ => decide
  | _ => decide

theorem Cell.oneLine_text (c : Cell) : OneLine c.text := by
  have hopen : OneLine "[" := by decide
  have hclose : OneLine "]" := by decide
  cases c with
  | abs d => exact (hopen.append (.int _)).append hclose
  | ptr r => exact (hopen.append r.oneLine_name).append hclose
  | off r d =>
      have hsign : OneLine (if d.toInt < 0 then "" else "+") := by split <;> decide
      exact (((hopen.append r.oneLine_name).append hsign).append (.int _)).append hclose

namespace Instr

theorem oneLine_operandText {i : Instr} {o : String} (h : i.operandText? = some o) :
    OneLine o := by
  unfold operandText? at h
  split at h <;> cases h
  · exact .of_numberChar (Decimal.numberChar_literal _)
  · exact Register.oneLine_name _
  · exact Register.oneLine_name _
  · exact Cell.oneLine_text _
  · exact Cell.oneLine_text _
  · exact .int _

theorem oneLine_text (i : Instr) : OneLine i.text := by
  unfold text
  split
  next o ho => exact (i.opcode.oneLine_name.append (by decide)).append (oneLine_operandText ho)
  next => exact i.opcode.oneLine_name

end Instr

namespace Listing

/-! ## What a listing shows -/

def row (ip : Nat) (body : String) : String := "    " ++ Text.offset4 ip ++ "  " ++ body

def labelRow (ip : Nat) : String := label ip ++ ":"

/-- The line of a target at which no instruction starts. -/
def strayRow (t : Int) : String := "; target " ++ toString t ++ ": not an instruction boundary"

/-- How an instruction among `ls` is spelled. A jump to an instruction names its label, and any
other jump shows a number, which is nobody's label. -/
structure Spelled (ls : List Located) (i : Instr) (body : String) : Prop where
  plain : i.target? = none → body = i.text
  labelled : ∀ t, i.target? = some t → ∀ k ∈ ls, (k.ip : Int) = t.toInt →
    body = i.opcode.name ++ " " ++ label k.ip
  bare : ∀ t, i.target? = some t → (∀ k ∈ ls, (k.ip : Int) ≠ t.toInt) →
    body = i.opcode.name ++ " " ++ toString t.toInt ∧
      ∀ ip, body ≠ i.opcode.name ++ " " ++ label ip

/-- The lines of an instruction among `ls`. -/
inductive Group (ls : List Located) (l : Located) : List String → Prop
  | untargeted {body : String} :
      (∀ k ∈ ls, ∀ t, k.instr.target? = some t → t.toInt ≠ l.ip) →
      Spelled ls l.instr body → Group ls l [row l.ip body]
  | targeted {k : Located} {t : Int32} {body : String} :
      k ∈ ls → k.instr.target? = some t → t.toInt = l.ip →
      Spelled ls l.instr body → Group ls l [labelRow l.ip, row l.ip body]

/-- What the listing of the instructions `ls` shows: the lines of each in order, and after them
the targets at which none of them starts, each once and in ascending order. -/
structure Shows (ls : List Located) (text : String) (strays : List Int) : Prop where
  lines : ∃ groups, List.Forall₂ (Group ls) ls groups ∧
    text.toList.splitOn '\n' =
      (groups.flatten ++ strays.map strayRow).map String.toList ++ [[]]
  ascending : strays.Pairwise (· < ·)
  mem_strays : ∀ t, t ∈ strays ↔
    (∃ k ∈ ls, ∃ u, k.instr.target? = some u ∧ u.toInt = t) ∧ ∀ k ∈ ls, (k.ip : Int) ≠ t

/-! ## Stray targets -/

theorem mem_insert {t n : Int} {ts : List Int} : t ∈ insert n ts ↔ t = n ∨ t ∈ ts := by
  induction ts with
  | nil => rw [insert, List.mem_singleton, List.mem_nil_iff, or_false]
  | cons m ts ih =>
      rw [insert]
      split
      · rw [List.mem_cons]
      · split
        next heq =>
          subst heq
          rw [List.mem_cons, ← or_assoc, or_self]
        next => rw [List.mem_cons, ih, List.mem_cons, or_left_comm]

theorem insert_ascending {n : Int} {ts : List Int} (h : ts.Pairwise (· < ·)) :
    (insert n ts).Pairwise (· < ·) := by
  induction h with
  | nil => exact List.pairwise_singleton _ n
  | @cons m ts hm hts ih =>
      rw [insert]
      split
      next hlt =>
        refine List.Pairwise.cons (fun t ht => ?_) (List.Pairwise.cons hm hts)
        rcases List.mem_cons.mp ht with rfl | ht
        · exact hlt
        · exact Int.lt_trans hlt (hm t ht)
      next hge =>
        split
        next => exact List.Pairwise.cons hm hts
        next hne =>
          refine List.Pairwise.cons (fun t ht => ?_) ih
          rcases mem_insert.mp ht with rfl | ht
          · omega
          · exact hm t ht

theorem mem_foldr_insert {t : Int} {ts : List Int} : t ∈ ts.foldr insert [] ↔ t ∈ ts := by
  induction ts with
  | nil => rfl
  | cons n ts ih => rw [List.foldr_cons, mem_insert, ih, List.mem_cons]

theorem foldr_insert_ascending (ts : List Int) : (ts.foldr insert []).Pairwise (· < ·) := by
  induction ts with
  | nil => exact List.Pairwise.nil
  | cons n ts ih => exact insert_ascending ih

section
variable (s : Scan)

theorem isStart_iff (t : Int) : s.isStart t = true ↔ ∃ k ∈ s.instrs, (k.ip : Int) = t := by
  simp only [Scan.isStart, List.any_eq_true, beq_iff_eq]

theorem mem_targets (t : Int) :
    t ∈ s.jumps.map Prod.snd ↔
      ∃ k ∈ s.instrs, ∃ u, k.instr.target? = some u ∧ u.toInt = t := by
  simp only [Scan.jumps, List.map_filterMap, List.mem_filterMap, Option.map_map,
    Option.map_eq_some_iff, Function.comp_apply]

theorem isTargeted_iff (ip : Nat) :
    isTargeted s ip = true ↔
      ∃ k ∈ s.instrs, ∃ u, k.instr.target? = some u ∧ u.toInt = ip := by
  rw [← mem_targets, isTargeted, List.any_eq_true]
  simp only [beq_iff_eq, List.mem_map]

theorem mem_unresolved (t : Int) :
    t ∈ unresolved s ↔
      (∃ k ∈ s.instrs, ∃ u, k.instr.target? = some u ∧ u.toInt = t) ∧
        ∀ k ∈ s.instrs, (k.ip : Int) ≠ t := by
  rw [unresolved, mem_foldr_insert, List.mem_filter, mem_targets, Bool.not_eq_true',
    ← Bool.not_eq_true, isStart_iff]
  simp only [not_exists, not_and, ne_eq]

/-! ## The lines of the text -/

theorem label_ne_int (ip : Nat) (t : Int) : label ip ≠ toString t := by
  intro h
  have hmem : 'L' ∈ (toString t).toList := by
    rw [← h, label, String.toList_append]
    exact List.mem_append_left _ (List.mem_singleton.mpr rfl)
  cases Decimal.numberChar_int hmem

theorem spelled_instrText (i : Instr) : Spelled s.instrs i (instrText s i) where
  plain h := by rw [instrText, h]
  labelled t ht k hk hip := by
    have hstart : s.isStart t.toInt = true := (isStart_iff s _).mpr ⟨k, hk, hip⟩
    rw [instrText, ht]
    simp only [if_pos hstart]
    rw [← hip, Int.toNat_natCast]
  bare t ht hno := by
    have hstart : ¬ s.isStart t.toInt = true := by
      rw [isStart_iff]
      rintro ⟨k, hk, hip⟩
      exact hno k hk hip
    have hbody : instrText s i = i.opcode.name ++ " " ++ toString t.toInt := by
      rw [instrText, ht]
      simp only [if_neg hstart]
      cases i with
      | branch b u =>
          cases ht
          rfl
      | _ => cases ht
    refine ⟨hbody, fun ip h => ?_⟩
    rw [hbody] at h
    exact label_ne_int ip _ (String.append_right_inj _ |>.mp h).symm

def rows (l : Located) : List String :=
  (if isTargeted s l.ip then [labelRow l.ip] else []) ++ [row l.ip (instrText s l.instr)]

theorem lines_eq (l : Located) : lines s l = (rows s l).map (· ++ "\n") := by
  have hlabel : label l.ip ++ ":\n" = labelRow l.ip ++ "\n" := by
    rw [labelRow, String.append_assoc]
    rfl
  rw [lines, rows, List.map_append]
  split
  · rw [hlabel]
    rfl
  · rfl

theorem group_rows (l : Located) : Group s.instrs l (rows s l) := by
  rw [rows]
  split
  next h =>
    obtain ⟨k, hk, t, ht, hip⟩ := (isTargeted_iff s _).mp h
    exact .targeted hk ht hip (spelled_instrText s _)
  next h =>
    refine .untargeted (fun k hk t ht hip => h ?_) (spelled_instrText s _)
    exact (isTargeted_iff s _).mpr ⟨k, hk, t, ht, hip⟩

theorem oneLine_label (ip : Nat) : OneLine (label ip) := .append (by decide) (.offset4 ip)

theorem oneLine_instrText (i : Instr) : OneLine (instrText s i) := by
  unfold instrText
  split
  · split
    · exact (i.opcode.oneLine_name.append (by decide)).append (oneLine_label _)
    · exact i.oneLine_text
  · exact i.oneLine_text

theorem oneLine_rows (l : Located) : ∀ r ∈ rows s l, OneLine r := by
  have hrow : OneLine (row l.ip (instrText s l.instr)) :=
    (((by decide : OneLine "    ").append (.offset4 l.ip)).append (by decide)).append
      (oneLine_instrText s l.instr)
  have hlabel : OneLine (labelRow l.ip) := (oneLine_label l.ip).append (by decide)
  intro r hr
  rw [rows] at hr
  rcases List.mem_append.mp hr with hr | hr
  · split at hr
    · rw [List.mem_singleton.mp hr]
      exact hlabel
    · cases hr
  · rw [List.mem_singleton.mp hr]
    exact hrow

theorem oneLine_strayRow (t : Int) : OneLine (strayRow t) := by
  have hfront : OneLine "; target " := by decide
  have hback : OneLine ": not an instruction boundary" := by decide
  rw [strayRow]
  exact (hfront.append (.int t)).append hback

theorem text_eq :
    text s = String.join
      ((s.instrs.flatMap (rows s) ++ (unresolved s).map strayRow).map (· ++ "\n")) := by
  have hstray : ∀ t, unresolvedLine t = strayRow t ++ "\n" := by
    intro t
    rw [unresolvedLine, strayRow]
    conv_rhs => rw [String.append_assoc]
    rfl
  rw [text, List.map_append, List.map_flatMap, List.map_map]
  congr 2
  · exact List.flatMap_congr fun l _ => lines_eq s l
  · exact List.map_congr_left fun t _ => hstray t

theorem splitOn_text :
    (text s).toList.splitOn '\n' =
      (s.instrs.flatMap (rows s) ++ (unresolved s).map strayRow).map String.toList ++ [[]] := by
  rw [text_eq]
  refine OneLine.splitOn_join fun r hr => ?_
  rcases List.mem_append.mp hr with hr | hr
  · obtain ⟨l, -, hr⟩ := List.mem_flatMap.mp hr
    exact oneLine_rows s l r hr
  · obtain ⟨t, -, rfl⟩ := List.mem_map.mp hr
    exact oneLine_strayRow t

theorem shows_text : Shows s.instrs (text s) (unresolved s) where
  lines := by
    refine ⟨s.instrs.map (rows s), ?_, ?_⟩
    · rw [List.forall₂_map_right_iff, List.forall₂_same]
      exact fun l _ => group_rows s l
    · rw [splitOn_text, List.flatMap_def]
  ascending := foldr_insert_ascending _
  mem_strays := mem_unresolved s

end

end Listing

end Bytecode

end StackCode
