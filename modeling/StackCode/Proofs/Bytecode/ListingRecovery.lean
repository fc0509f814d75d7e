import StackCode.Proofs.Bytecode.Decoding
import StackCode.Proofs.Bytecode.ListingLines
import StackCode.Proofs.Decimal.Literal

/-!
# The listing determines the program

Nothing is lost in a listing but which NaN a literal is. The lines of instructions are told from
the others by their indentation, the offset in front of an instruction ends at a blank, and so
does its name. What is left is the operand, and no two operands of one opcode are spelled alike.
-/
namespace StackCode

theorem Text.natural_offset4 (n : Nat) : Decimal.natural (Text.offset4 n).toList = n := by
  rw [Text.offset4, Text.digits, String.toList_ofList, Decimal.natural_leftpad]

theorem Text.isDigit_offset4 (n : Nat) : ∀ c ∈ (Text.offset4 n).toList, c.isDigit = true := by
  intro c hc
  rw [Text.offset4, Text.digits, String.toList_ofList] at hc
  rcases List.mem_append.mp hc with hpad | hdigit
  · exact Decimal.isDigit_zeros _ c hpad
  · exact Decimal.isDigit_toDigits n c hdigit

namespace Bytecode

/-! ## Names -/

namespace Register

theorem name_inj {r r' : Register} (h : r.name.toList = r'.name.toList) : r = r' := by
  have hnodup : (all.map fun r => r.name.toList).Nodup := by decide
  exact List.inj_on_of_nodup_map hnodup r.mem_all r'.mem_all h

theorem length_name (r : Register) : r.name.toList.length = 2 := by
  cases r <;> rfl

theorem letter_mem_name (r : Register) : 'x' ∈ r.name.toList := by
  cases r <;> decide

theorem bracket_notMem_name (r : Register) : '[' ∉ r.name.toList := by
  cases r <;> decide

end Register

namespace Opcode

theorem name_inj {op op' : Opcode} (h : op.name.toList = op'.name.toList) : op = op' := by
  have hnodup : (all.map fun op => op.name.toList).Nodup := by decide
  exact List.inj_on_of_nodup_map hnodup op.mem_all op'.mem_all h

theorem blank_notMem_name (op : Opcode) : ' ' ∉ op.name.toList := by
  have hall : ∀ op ∈ all, ' ' ∉ op.name.toList := by decide
  exact hall op op.mem_all

end Opcode

/-! ## Operands -/

namespace Cell

/-- What a cell shows behind its register. -/
def distance : Cell → List Char
  | .abs d => (toString d.toInt).toList
  | .ptr _ => []
  | .off _ d => (if d.toInt < 0 then [] else ['+']) ++ (toString d.toInt).toList

/-- What a cell shows between its brackets. -/
def inside (c : Cell) : List Char := (c.reg?.map fun r => r.name.toList).getD [] ++ c.distance

theorem toList_text (c : Cell) : c.text.toList = '[' :: (c.inside ++ [']']) := by
  cases c with
  | abs d => simp [text, inside, distance, reg?]
  | ptr r => simp [text, inside, distance, reg?]
  | off r d =>
      have hsign : (if d.toInt < 0 then "" else "+").toList =
          if d.toInt < 0 then [] else ['+'] := by
        split <;> rfl
      simp [text, inside, distance, reg?, hsign]

theorem numberChar_distance (c : Cell) : ∀ x ∈ c.distance, Decimal.numberChar x = true := by
  intro x hx
  cases c with
  | abs d => exact Decimal.numberChar_int hx
  | ptr r => cases hx
  | off r d =>
      rcases List.mem_append.mp hx with hsign | hx
      · split at hsign
        · cases hsign
        · rw [List.mem_singleton.mp hsign]
          rfl
      · exact Decimal.numberChar_int hx

theorem distance_off_ne_nil (r : Register) (d : Int32) : (off r d).distance ≠ [] := by
  intro hnil
  have hdigits := (List.append_eq_nil_iff.mp hnil).2
  rw [Decimal.toList_toString] at hdigits
  exact Nat.toDigits_ne_nil (List.append_eq_nil_iff.mp hdigits).2

/-- The register of a cell is seen by the letter that no number has. -/
theorem reg?_and_distance_of_inside {c c' : Cell} (h : c.inside = c'.inside) :
    c.reg? = c'.reg? ∧ c.distance = c'.distance := by
  have hletter : ∀ (c : Cell) (r : Register) (cs : List Char),
      c.distance ≠ r.name.toList ++ cs := by
    intro c r cs hc
    have hmem : 'x' ∈ c.distance := hc ▸ List.mem_append_left cs r.letter_mem_name
    cases c.numberChar_distance 'x' hmem
  unfold inside at h
  cases hr : c.reg? with
  | none =>
      cases hr' : c'.reg? with
      | none =>
          rw [hr, hr'] at h
          exact ⟨rfl, h⟩
      | some r' =>
          rw [hr, hr'] at h
          exact absurd h (hletter c r' c'.distance)
  | some r =>
      cases hr' : c'.reg? with
      | none =>
          rw [hr, hr'] at h
          exact absurd h.symm (hletter c' r c.distance)
      | some r' =>
          rw [hr, hr'] at h
          obtain ⟨hnames, hdistance⟩ := List.append_inj h (r.length_name.trans r'.length_name.symm)
          exact ⟨congrArg some (Register.name_inj hnames), hdistance⟩

theorem inside_inj {c c' : Cell} (h : c.inside = c'.inside) : c = c' := by
  obtain ⟨hreg, hdistance⟩ := reg?_and_distance_of_inside h
  cases c with
  | abs d =>
      cases c' with
      | abs d' =>
          have hd := congrArg Decimal.signed hdistance
          simp only [distance, Decimal.signed_toString, Int32.toInt_inj] at hd
          rw [hd]
      | ptr r' => cases hreg
      | off r' d' => cases hreg
  | ptr r =>
      cases c' with
      | abs d' => cases hreg
      | ptr r' =>
          cases hreg
          rfl
      | off r' d' => exact absurd hdistance.symm (distance_off_ne_nil r' d')
  | off r d =>
      cases c' with
      | abs d' => cases hreg
      | ptr r' => exact absurd hdistance (distance_off_ne_nil r d)
      | off r' d' =>
          cases hreg
          have hd := congrArg Decimal.signed hdistance
          simp only [distance, Decimal.signed_plus_toString, Int32.toInt_inj] at hd
          rw [hd]

theorem text_inj {c c' : Cell} (h : c.text.toList = c'.text.toList) : c = c' := by
  rw [toList_text, toList_text, List.cons.injEq, List.append_left_inj] at h
  exact inside_inj h.2

end Cell

/-- Two instructions that no listing tells apart: they are the same, or they push literals that
are NaN both. -/
inductive Instr.Alike : Instr → Instr → Prop
  | same (i : Instr) : Alike i i
  | nan {a b : UInt64} : Binary64.isNaN a = true → Binary64.isNaN b = true →
      Alike (.push (.imm a)) (.push (.imm b))

/-- A literal is spelled with characters of numbers, so it is no register and no cell. -/
theorem literal_ne_of_mem {x : Char} (hx : Decimal.numberChar x = false) {o : String}
    (ho : x ∈ o.toList) (bits : UInt64) : Decimal.literal.spell bits ≠ o := by
  rintro rfl
  rw [Decimal.numberChar_literal bits x ho] at hx
  cases hx

theorem Cell.bracket_mem_text (c : Cell) : '[' ∈ c.text.toList := by
  rw [toList_text]
  exact List.mem_cons_self

theorem Cell.text_ne_name (c : Cell) (r : Register) : c.text ≠ r.name := by
  intro h
  exact r.bracket_notMem_name (h ▸ c.bracket_mem_text)

namespace Instr

theorem alike_push {src src' : Source}
    (h : (push src).operandText? = (push src').operandText?) : Alike (.push src) (.push src') := by
  cases src with
  | imm a =>
      cases src' with
      | imm b =>
          rcases Decimal.eq_or_isNaN_of_spell_eq (Option.some.inj h) with rfl | ⟨ha, hb⟩
          · exact .same _
          · exact .nan ha hb
      | reg r => exact absurd (Option.some.inj h) (literal_ne_of_mem rfl r.letter_mem_name a)
      | mem c => exact absurd (Option.some.inj h) (literal_ne_of_mem rfl c.bracket_mem_text a)
  | reg r =>
      cases src' with
      | imm b => exact absurd (Option.some.inj h.symm) (literal_ne_of_mem rfl r.letter_mem_name b)
      | reg r' =>
          rw [Register.name_inj (congrArg String.toList (Option.some.inj h))]
          exact .same _
      | mem c => exact absurd (Option.some.inj h.symm) (c.text_ne_name r)
  | mem c =>
      cases src' with
      | imm b => exact absurd (Option.some.inj h.symm) (literal_ne_of_mem rfl c.bracket_mem_text b)
      | reg r => exact absurd (Option.some.inj h) (c.text_ne_name r)
      | mem c' =>
          rw [Cell.text_inj (congrArg String.toList (Option.some.inj h))]
          exact .same _

theorem alike_pop {dst dst' : Dest}
    (h : (pop dst).operandText? = (pop dst').operandText?) : Alike (.pop dst) (.pop dst') := by
  cases dst with
  | discard =>
      cases dst' with
      | discard => exact .same _
      | reg r => cases h
      | mem c => cases h
  | reg r =>
      cases dst' with
      | discard => cases h
      | reg r' =>
          rw [Register.name_inj (congrArg String.toList (Option.some.inj h))]
          exact .same _
      | mem c => exact absurd (Option.some.inj h.symm) (c.text_ne_name r)
  | mem c =>
      cases dst' with
      | discard => cases h
      | reg r => exact absurd (Option.some.inj h) (c.text_ne_name r)
      | mem c' =>
          rw [Cell.text_inj (congrArg String.toList (Option.some.inj h))]
          exact .same _

end Instr

namespace Listing

theorem label_inj {ip ip' : Nat} (h : label ip = label ip') : ip = ip' := by
  have hoffset := (String.append_right_inj _).mp h
  rw [← Text.natural_offset4 ip, hoffset, Text.natural_offset4]

/-- How a listing spells a target. -/
def targetText (s : Scan) (t : Int32) : String :=
  if s.isStart t.toInt then label t.toInt.toNat else toString t.toInt

def operand? (s : Scan) (i : Instr) : Option String :=
  match i.target? with
  | some t => some (targetText s t)
  | none => i.operandText?

theorem toInt_nonneg_of_isStart {s : Scan} {t : Int} (h : s.isStart t = true) : 0 ≤ t := by
  obtain ⟨k, -, rfl⟩ := (isStart_iff s t).mp h
  exact Int.natCast_nonneg _

theorem targetText_inj {s s' : Scan} {t t' : Int32} (h : targetText s t = targetText s' t') :
    t = t' := by
  rw [← Int32.toInt_inj]
  unfold targetText at h
  split at h
  next hstart =>
    split at h
    next hstart' =>
      have hip := label_inj h
      have hnonneg := toInt_nonneg_of_isStart hstart
      have hnonneg' := toInt_nonneg_of_isStart hstart'
      omega
    next => exact absurd h (label_ne_int _ _)
  next =>
    split at h
    next => exact absurd h.symm (label_ne_int _ _)
    next =>
      rw [← Decimal.signed_toString t.toInt, h, Decimal.signed_toString]

/-- An operand and the blank in front of it, or nothing if there is none. -/
def behindName : Option String → List Char
  | none => []
  | some o => ' ' :: o.toList

theorem blank_of_head_behindName (o : Option String) : ∀ x ∈ (behindName o).head?, x = ' ' := by
  intro x hx
  cases o with
  | none => cases hx
  | some o => exact (Option.some.inj hx).symm

theorem behindName_inj {o o' : Option String} (h : behindName o = behindName o') : o = o' := by
  cases o with
  | none =>
      cases o' with
      | none => rfl
      | some t' => cases h
  | some t =>
      cases o' with
      | none => cases h
      | some t' => rw [String.toList_inj.mp (List.cons.inj h).2]

theorem toList_instrText (s : Scan) (i : Instr) :
    (instrText s i).toList = i.opcode.name.toList ++ behindName (operand? s i) := by
  have hblank : ∀ op o : String, (op ++ " " ++ o).toList = op.toList ++ ' ' :: o.toList := by
    intro op o
    simp
  have htext : i.text.toList = i.opcode.name.toList ++ behindName i.operandText? := by
    unfold Instr.text
    split
    next o ho =>
      rw [ho]
      exact hblank _ o
    next ho =>
      rw [ho]
      exact (List.append_nil _).symm
  cases ht : i.target? with
  | none =>
      rw [instrText, operand?, ht]
      exact htext
  | some t =>
      have ho : i.operandText? = some (toString t.toInt) := by
        cases i with
        | branch b u =>
            cases ht
            rfl
        | _ => cases ht
      simp only [instrText, operand?, ht, targetText]
      split
      · exact hblank _ _
      · rw [htext, ho]

/-- The text of an instruction has its name in front of the first blank. -/
theorem opcode_and_operand_of_instrText {s s' : Scan} {i i' : Instr}
    (h : instrText s i = instrText s' i') :
    i.opcode = i'.opcode ∧ operand? s i = operand? s' i' := by
  have hchars := congrArg String.toList h
  rw [toList_instrText, toList_instrText] at hchars
  obtain ⟨hname, hoperand⟩ :=
    Text.append_mark_inj i.opcode.blank_notMem_name (blank_of_head_behindName _)
      i'.opcode.blank_notMem_name (blank_of_head_behindName _) hchars
  exact ⟨Opcode.name_inj hname, behindName_inj hoperand⟩

theorem alike_of_instrText {s s' : Scan} {i i' : Instr} (h : instrText s i = instrText s' i') :
    Instr.Alike i i' := by
  obtain ⟨hop, hoperand⟩ := opcode_and_operand_of_instrText h
  -- The opcode leaves one constructor for the other instruction.
  cases i with
  | push src =>
      cases i' <;> cases hop
      exact Instr.alike_push hoperand
  | pop dst =>
      cases i' <;> cases hop
      exact Instr.alike_pop hoperand
  | branch b t =>
      cases i' <;> cases hop
      rw [targetText_inj (Option.some.inj hoperand)]
      exact .same _
  | _ =>
      cases i' <;> cases hop
      exact .same _

/-! ## Lines of instructions -/

def isRow (cs : List Char) : Bool := cs.head? == some ' '

theorem toList_row (ip : Nat) (body : String) :
    (row ip body).toList =
      List.replicate 4 ' ' ++ ((Text.offset4 ip).toList ++ ' ' :: ' ' :: body.toList) := by
  simp [row]

/-- However wide an offset is, it has no blank in it. -/
theorem body_of_row {ip ip' : Nat} {body body' : String}
    (h : (row ip body).toList = (row ip' body').toList) : body = body' := by
  have hblank : ∀ n, ' ' ∉ (Text.offset4 n).toList :=
    fun n hmem => Decimal.ne_of_isDigit rfl (Text.isDigit_offset4 n _ hmem) rfl
  have hmark : ∀ cs : List Char, ∀ x ∈ (' ' :: cs).head?, x = ' ' :=
    fun cs x hx => (Option.some.inj (Option.mem_def.mp hx)).symm
  rw [toList_row, toList_row, List.append_right_inj] at h
  obtain ⟨-, htail⟩ := Text.append_mark_inj (hblank ip) (hmark _) (hblank ip') (hmark _) h
  exact String.toList_inj.mp (List.cons.inj (List.cons.inj htail).2).2

theorem filter_rows (s : Scan) (l : Located) :
    ((rows s l).map String.toList).filter isRow = [(row l.ip (instrText s l.instr)).toList] := by
  have hlabel : isRow (labelRow l.ip).toList = false := by
    simp [isRow, labelRow, label]
  have hrow : isRow (row l.ip (instrText s l.instr)).toList = true := by
    rw [toList_row]
    rfl
  rw [rows]
  split <;> simp [hlabel, hrow]

theorem filter_lines (s : Scan) :
    ((text s).toList.splitOn '\n').filter isRow =
      s.instrs.map fun l => (row l.ip (instrText s l.instr)).toList := by
  have hrows : ((s.instrs.flatMap (rows s)).map String.toList).filter isRow =
      s.instrs.map fun l => (row l.ip (instrText s l.instr)).toList := by
    rw [List.map_flatMap, List.filter_flatMap, List.map_eq_flatMap]
    exact List.flatMap_congr fun l _ => filter_rows s l
  have hstrays : (((unresolved s).map strayRow).map String.toList).filter isRow = [] := by
    rw [List.filter_eq_nil_iff]
    intro cs hcs
    obtain ⟨r, hr, rfl⟩ := List.mem_map.mp hcs
    obtain ⟨t, -, rfl⟩ := List.mem_map.mp hr
    simp [isRow, strayRow]
  rw [splitOn_text, List.map_append, List.filter_append, List.filter_append, hrows, hstrays,
    List.append_nil]
  exact List.append_nil _

/-- Listings with the same text list instructions that are alike, one by one. -/
theorem alike_of_text {s s' : Scan} (h : text s = text s') :
    List.Forall₂ Instr.Alike (s.instrs.map Located.instr) (s'.instrs.map Located.instr) := by
  have hlines : s.instrs.map (fun l => (row l.ip (instrText s l.instr)).toList) =
      s'.instrs.map (fun l => (row l.ip (instrText s' l.instr)).toList) := by
    rw [← filter_lines, h, filter_lines]
  rw [← List.forall₂_eq_eq_eq, List.forall₂_map_left_iff, List.forall₂_map_right_iff] at hlines
  rw [List.forall₂_map_left_iff, List.forall₂_map_right_iff]
  exact hlines.imp fun l l' hrow => alike_of_instrText (body_of_row hrow)

end Listing

/-! ## Bytes -/

namespace Instr.Alike

variable {i i' : Instr}

theorem len_eq (h : Alike i i') : i.len = i'.len := by
  cases h <;> rfl

/-- Instructions that are alike differ at most in the eight bytes of a literal. -/
theorem exists_of_encode_ne (h : Alike i i') {j : Nat} (hne : i.encode[j]? ≠ i'.encode[j]?) :
    ∃ a b, i = .push (.imm a) ∧ i' = .push (.imm b) ∧ Binary64.isNaN a = true ∧
      Binary64.isNaN b = true ∧ 4 ≤ j ∧ j < 12 := by
  cases h with
  | same => exact absurd rfl hne
  | @nan a b ha hb =>
      refine ⟨a, b, rfl, rfl, ha, hb, ?_, ?_⟩
      · by_contra hlt
        have hfront : ∀ c, (push (.imm c)).encode[j]? = ([0x01, 0, 0, 1] : Bytes)[j]? := by
          intro c
          have hshape : (push (.imm c)).encode = [0x01, 0, 0, 1] ++ Bytes.ofWord64 c := rfl
          rw [hshape, List.getElem?_append_left (Nat.not_le.mp hlt)]
        exact hne ((hfront a).trans (hfront b).symm)
      · by_contra hge
        have hnone : ∀ c, (push (.imm c)).encode[j]? = none := by
          intro c
          rw [List.getElem?_eq_none_iff, length_encode]
          exact Nat.not_lt.mp hge
        exact hne ((hnone a).trans (hnone b).symm)

end Instr.Alike

/-- Do instructions of both lists push, at the same offset, literals that are NaN both and that
hold the byte at `j`? -/
def InNaNLiteral (ls ls' : List Located) (j : Nat) : Prop :=
  ∃ ip a b, ⟨ip, .push (.imm a)⟩ ∈ ls ∧ ⟨ip, .push (.imm b)⟩ ∈ ls' ∧
    Binary64.isNaN a = true ∧ Binary64.isNaN b = true ∧ ip + 4 ≤ j ∧ j < ip + 12

section
variable {is is' : List Instr} (h : List.Forall₂ Instr.Alike is is')
include h

theorem length_encodeAll_of_alike :
    (is.flatMap Instr.encode).length = (is'.flatMap Instr.encode).length := by
  induction h with
  | nil => rfl
  | cons hi _ ih =>
      rw [List.flatMap_cons, List.flatMap_cons, List.length_append, List.length_append, ih,
        Instr.length_encode, Instr.length_encode, hi.len_eq]

theorem inNaNLiteral_of_encodeAll_ne (ip : Nat) {j : Nat}
    (hne : (is.flatMap Instr.encode)[j]? ≠ (is'.flatMap Instr.encode)[j]?) :
    InNaNLiteral (Located.place ip is) (Located.place ip is') (ip + j) := by
  -- Encodings of instructions that are alike are of one length, so a byte is in the first of
  -- both or behind the first of both.
  induction h generalizing ip j with
  | nil => exact absurd rfl hne
  | @cons i i' is is' hi _ ih =>
      rw [List.flatMap_cons, List.flatMap_cons] at hne
      have hlen := hi.len_eq
      rcases Nat.lt_or_ge j i.len with hlt | hge
      · rw [List.getElem?_append_left (by rw [Instr.length_encode]; omega),
          List.getElem?_append_left (by rw [Instr.length_encode]; omega)] at hne
        obtain ⟨a, b, rfl, rfl, ha, hb, hlow, hhigh⟩ := hi.exists_of_encode_ne hne
        exact ⟨ip, a, b, List.mem_cons_self, List.mem_cons_self, ha, hb, by omega, by omega⟩
      · rw [List.getElem?_append_right (by rw [Instr.length_encode]; omega),
          List.getElem?_append_right (by rw [Instr.length_encode]; omega), Instr.length_encode,
          Instr.length_encode, ← hlen] at hne
        obtain ⟨p, a, b, hmem, hmem', ha, hb, hlow, hhigh⟩ := ih (ip + i.len) hne
        rw [Located.place, Located.place, ← hlen]
        exact ⟨p, a, b, List.mem_cons_of_mem _ hmem, List.mem_cons_of_mem _ hmem', ha, hb,
          by omega, by omega⟩

end

theorem Located.map_instr_place (ip : Nat) (is : List Instr) :
    (place ip is).map instr = is := by
  induction is generalizing ip with
  | nil => rfl
  | cons i is ih => rw [place, List.map_cons, ih]

namespace Listing

theorem exists_of_ofCode {code : Bytes} {t : String} (h : ofCode code = .ok t) :
    ∃ is : List Instr, code = is.flatMap Instr.encode ∧
      Scan.ofCode code = ⟨Located.place 0 is, none⟩ ∧ text ⟨Located.place 0 is, none⟩ = t := by
  have hfault : (Scan.ofBytes 0 0 code).fault = none := by
    cases hf : (Scan.ofBytes 0 0 code).fault with
    | none => rfl
    | some f => simp [ofCode, Scan.ofCode, Scan.complete?, hf, Except.map] at h
  obtain ⟨is, rfl⟩ := Scan.exists_encodeAll hfault
  have hscan : Scan.ofCode (is.flatMap Instr.encode) = ⟨Located.place 0 is, none⟩ :=
    Scan.ofBytes_encodeAll 0 is
  refine ⟨is, rfl, hscan, ?_⟩
  simp only [ofCode, hscan] at h
  exact Except.ok.inj h

/-- Two programs with the same listing have the same length, and they agree on every byte that
is not part of a literal which is NaN in both. -/
theorem listing_determines_code {code code' : Bytes} {t : String} (h : ofCode code = .ok t)
    (h' : ofCode code' = .ok t) :
    code.length = code'.length ∧
      ∀ j, ¬ InNaNLiteral (Scan.ofCode code).instrs (Scan.ofCode code').instrs j →
        code[j]? = code'[j]? := by
  obtain ⟨is, rfl, hscan, htext⟩ := exists_of_ofCode h
  obtain ⟨is', rfl, hscan', htext'⟩ := exists_of_ofCode h'
  have halike := alike_of_text (htext.trans htext'.symm)
  rw [Located.map_instr_place, Located.map_instr_place] at halike
  refine ⟨length_encodeAll_of_alike halike, fun j hj => ?_⟩
  by_contra hne
  have hin := inNaNLiteral_of_encodeAll_ne halike 0 hne
  rw [hscan, hscan', ← Nat.zero_add j] at hj
  exact hj hin

/-- Pushes a double, jumps back to that, calls what is no instruction, and halts. -/
def pushing (bits : UInt64) : List Instr :=
  [.push (.imm bits), .branch .jmp 0, .branch .call (-7), .hlt]

theorem listing_determines_code_nans :
    let code := (pushing 0x7ff8000000000001).flatMap Instr.encode
    let code' := (pushing 0xfff8000000000000).flatMap Instr.encode
    (∃ t, ofCode code = .ok t ∧ ofCode code' = .ok t) ∧ code ≠ code' ∧
      ∀ j, j < 4 ∨ 12 ≤ j → code[j]? = code'[j]? := by
  intro code code'
  have hcode : ofCode code = .ok ("L0000:\n    0000  push NaN\n    0012  jmp L0000\n" ++
      "    0017  call -7\n    0022  hlt\n; target -7: not an instruction boundary\n") := by
    decide +kernel
  have hcode' : ofCode code' = .ok ("L0000:\n    0000  push NaN\n    0012  jmp L0000\n" ++
      "    0017  call -7\n    0022  hlt\n; target -7: not an instruction boundary\n") := by
    decide +kernel
  have hscan : Scan.ofCode code = ⟨Located.place 0 (pushing 0x7ff8000000000001), none⟩ :=
    Scan.ofBytes_encodeAll 0 _
  refine ⟨⟨_, hcode, hcode'⟩, by decide, fun j hj => ?_⟩
  refine (listing_determines_code hcode hcode').2 j ?_
  rintro ⟨ip, a, b, hmem, -, -, -, hlow, hhigh⟩
  rw [hscan] at hmem
  have hip : ip = 0 := by
    simp [pushing, Located.place] at hmem
    exact hmem.1
  omega

end Listing

end Bytecode

end StackCode
