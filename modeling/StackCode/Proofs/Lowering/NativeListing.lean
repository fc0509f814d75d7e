import StackCode.Lowering.Listing
import StackCode.Proofs.Lowering.Placement
import StackCode.Proofs.X64.Spelling

/-!
# The native listing of an image

An image that has the templates of a program, with anything in their fields, is listed without a
fault. A listing shows its bytes with no mark between the instructions; since every block is a row
of whole instructions whatever its field holds, reading finds exactly these. So each block is
listed as the instructions of its template, no byte is left over, and the offsets and bytes
that can be read off the lines are those of the image.
-/
namespace StackCode.Lowering

open Bytecode X64

/-! ## Images with anything in their fields -/

/-- The bytes of a template, with anything in its fields. -/
def Template.Matches (t : Template) (block : Bytes) : Prop :=
  block.length = t.code.length ∧
    ∀ i : Nat, (∀ m ∈ t.slots, ¬ (m.2 ≤ i ∧ i < m.2 + m.1.width)) → block[i]? = t.code[i]?

instance (t : Template) (block : Bytes) : Decidable (t.Matches block) :=
  decidable_of_iff (block.length = t.code.length ∧ ∀ i < t.code.length,
      (∀ m ∈ t.slots, ¬ (m.2 ≤ i ∧ i < m.2 + m.1.width)) → block[i]? = t.code[i]?) <| by
    refine and_congr_right fun hlen => ⟨fun h i hi => ?_, fun h i _ => h i⟩
    rcases Nat.lt_or_ge i t.code.length with hin | hout
    · exact h i hin hi
    · rw [List.getElem?_eq_none hout, List.getElem?_eq_none (hlen ▸ hout)]

/-- The templates of the instructions in a row, with anything in their fields. -/
def Expected.Templates (ls : List Located) (image : Bytes) : Prop :=
  ∃ blocks, image = List.flatten blocks ∧
    List.Forall₂ (fun l block => ∃ t, template? ls l = some t ∧ t.Matches block) ls blocks

theorem exists_field_bytes {slot : Slot} {bs : Bytes} (h : bs.length = slot.width) :
    ∃ f : Field, f.bytes = bs := by
  unfold Slot.width at h
  split at h
  · exact ⟨.word64 _, Bytes.ofWord64_toNat h⟩
  · exact ⟨.word32 (UInt32.ofNat bs.toNat).toInt32, Bytes.ofWord32_toNat h⟩

/-- A block that has the template of an instruction is a row of whole instructions: those of the
template, with the field that the block has. -/
theorem Template.Matches.exists_code {i : Instr} {padded : Bool} {block : Bytes}
    (h : (ofBlock (Block.ofInstr i padded)).Matches block) :
    ∃ f : Field, block = Insn.encodeAll ((Block.ofInstr i padded).fill f) ∧
      ∀ m ∈ (ofBlock (Block.ofInstr i padded)).slots,
        f.bytes = (block.drop m.2.toNat).take m.1.width := by
  obtain ⟨hlen, hsame⟩ := h
  cases hslot : Slot.ofInstr? i with
  | none =>
      obtain ⟨hslots, hcode⟩ := ofBlock_unmarked padded hslot
      rw [hslots] at hsame ⊢
      have hblock := List.ext_getElem? fun i => hsame i (List.forall_mem_nil _)
      exact ⟨.word32 0, hblock.trans (hcode _), List.forall_mem_nil _⟩
  | some slot =>
      obtain ⟨pos, hslots, hfit, hcode⟩ := ofBlock_field padded hslot
      rw [hslots] at hsame ⊢
      have hblock := Bytes.eq_overwrite hlen hfit fun i hi =>
        hsame i (List.forall_mem_singleton.mpr (by simpa using by omega))
      have hwidth := Bytes.length_slice (hlen.symm ▸ hfit)
      obtain ⟨f, hf⟩ := exists_field_bytes hwidth
      rw [← hf, hcode f (by rw [hf, hwidth])] at hblock
      exact ⟨f, hblock, List.forall_mem_singleton.mpr hf⟩

/-! ## Lines -/

namespace Listing

open Text (OneLine)

structure Row where
  offset : Nat
  insn : Insn
deriving DecidableEq, Repr

namespace Row

def bytes (r : Row) : Bytes := r.insn.encode

def text (r : Row) : String :=
  "0x" ++ Text.hex 4 r.offset ++ ": " ++ padRight 32 (Text.hexColumn r.bytes) ++ " " ++
    r.insn.text r.offset r.bytes.length

def along (offset : Nat) : List Insn → List Row
  | [] => []
  | i :: is => ⟨offset, i⟩ :: along (offset + i.encode.length) is

theorem along_append (offset : Nat) (a b : List Insn) :
    along offset (a ++ b) = along offset a ++ along (offset + (Insn.encodeAll a).length) b := by
  induction a generalizing offset with
  | nil => rfl
  | cons i a ih =>
      rw [List.cons_append, along, along, ih, Insn.encodeAll_cons, List.length_append,
        Nat.add_assoc, List.cons_append]

theorem flatMap_bytes_along (offset : Nat) (is : List Insn) :
    (along offset is).flatMap bytes = Insn.encodeAll is := by
  induction is generalizing offset with
  | nil => rfl
  | cons i is ih => rw [along, List.flatMap_cons, ih, bytes, Insn.encodeAll_cons]

theorem offset_of_along {offset : Nat} {is : List Insn} {before after : List Row} {r : Row}
    (h : along offset is = before ++ r :: after) :
    r.offset = offset + (before.flatMap bytes).length := by
  induction before generalizing offset is with
  | nil =>
      cases is with
      | nil => cases h
      | cons i is =>
          obtain ⟨rfl, -⟩ := List.cons.inj h
          rfl
  | cons k before ih =>
      cases is with
      | nil => cases h
      | cons i is =>
          obtain ⟨rfl, htail⟩ := List.cons.inj h
          rw [ih htail, List.flatMap_cons, List.length_append, bytes, Nat.add_assoc]

theorem oneLine_text (r : Row) : OneLine r.text := by
  have hmark : OneLine "0x" := by decide
  have hcolon : OneLine ": " := by decide
  have hblank : OneLine " " := by decide
  have hcolumn : OneLine (padRight 32 (Text.hexColumn r.bytes)) := by
    intro hmem
    rw [padRight, String.toList_append, String.toList_ofList, List.mem_append] at hmem
    rcases hmem with hmem | hmem
    · exact absurd (Text.mem_hexColumn hmem) (by decide)
    · cases List.eq_of_mem_replicate hmem
  exact ((((hmark.append (.hex 4 _)).append hcolon).append hcolumn).append hblank).append
    (r.insn.oneLine_text _ _)

end Row

def sourceRow (l : Located) : String := "; " ++ Text.offset4 l.ip ++ "  " ++ l.instr.text

def textRows (ls : List Located) (groups : List (List Row)) : List String :=
  (ls.zip groups).flatMap fun (l, rows) => sourceRow l :: rows.map Row.text

theorem mem_textRows {ls : List Located} {groups : List (List Row)} {row : String}
    (h : row ∈ textRows ls groups) : (∃ l, row = sourceRow l) ∨ ∃ r : Row, row = r.text := by
  obtain ⟨p, -, hrow⟩ := List.mem_flatMap.mp h
  rcases List.mem_cons.mp hrow with rfl | hrow
  · exact .inl ⟨p.1, rfl⟩
  · obtain ⟨r, -, rfl⟩ := List.mem_map.mp hrow
    exact .inr ⟨r, rfl⟩

theorem oneLine_textRows (ls : List Located) (groups : List (List Row)) :
    ∀ row ∈ textRows ls groups, OneLine row := by
  intro row hrow
  rcases mem_textRows hrow with ⟨l, rfl⟩ | ⟨r, rfl⟩
  · exact .operands (by decide) (.offset4 l.ip) (by decide) l.instr.oneLine_text
  · exact r.oneLine_text

/-- Reads the offset and the bytes that a line shows. -/
def printed? : List Char → Option (Nat × Bytes)
  | '0' :: 'x' :: line => do
      let offset ← Text.hexValue? (line.takeWhile (· ≠ ':'))
      let column := ((line.dropWhile (· ≠ ':')).drop 2).take 32
      let bytes ← Text.hexBytes? (column.filter (· ≠ ' '))
      some (offset, bytes)
  | _ => none

theorem lines_encodeAll {is : List Insn} (h : ∀ i ∈ is, i.encodable) {fuel : Nat} (offset : Nat)
    (hfuel : (Insn.encodeAll is).length ≤ fuel) :
    lines fuel offset (Insn.encodeAll is) =
      (Row.along offset is).map fun r => r.text ++ "\n" := by
  induction is generalizing fuel offset with
  | nil => cases fuel <;> rfl
  | cons i is ih =>
      have hpos := i.length_encode_bounds.1
      have hread := Insn.read_encode (h i (.head _)) (Insn.encodeAll is)
      rw [Insn.encodeAll_cons, List.length_append] at hfuel
      obtain ⟨b, bs, hbs⟩ := List.exists_cons_of_length_pos hpos
      cases fuel with
      | zero => omega
      | succ fuel =>
          have hrest := ih (fun j hj => h j (.tail _ hj)) (offset + i.encode.length)
            (show (Insn.encodeAll is).length ≤ fuel by omega)
          -- whatever follows, reading stops where the encoding does
          have hall : i.encode ++ Insn.encodeAll is = b :: (bs ++ Insn.encodeAll is) := by
            rw [hbs, List.cons_append]
          have hsize : (bs ++ Insn.encodeAll is).length + 1 - (Insn.encodeAll is).length =
              i.encode.length := by
            rw [hbs, List.length_append, List.length_cons]
            omega
          have htake : (i.encode ++ Insn.encodeAll is).take i.encode.length = i.encode :=
            List.take_left
          rw [hall] at hread htake
          rw [Insn.encodeAll_cons, hall]
          simp only [lines, hread, hsize, htake, hrest]
          rfl

/-! ## Reading lines -/

theorem printed?_offset (offset : Nat) (body : List Char) :
    printed? ('0' :: 'x' :: ((Text.hex 4 offset).toList ++ ':' :: ' ' :: body)) =
      (Text.hexBytes? ((body.take 32).filter (· ≠ ' '))).map fun bytes => (offset, bytes) := by
  have hdigits : ∀ c ∈ (Text.hex 4 offset).toList, decide (c ≠ ':') = true := by
    intro c hc
    refine decide_eq_true ?_
    rintro rfl
    exact absurd (Text.isSome_of_mem_hex hc) (by decide)
  have hfront : ((Text.hex 4 offset).toList ++ ':' :: ' ' :: body).takeWhile (· ≠ ':') =
      (Text.hex 4 offset).toList := by
    rw [List.takeWhile_append_of_pos hdigits, List.takeWhile_cons_of_neg (by decide),
      List.append_nil]
  have hback : ((Text.hex 4 offset).toList ++ ':' :: ' ' :: body).dropWhile (· ≠ ':') =
      ':' :: ' ' :: body := by
    rw [List.dropWhile_append_of_pos hdigits, List.dropWhile_cons_of_neg (by decide)]
  simp only [printed?, hfront, hback, Text.hexValue?_hex, List.drop_succ_cons, List.drop_zero]
  cases Text.hexBytes? ((body.take 32).filter (· ≠ ' ')) <;> rfl

theorem printed?_row (r : Row) : printed? r.text.toList = some (r.offset, r.bytes) := by
  -- no instruction is too long for its column
  have hshort : (Text.hexColumn r.bytes).toList.length ≤ 32 := by
    have hcolumn := Text.length_hexColumn r.bytes
    have hlen : r.bytes.length ≤ 10 := r.insn.length_encode_bounds.2
    omega
  have hpad : (padRight 32 (Text.hexColumn r.bytes)).toList = (Text.hexColumn r.bytes).toList ++
      List.replicate (32 - (Text.hexColumn r.bytes).toList.length) ' ' := by
    rw [padRight, String.toList_append, String.toList_ofList, String.length_toList]
  have hwide : (padRight 32 (Text.hexColumn r.bytes)).toList.length = 32 := by
    rw [hpad, List.length_append, List.length_replicate]
    omega
  have hline : r.text.toList = '0' :: 'x' :: ((Text.hex 4 r.offset).toList ++ ':' :: ' ' ::
      ((padRight 32 (Text.hexColumn r.bytes)).toList ++
        ' ' :: (r.insn.text r.offset r.bytes.length).toList)) := by
    simp [Row.text]
  rw [hline, printed?_offset, List.take_left' hwide, hpad, List.filter_append,
    List.filter_replicate_of_neg (by decide), List.append_nil, Text.hexBytes?_hexColumn,
    Option.map_some]

theorem printed?_sourceRow (l : Located) : printed? (sourceRow l).toList = none := by
  simp [sourceRow, printed?]

/-- What can be read off the lines are the machine instructions. -/
theorem filterMap_textRows {R : Located → List Row → Prop} {ls : List Located}
    {groups : List (List Row)} (h : List.Forall₂ R ls groups) :
    ((textRows ls groups).map String.toList).filterMap printed? =
      groups.flatten.map fun r => (r.offset, r.bytes) := by
  induction h with
  | nil => rfl
  | @cons l rows ls groups _ _ ih =>
      have hgroup : (sourceRow l :: rows.map Row.text).filterMap (printed? ∘ String.toList) =
          rows.map fun r => (r.offset, r.bytes) := by
        have hsource : (printed? ∘ String.toList) (sourceRow l) = none := by
          rw [Function.comp_apply, printed?_sourceRow]
        have hrow : (printed? ∘ String.toList) ∘ Row.text = fun r => some (r.offset, r.bytes) := by
          funext r
          rw [Function.comp_apply, Function.comp_apply, printed?_row]
        rw [List.filterMap_cons_none hsource, List.filterMap_map, hrow, List.filterMap_eq_map']
      rw [List.filterMap_map] at ih ⊢
      rw [textRows, List.zip_cons_cons, List.flatMap_cons, List.filterMap_append, hgroup,
        List.flatten_cons, List.map_append, ← ih]
      rfl

/-- The line of a byte that starts no instruction starts as a machine instruction's line does,
but no bytes can be read off it. -/
theorem ne_byteText {line : List Char} (h : printed? line ≠ none ∨ line.head? ≠ some '0')
    (offset : Nat) (b : UInt8) : line ++ ['\n'] ≠ (byteText offset b).toList := by
  have hline : (byteText offset b).toList = '0' :: 'x' :: ((Text.hex 4 offset).toList ++
      ':' :: ' ' :: 'd' :: 'b' :: ' ' :: '0' :: 'x' :: (Text.hexByte b).toList) ++ ['\n'] := by
    simp [byteText]
  have hnone (cs : List Char) : Text.hexBytes? ('d' :: 'b' :: '0' :: 'x' :: cs) = none := rfl
  rw [hline]
  intro heq
  obtain rfl := List.append_cancel_right heq
  rcases h with h | h
  · refine h ?_
    rw [printed?_offset]
    simp [hnone]
  · exact h rfl

/-! ## Listings of images -/

/-- The lines of a step: the instructions of its template in order, with the field that `native`
has there. -/
def Shows (native : Bytes) (s : Step) (rows : List Row) : Prop :=
  ∃ f : Field,
    rows = Row.along s.nativeIp
      ((Block.ofInstr s.instr (Variant.needsPadding s.instr s.depth)).fill f) ∧
    (rows.flatMap Row.bytes).length = s.desc.nativeLen ∧
    ∀ m ∈ s.desc.template.slots,
      f.bytes = (native.drop (s.nativeIp + m.2.toNat)).take m.1.width

theorem Shows.blockLines {native : Bytes} {s : Step} {rows : List Row} (h : Shows native s rows) :
    blockLines s.nativeIp (rows.flatMap Row.bytes) = rows.map fun r => r.text ++ "\n" := by
  obtain ⟨f, rfl, -, -⟩ := h
  rw [Row.flatMap_bytes_along, Listing.blockLines]
  exact lines_encodeAll (Block.encodable_fill f _ _) _ (Nat.le_refl _)

/-- Steps whose code is in the image are listed as the rows of that code. -/
theorem follow_shows {native : Bytes} {size : Nat} {ss : List Step} {groups : List (List Row)}
    (h : List.Forall₂ (Shows native) ss groups)
    (hfit : ∀ s ∈ ss, s.nativeIp + s.desc.nativeLen ≤ size) (rest : Bytes) :
    follow size ss (groups.flatten.flatMap Row.bytes ++ rest) =
      .ok ((textRows (ss.map fun s => ⟨s.ip, s.instr⟩) groups).map (· ++ "\n")) := by
  induction h with
  | nil => rfl
  | @cons s rows ss groups hs _ ih =>
      have hfirst := hfit s (.head _)
      have hlines := hs.blockLines
      obtain ⟨-, -, hlen, -⟩ := hs
      have hnext := ih fun t ht => hfit t (.tail _ ht)
      rw [follow, if_neg (Nat.not_lt.mpr hfirst), List.flatten_cons, List.flatMap_append,
        List.append_assoc, List.drop_left' hlen, List.take_left' hlen, hnext, hlines]
      simp [Except.map, textRows, sourceLine, sourceRow]

/-- What stands in a block is found behind the bytes in front of the block. -/
theorem slice_block {lead block : Bytes} {pos width : Nat} (h : pos + width ≤ block.length)
    (rest : Bytes) : ((lead ++ (block ++ rest)).drop (lead.length + pos)).take width =
      (block.drop pos).take width := by
  rw [← List.drop_drop, List.drop_left, List.drop_append_of_le_length (by omega),
    List.take_append_of_le_length (by rw [List.length_drop]; omega)]

/-- Blocks that have the templates of the steps, wherever they stand. -/
theorem exists_groups {native : Nat} {depth : Int} {ls : List Located} {blocks : List Bytes}
    (h : List.Forall₂ (fun s block => s.desc.template.Matches block)
      (Step.along native depth ls) blocks)
    {lead : Bytes} (hlead : lead.length = native) (rest : Bytes) :
    ∃ groups, List.Forall₂ (Shows (lead ++ (blocks.flatten ++ rest)))
        (Step.along native depth ls) groups ∧
      groups.flatten.flatMap Row.bytes = blocks.flatten ∧
      blocks.flatten.length = span depth ls ∧ ∃ is, groups.flatten = Row.along native is := by
  induction ls generalizing native depth blocks lead with
  | nil =>
      cases h
      exact ⟨[], .nil, rfl, rfl, [], rfl⟩
  | cons l ls ih =>
      cases h with
      | @cons _ block _ blocks hblock hblocks =>
          obtain ⟨f, hcode, hfield⟩ := hblock.exists_code
          have hlen : block.length = (Descriptor.ofInstr l.instr depth).nativeLen := hblock.1
          -- the block moves to the bytes in front of the next one
          have hnext : (lead ++ block).length =
              native + (Descriptor.ofInstr l.instr depth).nativeLen := by
            rw [List.length_append, hlead, hlen]
          obtain ⟨groups, hgroups, hbytes, hspan, is, hrows⟩ := ih hblocks hnext
          let s : Step := ⟨l.ip, l.instr, .ofInstr l.instr depth, native, depth⟩
          let code := (Block.ofInstr l.instr (Variant.needsPadding l.instr depth)).fill f
          have hshows : Shows (lead ++ (block ++ (blocks.flatten ++ rest))) s
              (Row.along native code) := by
            refine ⟨f, rfl, ?_, fun m hm => ?_⟩
            · rw [Row.flatMap_bytes_along, ← hcode, hlen]
            · have hfits : Expected.Fits s.desc.template s.instr := Step.fits rfl
              have hin := hfits.2 m hm
              have hsize : block.length = s.desc.template.code.length := hblock.1
              have hfit : m.2.toNat + m.1.width ≤ block.length := by omega
              have hat : s.nativeIp = lead.length := hlead.symm
              rw [hat, slice_block hfit]
              exact hfield m hm
          refine ⟨Row.along native code :: groups, ?_, ?_, ?_, code ++ is, ?_⟩
          · rw [List.flatten_cons, List.append_assoc]
            rw [List.append_assoc] at hgroups
            exact .cons hshows hgroups
          · rw [List.flatten_cons, List.flatMap_append, Row.flatMap_bytes_along, ← hcode, hbytes,
              List.flatten_cons]
          · rw [List.flatten_cons, List.length_append, hlen, hspan, span]
          · rw [List.flatten_cons, hrows, Row.along_append, ← hcode, hlen]

/-- The lines of an instruction among `ls`: the machine instructions that the catalog's template
has for it there, from the place of its block on, with the field that `native` has. -/
def Group (layout : Layout) (ls : List Located) (native : Bytes) (l : Located) (rows : List Row) :
    Prop :=
  let block := Block.ofInstr l.instr (Variant.needsPadding l.instr (Expected.depth ls l.ip))
  ∃ (start : Nat) (f : Field), layout.offset? l.ip = some start ∧
    Expected.template? ls l = some (.ofBlock block) ∧
    rows = Row.along start (block.fill f) ∧
    ∀ m ∈ (Template.ofBlock block).slots,
      f.bytes = (native.drop (start + m.2.toNat)).take m.1.width

theorem Shows.group {code : Bytes} (hf : (Scan.ofCode code).fault = none) {s : Step}
    (hs : s ∈ Step.along 0 0 (Scan.ofCode code).instrs) {native : Bytes} {rows : List Row}
    (h : Shows native s rows) :
    Group (.ofInstrs code.length (Scan.ofCode code).instrs) (Scan.ofCode code).instrs native
      ⟨s.ip, s.instr⟩ rows := by
  have hasc := Scan.instrs_ascending hf
  have htemplate := Expected.template?_step hasc hs
  obtain ⟨f, hrows, -, hfield⟩ := h
  rw [Step.desc_of_mem_along hs] at htemplate hfield
  unfold Group
  simp only [Expected.depth_step hasc hs]
  exact ⟨s.nativeIp, f, Layout.offset?_step hf hs, htemplate, hrows, hfield⟩

end Listing

theorem Step.forall₂_along {β : Type} {R : Located → β → Prop} (native : Nat) (depth : Int)
    {ls : List Located} {xs : List β} :
    List.Forall₂ R ls xs ↔
      List.Forall₂ (fun s x => R ⟨s.ip, s.instr⟩ x) (along native depth ls) xs := by
  have hmap := List.forall₂_map_left_iff (R := R) (f := fun s : Step => (⟨s.ip, s.instr⟩ : Located))
    (l := along native depth ls) (u := xs)
  rwa [map_along] at hmap

open Listing

/-- Every buffer that starts with the templates of an accepted program, whatever is in their
fields, is listed: under the line of each instruction stand the machine instructions of its
template in order, with the fields that the buffer has, and no byte stands alone. The offsets
that the lines show follow from the bytes that they show, and these are the image. -/
theorem native_listing_covers_image {code native : Bytes} {layout : Layout}
    (hl : Layout.ofCode (some code) = .ok layout)
    (hn : Expected.Templates (Scan.ofCode code).instrs (native.take layout.nativeLen)) :
    let ls := (Scan.ofCode code).instrs
    ∃ text groups, Listing.ofCode (some code) native = .ok text ∧
      let lines := text.toList.splitOn '\n'
      let shown := lines.filterMap printed?
      List.Forall₂ (Group layout ls native) ls groups ∧
      lines = (textRows ls groups).map String.toList ++ [[]] ∧
      (∀ line ∈ lines, ∀ offset b, line ++ ['\n'] ≠ (byteText offset b).toList) ∧
      shown.flatMap Prod.snd = native.take layout.nativeLen ∧
      ∀ before p after, shown = before ++ p :: after → p.1 = (before.flatMap Prod.snd).length := by
  intro ls
  obtain ⟨hne, hf, hlayout, -⟩ := Layout.ofCode_eq_ok hl
  have hasc := Scan.instrs_ascending hf
  obtain ⟨blocks, hblocks, hmatch⟩ := hn
  have hsteps : List.Forall₂ (fun s block => s.desc.template.Matches block)
      (Step.along 0 0 ls) blocks := by
    have hpairs := (List.forall₂_and_left _ _).mpr
      ⟨fun _ hs => hs, (Step.forall₂_along 0 0).mp hmatch⟩
    refine hpairs.imp ?_
    rintro s block ⟨hs, t, ht, hblock⟩
    rw [Expected.template?_step hasc hs] at ht
    cases ht
    exact hblock
  obtain ⟨groups, hshows, hbytes, hspan, is, hrows⟩ :=
    exists_groups hsteps List.length_nil (native.drop layout.nativeLen)
  rw [List.nil_append, ← hblocks, List.take_append_drop] at hshows
  rw [← hblocks] at hbytes
  have hlong : layout.nativeLen ≤ native.length := by
    rw [← hblocks, List.length_take, ← Layout.nativeLen_eq hl] at hspan
    omega
  have hfit : ∀ s ∈ Step.along 0 0 ls, s.nativeIp + s.desc.nativeLen ≤ native.length := by
    intro s hs
    have hend := Step.end_le hs
    rw [Layout.nativeLen_eq hl] at hlong
    exact Nat.le_trans hend hlong
  have hfollow := follow_shows hshows hfit (native.drop layout.nativeLen)
  rw [hbytes, List.take_append_drop, Step.map_along] at hfollow
  have hgroups : List.Forall₂ (Group layout ls native) ls groups := by
    have hpairs := (List.forall₂_and_left _ _).mpr ⟨fun _ hs => hs, hshows⟩
    rw [hlayout]
    exact (Step.forall₂_along 0 0).mpr (hpairs.imp fun s rows h => h.2.group hf h.1)
  have hlines := Text.OneLine.splitOn_join (oneLine_textRows ls groups)
  have hshown : ((textRows ls groups).map String.toList ++ [[]]).filterMap printed? =
      (Row.along 0 is).map fun r => (r.offset, r.bytes) := by
    rw [List.filterMap_append, filterMap_textRows hgroups, hrows]
    exact List.append_nil _
  refine ⟨String.join ((textRows ls groups).map (· ++ "\n")), groups, ?_, hgroups, hlines, ?_, ?_,
    ?_⟩
  · simp only [Listing.ofCode, Walk.ofCode_eq hne, hf, Option.map_none]
    rw [hfollow]
  · intro line hline
    apply ne_byteText
    rw [hlines, List.mem_append, List.mem_singleton] at hline
    rcases hline with hline | rfl
    · obtain ⟨row, hrow, rfl⟩ := List.mem_map.mp hline
      rcases mem_textRows hrow with ⟨l, rfl⟩ | ⟨r, rfl⟩
      · exact .inr (by simp [sourceRow])
      · exact .inl (by rw [printed?_row]; nofun)
    · exact .inr nofun
  · rw [hlines, hshown, List.flatMap_map, ← hbytes, hrows]
  · rw [hlines, hshown]
    intro before p after hsplit
    obtain ⟨front, back, halong, rfl, hback⟩ := List.map_eq_append_iff.mp hsplit
    obtain ⟨r, rest, rfl, rfl, -⟩ := List.map_eq_cons_iff.mp hback
    rw [List.flatMap_map, Row.offset_of_along halong, Nat.zero_add]

/-- Code for a literal, a read at odd depth, a store, a jump and a return, with fields that are
made of prefixes and opcodes. -/
def Listing.sampleBlocks : List Bytes :=
  [[0x48, 0xbf, 0xe9, 0x0f, 0x66, 0xf2, 0x48, 0xb8, 0xc3, 0x41, 0x57],
    [0x48, 0x83, 0xec, 0x08, 0x50, 0x53, 0x51, 0x52, 0x48, 0x8d, 0x7c, 0x24, 0x20, 0x57, 0x49,
      0xbb, 0x0f, 0x05, 0xe8, 0x49, 0xbb, 0x48, 0xff, 0x0f, 0x41, 0xff, 0xd3, 0x5f, 0x5a, 0x59,
      0x5b, 0x58],
    [0x5f, 0x48, 0x89, 0xbb, 0x0f, 0x84, 0x48, 0x83], [0xe9, 0x48, 0xbf, 0x66, 0x0f], [0xc3]]

theorem native_listing_covers_image_opcodes :
    let native := sampleBlocks.flatten ++ [0x0f]
    Layout.ofCode (some Expected.sample) = .ok Expected.sampleLayout ∧
      Expected.Templates (Scan.ofCode Expected.sample).instrs (native.take 57) ∧
      ∃ text, Listing.ofCode (some Expected.sample) native = .ok text ∧
        ((text.toList.splitOn '\n').filterMap printed?).flatMap Prod.snd =
          sampleBlocks.flatten := by
  intro native
  have hl : Layout.ofCode (some Expected.sample) = .ok Expected.sampleLayout := rfl
  have hn : Expected.Templates (Scan.ofCode Expected.sample).instrs
      (native.take Expected.sampleLayout.nativeLen) := by
    refine ⟨sampleBlocks, rfl, ?_⟩
    exact .cons ⟨_, rfl, by decide⟩ (.cons ⟨_, rfl, by decide⟩ (.cons ⟨_, rfl, by decide⟩
      (.cons ⟨_, rfl, by decide⟩ (.cons ⟨_, rfl, by decide⟩ .nil))))
  obtain ⟨text, -, htext, -, -, -, hbytes, -⟩ := native_listing_covers_image hl hn
  exact ⟨hl, hn, text, htext, hbytes⟩

end StackCode.Lowering
