import Novl.Decoder
import Novl.Jumps
import Novl.NamedBytes

/-!
The disassembly of an overlay, `main.c`.

The listing counts addresses on from the base address, a word at a time,
and starts each section in the file where the sizes before it end. In a
converted overlay both are the position in the file, so every word is
listed at the address it is loaded to. A jump is printed with its own
region, which is that of its target when `.text` lies in one region; so
the listing names the address the relocator has put into the field.
-/

namespace Novl

open ByteMemory FallibleRun

/-- A line of the listing: a heading for each section, and a line for each
word. -/
inductive DisassemblyLine
  | heading (filename section_ : List Char)
  | instruction (addr w : Word) (text : List Char)
  deriving DecidableEq

/-- The calls of `printf`; `verbose` is the flag `-V`. -/
def DisassemblyLine.print (verbose : Bool) : DisassemblyLine → List Char
  | .heading filename section_ =>
    "Disassembly of \"".toList ++ filename ++ "\": section ".toList ++ section_ ++ ['\n']
  | .instruction addr w text =>
    hexPrint upperDigits 8 addr.toNat ++
      (if verbose then ": (".toList ++ hexPrint upperDigits 8 w.toNat ++ ") ".toList
        else ": ".toList) ++ text ++ ['\n']

example : (DisassemblyLine.instruction 0x80800004 0 "nop".toList).print true =
    "80800004: (00000000) nop\n".toList := by decide +kernel

/-- `*(uint32_t*)(ovl->sections[i]->data + n)`. -/
def sectionWord (ovl : Ovl) (i : OvlSection) (n : ℕ) : Option Word :=
  match (ovl.sections i).data with
  | none => none
  | some p => fileWord ovl.data (p + n)

/-- The inner loop, with the number of its turns that are left. The second
component is the address behind the last word. -/
def disassembleWords (ovl : Ovl) (i : OvlSection) :
    ℕ → ℕ → Word → Option (List DisassemblyLine × Word)
  | 0, _, addr => some ([], addr)
  | turns + 1, n, addr =>
    match sectionWord ovl i n with
    | none => none
    | some w =>
      match disassembleWords ovl i turns (n + 4) (addr + 4) with
      | none => none
      | some (lines, last) => some (.instruction addr w (mr4kdDisassemble w addr) :: lines, last)

/-- How often `for( n = 0; n < size; n += 4 )` turns. -/
def wordTurns (size : ℤ) : ℕ := ((size + 3) / 4).toNat

/-- The outer loop; the address goes on from section to section. -/
def disassembleSections (filename : List Char) (ovl : Ovl) :
    List OvlSection → Word → Option (List DisassemblyLine)
  | [], _ => some []
  | i :: is, addr =>
    match disassembleWords ovl i (wordTurns (ovl.sections i).size) 0 addr with
    | none => none
    | some (words, addr') =>
      match disassembleSections filename ovl is addr' with
      | none => none
      | some lines => some (.heading filename i.name :: (words ++ lines))

/-- `disassemble`, once the overlay is loaded. -/
def disassemble (filename : List Char) (all : Bool) (base : Word) (ovl : Ovl) :
    Option (List DisassemblyLine) :=
  let cnt := if all then 3 else 1
  disassembleSections filename ovl (OvlSection.all.take cnt) base

/-- The address, the word and the text of a line that lists a word. -/
def DisassemblyLine.instruction? : DisassemblyLine → Option (Word × Word × List Char)
  | .heading _ _ => none
  | .instruction addr w text => some (addr, w, text)

/-- The line for the word `w` at an address. -/
def listedWord (addr w : Word) : Word × Word × List Char := (addr, w, mr4kdDisassemble w addr)

/-! ### The loops -/

theorem disassembleWords_eq {ovl : Ovl} {i : OvlSection} {turns n : ℕ} {addr : Word}
    {words : ℕ → Word} (hwords : ∀ k < turns, sectionWord ovl i (n + 4 * k) = some (words k)) :
    ∃ lines, disassembleWords ovl i turns n addr =
        some (lines, addr + BitVec.ofNat 32 (4 * turns)) ∧
      lines.filterMap DisassemblyLine.instruction? =
        (List.range turns).map fun k => listedWord (addr + BitVec.ofNat 32 (4 * k)) (words k) := by
  induction turns generalizing n addr words with
  | zero => exact ⟨[], by rw [disassembleWords]; simp, rfl⟩
  | succ turns ih =>
      have hfirst := hwords 0 (Nat.succ_pos _)
      have hrest : ∀ k < turns, sectionWord ovl i (n + 4 + 4 * k) = some (words (k + 1)) := by
        intro k hk
        rw [← hwords (k + 1) (Nat.succ_lt_succ hk)]
        congr 1
        omega
      have hstep (k : ℕ) : addr + 4 + BitVec.ofNat 32 (4 * k) =
          addr + BitVec.ofNat 32 (4 * (k + 1)) := by
        rw [Nat.mul_succ, BitVec.ofNat_add, BitVec.add_assoc, BitVec.add_comm (BitVec.ofNat 32 _)]
        rfl
      obtain ⟨lines, hlines, hlisted⟩ : ∃ lines,
        disassembleWords ovl i turns (n + 4) (addr + 4) = _ ∧ _ := ih hrest
      refine ⟨.instruction addr (words 0) (mr4kdDisassemble (words 0) addr) :: lines, ?_, ?_⟩
      · rw [disassembleWords]
        rw [Nat.mul_zero, Nat.add_zero] at hfirst
        simp only [hfirst, hlines, hstep]
      · rw [List.range_succ_eq_map, List.map_cons, List.map_map]
        simp only [List.filterMap_cons, DisassemblyLine.instruction?, hlisted, hstep, Nat.mul_zero,
          BitVec.add_zero]
        rfl

/-- The words of a file at the positions from `4 * first` on, as they are
listed from the base address. -/
def listedWords (base : Word) (file : List Byte) (first count : ℕ) : List (Word × Word × List Char) :=
  (List.range count).map fun k =>
    listedWord (base + BitVec.ofNat 32 (4 * (first + k)))
      (loadWord (fileMemory file) (4 * (first + k)))

theorem listedWords_append (base : Word) (file : List Byte) (first m n : ℕ) :
    listedWords base file first m ++ listedWords base file (first + m) n =
      listedWords base file first (m + n) := by
  simp only [listedWords, List.range_add, List.map_append, List.map_map]
  congr 1
  refine List.map_congr_left fun k _ => ?_
  rw [Function.comp_apply, Nat.add_assoc]

theorem wordTurns_eq {n : ℕ} (h : n % 4 = 0) : wordTurns n = n / 4 := by
  rw [wordTurns]
  omega

/-- A section that starts at a multiple of 4 and lies in the file. -/
theorem disassembleWords_section {ovl : Ovl} {i : OvlSection} {base : Word} {first count : ℕ}
    (hdata : (ovl.sections i).data = some (4 * first))
    (hin : 4 * (first + count) ≤ ovl.data.length) :
    ∃ lines, disassembleWords ovl i count 0 (base + BitVec.ofNat 32 (4 * first)) =
        some (lines, base + BitVec.ofNat 32 (4 * (first + count))) ∧
      lines.filterMap DisassemblyLine.instruction? = listedWords base ovl.data first count := by
  have hwords : ∀ k < count, sectionWord ovl i (0 + 4 * k) =
      some (loadWord (fileMemory ovl.data) (4 * (first + k))) := by
    intro k hk
    rw [sectionWord, hdata]
    simp only [fileWord]
    rw [if_pos (by omega)]
    congr 2
    omega
  have hsum (k : ℕ) : base + BitVec.ofNat 32 (4 * first) + BitVec.ofNat 32 (4 * k) =
      base + BitVec.ofNat 32 (4 * (first + k)) := by
    rw [Nat.mul_add, BitVec.ofNat_add, BitVec.add_assoc]
  obtain ⟨lines, hrun, hlisted⟩ : ∃ lines, disassembleWords ovl i count 0
    (base + BitVec.ofNat 32 (4 * first)) = _ ∧ _ := disassembleWords_eq hwords
  simp only [hsum] at hrun hlisted
  exact ⟨lines, hrun, hlisted⟩

/-! ### A converted overlay -/

/-- What the reader makes of a section whose size is a multiple of 4. -/
theorem ovlSections_words {sizes : OvlSection → Word} (hfit : SizesFit sizes)
    (hmod : ∀ i, (sizes i).toNat % 4 = 0) {i : OvlSection} (hi : i ≠ .bss) :
    (ovlSections sizes i).data = some (4 * (fileStart sizes i / 4)) ∧
      wordTurns (ovlSections sizes i).size = (sizes i).toNat / 4 := by
  have hsize : (sizes i).toInt = (sizes i).toNat := by
    have hle := hfit i hi
    rw [memorySize] at hle
    exact BitVec.toInt_eq_toNat_of_lt (by omega)
  have htext := hfit .text (by decide)
  have hdata := hfit .data (by decide)
  have hmodText := hmod .text
  have hmodData := hmod .data
  rw [memorySize] at htext hdata
  have hturns : wordTurns (sizes i).toInt = (sizes i).toNat / 4 := by
    rw [hsize, wordTurns_eq (hmod i)]
  rw [ovlSections_eq]
  cases i with
  | text =>
      refine ⟨congrArg some ?_, hturns⟩
      rw [fileStart]
  | data =>
      refine ⟨congrArg some ?_, hturns⟩
      rw [fileStart]
      omega
  | rodata =>
      refine ⟨congrArg some ?_, hturns⟩
      rw [fileStart, BitVec.toNat_add]
      omega
  | bss => exact absurd rfl hi

/-- All words in front of the header are listed once, in their order. -/
theorem disassemble_words {sizes : OvlSection → Word} {ovl : Ovl} (filename : List Char)
    (base : Word) (hsections : ovl.sections = ovlSections sizes) (hfit : SizesFit sizes)
    (hmod : ∀ i, (sizes i).toNat % 4 = 0) (hin : (headerAddr sizes).toNat ≤ ovl.data.length) :
    ∃ lines, disassemble filename true base ovl = some lines ∧
      lines.filterMap DisassemblyLine.instruction? =
        listedWords base ovl.data 0 ((headerAddr sizes).toNat / 4) := by
  have hheader := hfit.toNat_headerAddr
  have hmodText := hmod .text
  have hmodData := hmod .data
  have hmodRodata := hmod .rodata
  have hrun {i : OvlSection} (hi : i ≠ .bss)
      (hend : fileStart sizes i + (sizes i).toNat ≤ ovl.data.length) :
      ∃ lines, disassembleWords ovl i (wordTurns (ovl.sections i).size) 0
          (base + BitVec.ofNat 32 (4 * (fileStart sizes i / 4))) =
          some (lines, base + BitVec.ofNat 32 (4 * (fileStart sizes i / 4 + (sizes i).toNat / 4))) ∧
        lines.filterMap DisassemblyLine.instruction? =
          listedWords base ovl.data (fileStart sizes i / 4) ((sizes i).toNat / 4) := by
    obtain ⟨hdata, hturns⟩ := ovlSections_words hfit hmod hi
    rw [hsections, hturns]
    exact disassembleWords_section (by rw [hsections, hdata]) (by omega)
  obtain ⟨text, htext, htextWords⟩ := hrun (i := .text) (by decide) (by rw [fileStart]; omega)
  obtain ⟨data, hdata, hdataWords⟩ := hrun (i := .data) (by decide) (by rw [fileStart]; omega)
  obtain ⟨rodata, hrodata, hrodataWords⟩ :=
    hrun (i := .rodata) (by decide) (by rw [fileStart]; omega)
  have htextStart : fileStart sizes .text / 4 = 0 := by rw [fileStart, Nat.zero_div]
  have hdataStart : fileStart sizes .data / 4 = 0 + (sizes .text).toNat / 4 := by
    rw [fileStart]
    omega
  have hrodataStart : fileStart sizes .rodata / 4 =
      0 + ((sizes .text).toNat / 4 + (sizes .data).toNat / 4) := by
    rw [fileStart]
    omega
  rw [htextStart] at htext htextWords
  rw [hdataStart] at hdata hdataWords
  rw [hrodataStart, ← Nat.add_assoc] at hrodata
  rw [hrodataStart] at hrodataWords
  have hzero : base + BitVec.ofNat 32 (4 * 0) = base := BitVec.add_zero base
  rw [hzero] at htext
  refine ⟨.heading filename OvlSection.text.name :: (text ++
    .heading filename OvlSection.data.name :: (data ++
      .heading filename OvlSection.rodata.name :: (rodata ++ []))), ?_, ?_⟩
  · simp only [disassemble, OvlSection.all, if_true, List.take_succ_cons, List.take_zero,
      disassembleSections, htext, hdata, hrodata]
  · simp only [List.filterMap_cons, List.filterMap_append, DisassemblyLine.instruction?,
      htextWords, hdataWords, hrodataWords, List.append_nil]
    rw [← List.append_assoc, listedWords_append, listedWords_append, hheader]
    congr 1
    omega

/-- The words in front of the header of a converted file. -/
theorem Conversion.words_listed {elf : Elf} {base : Word} {c : Converted}
    (h : Conversion elf base c)
    (hlen : c.file.length = fileLength c.globals.sizes c.nintyRelocs) (filename : List Char)
    (base' : Word) :
    (headerAddr c.globals.sizes).toNat ≤ c.file.length ∧
      ∃ lines, disassemble filename true base' ⟨ovlSections c.globals.sizes,
          c.nintyRelocs.length, c.file, c.file.length, c.nintyRelocs⟩ = some lines ∧
        lines.filterMap DisassemblyLine.instruction? =
          listedWords base' c.file 0 ((headerAddr c.globals.sizes).toNat / 4) := by
  have hin : (headerAddr c.globals.sizes).toNat ≤ c.file.length := by
    have hstart := headerAddr_le_headEnd c.globals.sizes c.nintyRelocs
    have hend := headEnd_le_fileLength c.globals.sizes c.nintyRelocs
    omega
  have hmod (i : OvlSection) : (c.globals.sizes i).toNat % 4 = 0 := by
    have hsize := h.sizes_mod i
    omega
  exact ⟨hin, disassemble_words filename base' rfl h.sizesFit hmod hin⟩

/-! ### Jumps -/

/-- The word an entry names in the ELF file. -/
def Converted.elfWord (c : Converted) (e : GElfRel) : Word :=
  loadWord c.loaded (relOff c.globals e)

/-- The entry is for a `J` or `JAL` in `.text`, and was relocated: its
target was found in `.text`. -/
structure RelocatedJump (c : Converted) (e : GElfRel) : Prop where
  type : novlRelocJt e.type = some .mips26
  inText : c.globals.InText e.addr
  jump : opcode (c.elfWord e) = 2 ∨ opcode (c.elfWord e) = 3
  found : getTargetSection c.globals (jumpTarget (c.elfWord e)) = some .text

/-- The overlay address of an address in `.text`. -/
def Globals.textAddr (g : Globals) (a : Word) : Word :=
  g.ovlStarts .text + (a - g.elfStarts .text)

def jumpName (w : Word) : String := if opcode w = 2 then "J" else "JAL"

theorem opcode_withJumpTarget (w a : Word) : opcode (withJumpTarget w a) = opcode w := by
  rw [opcode, withJumpTarget_opcode]
  rfl

theorem toNat_printedTarget (w pc : Word) :
    (printedTarget w pc).toNat = pc.toNat / 2 ^ 28 * 2 ^ 28 + w.toNat % 2 ^ 26 * 4 := by
  rw [← toNat_or_field, printedTarget, BitVec.or_comm]
  rfl

/-- A target that is a multiple of 4 in the region of the jump comes out of
the field as it was put in. -/
theorem printedTarget_withJumpTarget {w a pc : Word} (hmod : a.toNat % 4 = 0)
    (hregion : region pc = region a) : printedTarget (withJumpTarget w a) pc = a := by
  rw [region_eq_iff] at hregion
  rw [← BitVec.toNat_inj, toNat_printedTarget, toNat_withJumpTarget_field]
  have hlt := a.isLt
  omega

section Converted

variable {elf : Elf} {base : Word} {c : Converted}

/-- A word of a section in the file is that of the relocated image. -/
theorem Conversion.word_eq (h : Conversion elf base c)
    (hplaced : WellPlaced c.globals.elfEp (relBlocks elf.sections)) {i : OvlSection}
    (hi : i ≠ .bss) {k : ℕ} (hk : k + 4 ≤ (c.globals.sizes i).toNat) :
    loadWord (fileMemory c.file) (fileStart c.globals.sizes i + k) =
      loadWord c.memory (sectionPos c.globals i + k) := by
  apply eq_of_wordByte_eq
  intro n hn
  have hbyte := h.getElem?_file hplaced hi (k := k + n) (by omega)
  rw [wordByte_loadWord _ _ hn, wordByte_loadWord _ _ hn, fileMemory, Nat.add_assoc,
    List.getD_eq_getElem?_getD, hbyte, Nat.add_assoc]
  rfl

/-- Where a jump of `.text` stands: at a word of the file. -/
theorem Conversion.jump_position (h : Conversion elf base c)
    (halignedText : (c.globals.elfStarts .text).toNat % 4 = 0) {e : GElfRel}
    (haligned : e.addr.toNat % 4 = 0) (hin : c.globals.InText e.addr) :
    ∃ k, 4 * k + 4 ≤ (c.globals.sizes .text).toNat ∧
      (e.addr - c.globals.elfStarts .text).toNat = 4 * k ∧
      relOff c.globals e = sectionPos c.globals .text + 4 * k := by
  obtain ⟨hge, hlt⟩ := hin
  have hoffset : (e.addr - c.globals.elfStarts .text).toNat =
      e.addr.toNat - (c.globals.elfStarts .text).toNat :=
    BitVec.toNat_sub_of_le hge
  have hmod := h.sizes_mod .text
  have hword : (e.addr - c.globals.elfStarts .text).toNat =
      4 * ((e.addr - c.globals.elfStarts .text).toNat / 4) := by omega
  have hoff := h.relOff_eq (i := .text) (e := e) (by decide) (by omega)
  exact ⟨(e.addr - c.globals.elfStarts .text).toNat / 4, by omega, hword, by rw [hoff, ← hword]⟩

/-- The overlay address of a target that was found keeps to words and to
the region of `.text`. -/
theorem Conversion.target_address (h : Conversion elf base c)
    (hbase : base.toNat % 16 = 0) (halignedText : (c.globals.elfStarts .text).toNat % 4 = 0)
    (hregion : ∀ k < (c.globals.sizes .text).toNat, region (base + BitVec.ofNat 32 k) = region base)
    {w : Word} (hfound : getTargetSection c.globals (jumpTarget w) = some .text) :
    (c.globals.textAddr (jumpTarget w)).toNat % 4 = 0 ∧
      region (c.globals.textAddr (jumpTarget w)) = region base ∧
      jumpTarget w + c.globals.delta .text = c.globals.textAddr (jumpTarget w) := by
  have hstart : c.globals.ovlStarts .text = base := by
    rw [h.starts]
    rfl
  obtain ⟨hge, hlt⟩ := getTargetSection_text_iff.mp hfound
  have hoffset : (jumpTarget w - c.globals.elfStarts .text).toNat =
      (jumpTarget w).toNat - (c.globals.elfStarts .text).toNat :=
    BitVec.toNat_sub_of_le hge
  have hword := toNat_jumpTarget w
  rw [Globals.textAddr, hstart]
  refine ⟨?_, ?_, ?_⟩
  · rw [BitVec.toNat_add, hoffset]
    omega
  · have hinside := hregion (jumpTarget w - c.globals.elfStarts .text).toNat (by omega)
    rwa [BitVec.ofNat_toNat, BitVec.setWidth_eq] at hinside
  · rw [Globals.delta, hstart]
    grind

end Converted

/-- The listing agrees with the relocator. Of an overlay whose `.text` lies
in one region, the listing from its base address has the words of the three
sections once each, in the order of the file and at the addresses they are
loaded to; and a jump that was relocated is listed at its address with the
address its target has moved to. -/
theorem convert_disassembles {elf : Elf} {base : Word} {c : Converted}
    (hconvert : convert elf base = .ok c)
    (haligned : ∀ b ∈ relBlocks elf.sections, ∀ e ∈ b.rels, e.addr.toNat % 4 = 0)
    (hdistinct : ((relBlocks elf.sections).flatMap fun b => b.rels).Pairwise
      fun a b => a.addr ≠ b.addr)
    (halignedText : (c.globals.elfStarts .text).toNat % 4 = 0)
    (hregion : ∀ k < (c.globals.sizes .text).toNat, region (base + BitVec.ofNat 32 k) = region base)
    (filename : List Char) :
    ∃ ovl lines, ovlLoad c.file = .ok ovl ∧ disassemble filename true base ovl = some lines ∧
      (headerAddr c.globals.sizes).toNat ≤ c.file.length ∧
      lines.filterMap DisassemblyLine.instruction? =
        listedWords base c.file 0 ((headerAddr c.globals.sizes).toNat / 4) ∧
      ∀ b ∈ relBlocks elf.sections, ∀ e ∈ b.rels, RelocatedJump c e →
        (c.globals.textAddr e.addr, loadWord c.memory (relOff c.globals e),
            nameColumn (jumpName (c.elfWord e)) ++
              hexWord (c.globals.textAddr (jumpTarget (c.elfWord e)))) ∈
          lines.filterMap DisassemblyLine.instruction? := by
  have h := conversion_of_convert hconvert
  have hplaced : WellPlaced c.globals.elfEp (relBlocks elf.sections) :=
    h.dryOk.wellPlaced haligned hdistinct
  have hload := h.ovlLoad_eq ((h.length_file_lt hplaced).trans (by decide))
  obtain ⟨hbase, -, hlen, -⟩ := h.file_eq_of_wellPlaced hplaced
  obtain ⟨hin, lines, hlines, hwords⟩ := h.words_listed hlen filename base
  refine ⟨_, lines, hload, hlines, hin, hwords, fun b hb e he hjump => ?_⟩
  obtain ⟨k, hk, hoffset, hoff⟩ :=
    h.jump_position halignedText (haligned b hb e he) hjump.inText
  obtain ⟨htarget, hsame, hmoved⟩ :=
    h.target_address hbase halignedText hregion hjump.found
  have hfinal := h.final_jump hplaced hb he hjump.type
  rw [← Converted.elfWord, if_pos hjump.found, hmoved] at hfinal
  have hfile := h.word_eq hplaced (i := .text) (by decide) hk
  rw [fileStart, Nat.zero_add, ← hoff, hfinal] at hfile
  have haddr : c.globals.textAddr e.addr = base + BitVec.ofNat 32 (4 * k) := by
    rw [← hoffset, BitVec.ofNat_toNat, BitVec.setWidth_eq, Globals.textAddr, h.starts]
    rfl
  have hname : opcode (withJumpTarget (c.elfWord e)
        (c.globals.textAddr (jumpTarget (c.elfWord e)))) = 2 ∧ jumpName (c.elfWord e) = "J" ∨
      opcode (withJumpTarget (c.elfWord e)
        (c.globals.textAddr (jumpTarget (c.elfWord e)))) = 3 ∧ jumpName (c.elfWord e) = "JAL" := by
    rw [opcode_withJumpTarget, jumpName]
    rcases hjump.jump with hop | hop
    · exact Or.inl ⟨hop, by rw [if_pos hop]⟩
    · exact Or.inr ⟨hop, by rw [if_neg (by omega)]⟩
  have hpc := hregion (4 * k) (by omega)
  have htext := mr4kdDisassemble_jump (base + BitVec.ofNat 32 (4 * k)) hname
  rw [printedTarget_withJumpTarget htarget (hpc.trans hsame.symm)] at htext
  have hheader := h.sizesFit.toNat_headerAddr
  rw [hwords, listedWords, List.mem_map]
  refine ⟨k, List.mem_range.mpr (by omega), ?_⟩
  rw [listedWord, Nat.zero_add, hfile, htext, haddr, hfinal]

/-- The jump of the sample, to its first instruction. -/
theorem mixedElf_jump_listed :
    ∃ c ovl lines, convert mixedElf 0x80800000 = .ok c ∧ ovlLoad c.file = .ok ovl ∧
      disassemble "mixed.ovl".toList true 0x80800000 ovl = some lines ∧
      (0x80800010#32, 0x08200000#32, "j               0x80800000".toList) ∈
        lines.filterMap DisassemblyLine.instruction? := by
  obtain ⟨c, hconvert, hc⟩ := exists_ok_of_map (x := convert mixedElf 0x80800000)
    (fun c => decide ((relOff c.globals ⟨0x80000010, 4⟩ = 0x10 ∧
      c.globals.elfStarts .text = 0x80000000#32 ∧ c.globals.sizes .text = 0x18#32 ∧
      c.globals.ovlStarts .text = 0x80800000#32) ∧ loadWord c.loaded 0x10 = 0x08000000#32 ∧
      loadWord c.memory 0x10 = 0x08200000#32 ∧
      getTargetSection c.globals 0x80000000#32 = some .text)) (by decide +kernel)
  obtain ⟨⟨hoff, hstart, hsize, hovl⟩, hword, hfinal, hfound⟩ := of_decide_eq_true hc
  have hblocks : relBlocks mixedElf.sections = [mixedBlock] := by decide +kernel
  have hregion : ∀ k < (c.globals.sizes .text).toNat,
      region (0x80800000#32 + BitVec.ofNat 32 k) = region 0x80800000#32 := by
    rw [hsize]
    decide
  obtain ⟨ovl, lines, hload, hlines, -, -, hjumps⟩ := convert_disassembles hconvert
    (by decide +kernel) (by decide +kernel) (by rw [hstart]; decide) hregion "mixed.ovl".toList
  have helf : c.elfWord ⟨0x80000010, 4⟩ = 0x08000000#32 := by
    rw [Converted.elfWord, hoff, hword]
  have htarget : jumpTarget (0x08000000#32) = 0x80000000#32 := by decide
  have hjump : RelocatedJump c ⟨0x80000010, 4⟩ := {
    type := by decide
    inText := by
      rw [Globals.InText, hstart, hsize]
      decide
    jump := by
      rw [helf]
      decide
    found := by rw [helf, htarget, hfound] }
  have hlisted := hjumps mixedBlock (by rw [hblocks]; simp) ⟨0x80000010, 4⟩ (by decide) hjump
  have haddr : c.globals.textAddr (GElfRel.addr ⟨0x80000010, 4⟩) = 0x80800010#32 := by
    rw [Globals.textAddr, hstart, hovl]
    decide
  have hmoved : c.globals.textAddr 0x80000000#32 = 0x80800000#32 := by
    rw [Globals.textAddr, hstart, hovl]
    decide
  have htext : nameColumn (jumpName 0x08000000#32) ++ hexWord 0x80800000#32 =
      "j               0x80800000".toList := by decide +kernel
  rw [helf, htarget, haddr, hoff, hfinal, hmoved, htext] at hlisted
  exact ⟨c, ovl, lines, hconvert, hload, hlines, hlisted⟩

end Novl
