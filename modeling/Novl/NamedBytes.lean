import Novl.BaseIndependence
import Novl.Table

/-!
The bytes of the file the table names.

A position of the file in front of the header belongs to one byte of one
section, and so to one position in `memory`; two sections whose extents
overlap in `memory` give a byte of `memory` two positions. An entry whose
word is still in the table names its four bytes in its own section, and
nothing else is named.
-/

namespace Novl

open ByteMemory FallibleRun

/-- The position lies in a four-byte word named by a word of the table. -/
def Named (sizes : OvlSection → Word) (relocs : List Word) (p : ℕ) : Prop :=
  ∃ r ∈ relocs, ∃ i : OvlSection, ovlRelocGetSec r = BitVec.ofNat 32 i.index ∧
    fileStart sizes i + (ovlRelocGetAddr r).toNat ≤ p ∧
    p < fileStart sizes i + (ovlRelocGetAddr r).toNat + 4

/-- The words the entries name lie inside the sections the entries are
for. -/
def InsideSections (g : Globals) (bs : List RelBlock) : Prop :=
  ∀ b ∈ bs, ∀ e ∈ b.rels, (e.addr - g.elfStarts b.id).toNat + 4 ≤ (g.sizes b.id).toNat

/-! ### Positions of the file -/

theorem fileStart_injective {sizes : OvlSection → Word} {i j : OvlSection} {k l : ℕ}
    (hi : i ≠ .bss) (hj : j ≠ .bss) (hk : k < (sizes i).toNat) (hl : l < (sizes j).toNat)
    (heq : fileStart sizes i + k = fileStart sizes j + l) : i = j ∧ k = l := by
  cases i <;> cases j <;> simp only [fileStart] at heq <;>
    first
      | exact absurd rfl hi
      | exact absurd rfl hj
      | exact ⟨rfl, by omega⟩
      | omega

theorem exists_fileStart_eq {sizes : OvlSection → Word} (hfit : SizesFit sizes) {p : ℕ}
    (hp : p < (headerAddr sizes).toNat) :
    ∃ i, i ≠ .bss ∧ ∃ k < (sizes i).toNat, p = fileStart sizes i + k := by
  rw [hfit.toNat_headerAddr] at hp
  by_cases htext : p < (sizes .text).toNat
  · exact ⟨.text, by decide, p, htext, (Nat.zero_add p).symm⟩
  · by_cases hdata : p < (sizes .text).toNat + (sizes .data).toNat
    · refine ⟨.data, by decide, p - (sizes .text).toNat, by omega, ?_⟩
      rw [fileStart]
      omega
    · refine ⟨.rodata, by decide, p - ((sizes .text).toNat + (sizes .data).toNat), by omega, ?_⟩
      rw [fileStart]
      omega

section Converted

variable {elf : Elf} {base : Word} {c : Converted}

/-- A byte of a section in the file is that of the relocated image. -/
theorem Conversion.getElem?_file (h : Conversion elf base c)
    (hplaced : WellPlaced c.globals.elfEp (relBlocks elf.sections)) {i : OvlSection}
    (hi : i ≠ .bss) {k : ℕ} (hk : k < (c.globals.sizes i).toNat) :
    c.file[fileStart c.globals.sizes i + k]? =
      some (c.memory (sectionPos c.globals i + k)) := by
  obtain ⟨-, -, -, hfile⟩ := h.file_eq_of_wellPlaced hplaced
  have himage : (c.sectionImage i)[k]? = some (c.memory (sectionPos c.globals i + k)) := by
    rw [Converted.sectionImage, readBytes, List.getElem?_map, List.getElem?_range hk]
    rfl
  have hlen := c.length_sectionImage i
  rw [hfile, overlayBytes, ← himage]
  cases i with
  | text =>
      rw [fileStart, Nat.zero_add, List.append_assoc, List.append_assoc,
        List.getElem?_append_left (by omega)]
  | data =>
      rw [fileStart, ← c.length_sectionImage .text, List.append_assoc, List.append_assoc,
        List.getElem?_append_right (by omega), Nat.add_sub_cancel_left,
        List.getElem?_append_left (by omega)]
  | rodata =>
      have hstart : fileStart c.globals.sizes .rodata =
          (c.sectionImage .text ++ c.sectionImage .data).length := by
        rw [List.length_append, c.length_sectionImage, c.length_sectionImage, fileStart]
      rw [hstart, List.append_assoc, List.getElem?_append_right (by omega),
        Nat.add_sub_cancel_left, List.getElem?_append_left (by omega)]
  | bss => exact absurd rfl hi

/-- In its section an entry stands at its section offset. -/
theorem Conversion.relOff_eq (h : Conversion elf base c) {i : OvlSection} (hi : i ≠ .bss)
    {e : GElfRel}
    (hin : (e.addr - c.globals.elfStarts i).toNat + 4 ≤ (c.globals.sizes i).toNat) :
    relOff c.globals e =
      sectionPos c.globals i + (e.addr - c.globals.elfStarts i).toNat := by
  have hsection := h.section_inside hi
  have hsum : e.addr - c.globals.elfEp =
      (c.globals.elfStarts i - c.globals.elfEp) + (e.addr - c.globals.elfStarts i) := by
    grind
  rw [relOff, hsum, BitVec.toNat_add, ← sectionPos, Nat.mod_eq_of_lt]
  rw [memorySize] at hsection
  omega

/-! ### The words of the table -/

theorem Conversion.mem_nintyRelocs_iff (h : Conversion elf base c)
    (hplaced : WellPlaced c.globals.elfEp (relBlocks elf.sections)) {w : Word} :
    w ∈ c.nintyRelocs ↔ ∃ b ∈ relBlocks elf.sections, ∃ pre e post,
      relList b.rels = pre ++ e :: post ∧ resolves c.globals c.loaded pre e = true ∧
      DeletionsCovered c.globals c.loaded (pre ++ [e]) post ∧
      w = nintyReloc c.globals b.id e := by
  obtain ⟨-, htable, -⟩ := h.planned hplaced
  have hstarts : blockTable c.dryGlobals c.loaded = blockTable c.globals c.loaded :=
    blockTable_ovlStarts c.globals _ c.loaded
  rw [htable, hstarts, List.mem_flatMap]
  refine exists_congr fun b => and_congr_right fun hb => ?_
  have hin : ∀ e ∈ relList b.rels, relOff c.globals e + 4 ≤ memorySize :=
    fun e he => hplaced.inImage b hb e (mem_relList.mp he)
  exact mem_blockTable_iff ⟨hin, hplaced.spread.apart hb⟩ (hplaced.spread.distinct_relList hb)

/-- Only `.text`, `.data` and `.rodata` have a number in the table. -/
theorem section_of_ovlRelocGetSec {g : Globals} {id i : OvlSection} {e : GElfRel}
    (hsec : ovlRelocGetSec (nintyReloc g id e) = BitVec.ofNat 32 i.index) :
    id = i ∧ id ≠ .bss := by
  rw [nintyReloc, ovlRelocGetSec_mk] at hsec
  cases id <;> cases i <;> first | exact absurd hsec (by decide) | exact ⟨rfl, by decide⟩

/-- A byte of a section is named exactly by the entries of that section
that resolve, are not deleted, and have it in their word. -/
theorem Conversion.named_iff (h : Conversion elf base c)
    (hplaced : WellPlaced c.globals.elfEp (relBlocks elf.sections))
    (hinside : InsideSections c.globals (relBlocks elf.sections)) {i : OvlSection}
    (hi : i ≠ .bss) {k : ℕ} (hk : k < (c.globals.sizes i).toNat) :
    Named c.globals.sizes c.nintyRelocs (fileStart c.globals.sizes i + k) ↔
      ∃ b ∈ relBlocks elf.sections, b.id = i ∧ ∃ pre e post,
        relList b.rels = pre ++ e :: post ∧ resolves c.globals c.loaded pre e = true ∧
        DeletionsCovered c.globals c.loaded (pre ++ [e]) post ∧
        relOff c.globals e ≤ sectionPos c.globals i + k ∧
        sectionPos c.globals i + k < relOff c.globals e + 4 := by
  have haddr {b : RelBlock} {pre post : List GElfRel} {e : GElfRel}
      (hb : b ∈ relBlocks elf.sections) (hsplit : relList b.rels = pre ++ e :: post)
      (hid : b.id ≠ .bss) :
      (ovlRelocGetAddr (nintyReloc c.globals b.id e)).toNat =
        (e.addr - c.globals.elfStarts b.id).toNat ∧
      (e.addr - c.globals.elfStarts b.id).toNat + 4 ≤ (c.globals.sizes b.id).toNat ∧
      relOff c.globals e =
        sectionPos c.globals b.id + (e.addr - c.globals.elfStarts b.id).toNat := by
    have he : e ∈ b.rels := by
      rw [← mem_relList, hsplit]
      exact List.mem_append_right _ List.mem_cons_self
    have hin := hinside b hb e he
    have hfit := h.sizesFit b.id hid
    rw [memorySize] at hfit
    exact ⟨by rw [ovlRelocGetAddr_nintyReloc (by omega)], hin, h.relOff_eq hid hin⟩
  constructor
  · rintro ⟨r, hr, i', hsec, hlo, hhi⟩
    obtain ⟨b, hb, pre, e, post, hsplit, hres, hcov, rfl⟩ := (h.mem_nintyRelocs_iff hplaced).mp hr
    obtain ⟨rfl, hid⟩ := section_of_ovlRelocGetSec hsec
    obtain ⟨hdecode, hin, hoff⟩ := haddr hb hsplit hid
    rw [hdecode] at hlo hhi
    -- A word of the table ends inside its section, and sections do not
    -- overlap in the file.
    obtain ⟨rfl, hkeq⟩ := fileStart_injective hi hid hk
      (l := fileStart c.globals.sizes i + k - fileStart c.globals.sizes b.id) (by omega)
      (by omega)
    exact ⟨b, hb, rfl, pre, e, post, hsplit, hres, hcov, by omega, by omega⟩
  · rintro ⟨b, hb, rfl, pre, e, post, hsplit, hres, hcov, hlo, hhi⟩
    obtain ⟨hdecode, hin, hoff⟩ := haddr hb hsplit hi
    refine ⟨nintyReloc c.globals b.id e,
      (h.mem_nintyRelocs_iff hplaced).mpr ⟨b, hb, pre, e, post, hsplit, hres, hcov, rfl⟩, b.id,
      ?_, by omega, by omega⟩
    rw [nintyReloc, ovlRelocGetSec_mk]
    cases hid : b.id with
    | text | data | rodata => rfl
    | bss => exact absurd hid hi

end Converted

end Novl
