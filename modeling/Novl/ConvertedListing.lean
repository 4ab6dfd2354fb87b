import Novl.NamedBytes
import Novl.RelocationListing
import Novl.RoundTrip

/-!
The relocation listing of a converted overlay.

The listing finds its way back: each word of the table leads to the entry
it was made from, so a line shows where the entry lies in the overlay, the
names of its section and its type, and the word the relocator has left
there.
-/

namespace Novl

open ByteMemory FallibleRun

section Converted

variable {elf : Elf} {base : Word} {c : Converted}

/-- Where a section starts in the overlay: its address, its place in the
file, and the address the relocator has given it. -/
theorem Conversion.section_start (h : Conversion elf base c) {i : OvlSection} (hi : i ≠ .bss) :
    (ovlSections c.globals.sizes i).data = some (fileStart c.globals.sizes i) ∧
      (ovlSections c.globals.sizes i).addr.toNat = fileStart c.globals.sizes i ∧
      c.globals.ovlStarts i = (ovlSections c.globals.sizes i).addr + base := by
  have htext := h.sizesFit .text (by decide)
  have hdata := h.sizesFit .data (by decide)
  rw [memorySize] at htext hdata
  rw [ovlSections_eq, h.starts]
  cases i with
  | text => exact ⟨rfl, rfl, (BitVec.zero_add base).symm⟩
  | data => exact ⟨rfl, rfl, BitVec.add_comm _ _⟩
  | rodata =>
      have hsum : (c.globals.sizes .text + c.globals.sizes .data).toNat =
          (c.globals.sizes .text).toNat + (c.globals.sizes .data).toNat := by
        rw [BitVec.toNat_add]
        omega
      refine ⟨congrArg some hsum, hsum, ?_⟩
      rw [overlayStarts, BitVec.add_assoc, BitVec.add_comm]
  | bss => exact absurd rfl hi

/-- A word of a section in the file is that of the relocated image. -/
theorem Conversion.fileWord_section (h : Conversion elf base c) (hshort : c.file.length < 2 ^ 31)
    {i : OvlSection} (hi : i ≠ .bss) {k : ℕ} (hk : k + 4 ≤ (c.globals.sizes i).toNat) :
    fileWord c.file (fileStart c.globals.sizes i + k : ℕ) =
      some (loadWord c.memory (sectionPos c.globals i + k)) := by
  have hfit := h.sizesFit i hi
  rw [memorySize] at hfit
  have hbytes := h.sectionBytes_eq hshort (h.ovlLoad_eq hshort) hi
  rw [Ovl.sectionBytes] at hbytes
  simp only [(h.section_start hi).1] at hbytes
  have hsize : (ovlSections c.globals.sizes i).size = (c.globals.sizes i).toNat := by
    have hint : (c.globals.sizes i).toInt = (c.globals.sizes i).toNat :=
      BitVec.toInt_eq_toNat_of_lt (by omega)
    rw [ovlSections_eq]
    cases i <;> exact hint
  rw [hsize, Int.toNat_natCast] at hbytes
  have hbyte (n : ℕ) (hn : n < (c.globals.sizes i).toNat) :
      c.file[fileStart c.globals.sizes i + n]? = some (c.memory (sectionPos c.globals i + n)) := by
    have hget := congrArg (fun bs => bs[n]?) hbytes
    simp only [List.getElem?_take_of_lt hn, List.getElem?_drop] at hget
    rw [hget, Converted.sectionImage, readBytes, List.getElem?_map, List.getElem?_range hn]
    rfl
  have hlast := hbyte (k + 3) (by omega)
  obtain ⟨hin, -⟩ := List.getElem?_eq_some_iff.mp hlast
  have hword : loadWord (fileMemory c.file) (fileStart c.globals.sizes i + k) =
      loadWord c.memory (sectionPos c.globals i + k) := by
    apply eq_of_wordByte_eq
    intro n hn
    rw [wordByte_loadWord _ _ hn, wordByte_loadWord _ _ hn, fileMemory, Nat.add_assoc,
      List.getD_eq_getElem?_getD, hbyte (k + n) (by omega), Nat.add_assoc]
    rfl
  rw [fileWord, if_pos ⟨by omega, by omega⟩, Int.toNat_natCast, hword]

/-- A line of the listing shows an entry: where it lies in the overlay, the
names of its section and its type, and the relocated word. -/
def Shows (g : Globals) (memory : Memory) (id : OvlSection) (e : GElfRel)
    (line : Word × List Char × String × Word) : Prop :=
  line.1 = g.ovlStarts id + (e.addr - g.elfStarts id) ∧ line.2.1 = id.name ∧
    novlStrReloc (e.type &&& 0x7F#32) = some line.2.2.1 ∧
    line.2.2.2 = loadWord memory (relOff g e)

/-- The types with a handler have names. -/
theorem type_le_of_handled {type : Word} (h : novlRelocJt type ≠ none) :
    (type &&& 0x7F#32).toNat ≤ 50 := by
  rw [novlRelocJt] at h
  by_contra hgt
  have hne (t : Word) (ht : t.toNat ≤ 50) : type &&& 0x7F#32 ≠ t := by
    rintro rfl
    exact hgt ht
  rw [if_neg (hne rMips32 (by decide)), if_neg (hne rMips26 (by decide)),
    if_neg (hne rMipsHi16 (by decide)), if_neg (hne rMipsLo16 (by decide))] at h
  exact h rfl

theorem Conversion.listRelocation_shows (h : Conversion elf base c)
    (hshort : c.file.length < 2 ^ 31) {id : OvlSection} {e : GElfRel} (hid : id ≠ .bss)
    (hhandled : Handled c.globals e)
    (hin : (e.addr - c.globals.elfStarts id).toNat + 4 ≤ (c.globals.sizes id).toNat)
    {ovl : Ovl} (hload : ovlLoad c.file = .ok ovl) :
    ∃ line, listRelocation base ovl (nintyReloc c.globals id e) = some line ∧
      Shows c.globals c.memory id e line := by
  have hfit := h.sizesFit id hid
  rw [memorySize] at hfit
  have hsmall : (e.addr - c.globals.elfStarts id).toNat < 2 ^ 24 := by omega
  obtain ⟨hsec, htype, haddr⟩ := decode_nintyReloc hid hhandled.2 hsmall
  obtain ⟨-, hstart, hovl⟩ := h.section_start hid
  have hrelOff := h.relOff_eq hid hin
  have hword := h.fileWord_section hshort hid hin
  obtain rfl := Except.ok.inj ((h.ovlLoad_eq hshort).symm.trans hload)
  generalize hoffset : e.addr - c.globals.elfStarts id = offset at hin haddr hrelOff hword
  have hstart_lt : fileStart c.globals.sizes id < 2 ^ 24 := by
    have htext := h.sizesFit .text (by decide)
    have hdata := h.sizesFit .data (by decide)
    rw [memorySize] at htext hdata
    cases id with
    | text => exact Nat.two_pow_pos 24
    | data => rw [fileStart]; omega
    | rodata => rw [fileStart]; omega
    | bss => exact absurd rfl hid
  have hposition : ((ovlSections c.globals.sizes id).addr + offset).toInt =
      (fileStart c.globals.sizes id + offset.toNat : ℕ) := by
    have hsum : ((ovlSections c.globals.sizes id).addr + offset).toNat =
        fileStart c.globals.sizes id + offset.toNat := by
      rw [BitVec.toNat_add, hstart]
      omega
    rw [BitVec.toInt_eq_toNat_of_lt (by omega), hsum]
  have hindex : OvlSection.all[(ovlRelocGetSec (nintyReloc c.globals id e)).toNat]? = some id := by
    rw [hsec, OvlSection.all_getElem?_eq_some]
    cases id <;> rfl
  obtain ⟨type, hname⟩ := Option.ne_none_iff_exists'.mp
    ((novlStrReloc_ne_none (e.type &&& 0x7F#32)).mpr (type_le_of_handled hhandled.2))
  refine ⟨(c.globals.ovlStarts id + offset, id.name, type,
    loadWord c.memory (relOff c.globals e)), ?_, by rw [hoffset], rfl, hname, rfl⟩
  rw [listRelocation, ovlRelocGetAbsAddr, hindex, htype, hname, haddr]
  simp only [hposition, hword, hrelOff, Option.some.injEq, Prod.mk.injEq, and_true]
  rw [BitVec.ofInt_natCast, hovl, ← hstart, BitVec.ofNat_add, BitVec.ofNat_toNat,
    BitVec.ofNat_toNat, BitVec.setWidth_eq, BitVec.setWidth_eq, BitVec.add_assoc,
    BitVec.add_comm offset, ← BitVec.add_assoc]

/-- The listing of a converted overlay, at the address it was converted
for, has a line for each word of the table, which shows the entry the word
was made from. It needs that no entry is for `.bss` or outside of its
section, and a file shorter than 2 GB. -/
theorem convert_listed {elf : Elf} {base : Word} {c : Converted}
    (hconvert : convert elf base = .ok c) (hshort : c.file.length < 2 ^ 31)
    (hinside : ∀ b ∈ relBlocks elf.sections, b.id ≠ .bss ∧ ∀ e ∈ b.rels,
      (e.addr - c.globals.elfStarts b.id).toNat + 4 ≤ (c.globals.sizes b.id).toNat) :
    ∃ ovl lines, ovlLoad c.file = .ok ovl ∧ listRelocations base ovl = some lines ∧
      List.Forall₂ (fun w line => ∃ b ∈ relBlocks elf.sections, ∃ e ∈ b.rels,
        w = nintyReloc c.globals b.id e ∧ Shows c.globals c.memory b.id e line)
        c.nintyRelocs lines := by
  have h := conversion_of_convert hconvert
  have hload := h.ovlLoad_eq hshort
  have hlines := mapM_eq_some_of_forall (l := c.nintyRelocs) (f := listRelocation base _)
    (R := fun w line => ∃ b ∈ relBlocks elf.sections, ∃ e ∈ b.rels,
      w = nintyReloc c.globals b.id e ∧ Shows c.globals c.memory b.id e line) fun w hw => by
    obtain ⟨b, hb, e, he, hhandled, rfl⟩ := h.mem_nintyRelocs hw
    obtain ⟨hid, hin⟩ := hinside b hb
    obtain ⟨line, hline, hshows⟩ := h.listRelocation_shows hshort hid hhandled (hin e he) hload
    exact ⟨line, hline, b, hb, e, he, rfl, hshows⟩
  obtain ⟨lines, hlines, hall⟩ := hlines
  exact ⟨_, lines, hload, hlines, hall⟩

theorem mixedElf_listed :
    ∃ c ovl lines, convert mixedElf 0x80800000 = .ok c ∧ ovlLoad c.file = .ok ovl ∧
      listRelocations 0x80800000 ovl = some lines ∧ c.nintyRelocs.length = 4 ∧
      List.Forall₂ (fun w line => ∃ b ∈ relBlocks mixedElf.sections, ∃ e ∈ b.rels,
        w = nintyReloc c.globals b.id e ∧ Shows c.globals c.memory b.id e line)
        c.nintyRelocs lines := by
  obtain ⟨c, hconvert, hc⟩ := exists_ok_of_map (x := convert mixedElf 0x80800000)
    (fun c => decide (c.file.length < 2 ^ 31 ∧ (∀ b ∈ relBlocks mixedElf.sections, b.id ≠ .bss ∧
      ∀ e ∈ b.rels, (e.addr - c.globals.elfStarts b.id).toNat + 4 ≤
        (c.globals.sizes b.id).toNat) ∧ c.nintyRelocs.length = 4)) (by decide +kernel)
  obtain ⟨hshort, hinside, hcount⟩ := of_decide_eq_true hc
  obtain ⟨ovl, lines, hload, hlines, hall⟩ := convert_listed hconvert hshort hinside
  exact ⟨c, ovl, lines, hconvert, hload, hlines, hcount, hall⟩

end Converted

end Novl
