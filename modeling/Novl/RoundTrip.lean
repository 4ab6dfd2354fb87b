import Novl.Conversion

/-!
Loading what the converter has written.

The reader shares no code with the writer. It finds the header by way of
the last word of the file, and the sections by adding up the sizes in the
header. Both work out for a converted file, with one exception: the
address the reader gives `.bss` is that of the header, not the end of the
file, where the converter has put it.
-/

namespace Novl

open ByteMemory FallibleRun

/-! ### Words read back -/

/-- A row of words is found where it was written. -/
theorem mapM_fileWord (pre post : List Byte) (ws : List Word) :
    (List.range ws.length).mapM
        (fun (i : ℕ) => fileWord (pre ++ (ws.flatMap wordBytes ++ post)) (pre.length + 4 * i)) =
      some ws := by
  have hword : ∀ i ∈ List.range ws.length,
      fileWord (pre ++ (ws.flatMap wordBytes ++ post)) (pre.length + 4 * i) =
        some (ws.getD i 0) := by
    intro i hi
    have hi' : i < ws.length := List.mem_range.mp hi
    have hsplit : pre ++ (ws.flatMap wordBytes ++ post) =
        (pre ++ (ws.take i).flatMap wordBytes) ++ (wordBytes ws[i] ++
          ((ws.drop (i + 1)).flatMap wordBytes ++ post)) := by
      rw [← List.append_assoc (wordBytes ws[i]), ← List.flatMap_cons,
        List.getElem_cons_drop, List.append_assoc, ← List.append_assoc (List.flatMap _ _),
        ← List.flatMap_append, List.take_append_drop]
    have hlen : ((pre ++ (ws.take i).flatMap wordBytes).length : ℤ) = pre.length + 4 * i := by
      rw [List.length_append, length_flatMap_wordBytes, List.length_take]
      omega
    rw [hsplit, ← hlen, fileWord_append, List.getD_eq_getElem _ _ hi']
  rw [mapM_eq_some_map hword]
  congr 1
  apply List.ext_getElem (by simp)
  intro i hi hi'
  rw [List.getElem_map, List.getElem_range, List.getD_eq_getElem _ _ hi']

/-! ### The reader on a converted file -/

section Load

variable {sizes : OvlSection → Word} {relocs : List Word} {t d r : List Byte}

theorem ovlGetHeader_eq (hmod : (headerAddr sizes).toNat % 4 = 0)
    (hheader : (headerAddr sizes).toNat = t.length + d.length + r.length)
    (hshort : fileLength sizes relocs < 2 ^ 31) (count : ℤ) :
    ovlGetHeader (overlayBytes sizes count relocs t d r) (fileLength sizes relocs) =
      .ok (⟨sizes, BitVec.ofInt 32 count⟩, (headerAddr sizes).toNat) := by
  have hend := headEnd_le_fileLength sizes relocs
  have hstart := headerAddr_le_headEnd sizes relocs
  have hoffset : (BitVec.ofNat 32 (fileLength sizes relocs - (headerAddr sizes).toNat)).toInt =
      (fileLength sizes relocs - (headerAddr sizes).toNat : ℕ) := toInt_ofNat_of_lt (by omega)
  have hmod' : ((fileLength sizes relocs - (headerAddr sizes).toNat : ℕ) : ℤ).tmod 4 = 0 := by
    rw [Int.tmod_eq_emod_of_nonneg (by omega)]
    rw [fileLength] at hend ⊢
    omega
  have hptr : (fileLength sizes relocs : ℤ) -
      (fileLength sizes relocs - (headerAddr sizes).toNat : ℕ) = (headerAddr sizes).toNat := by
    omega
  have hwords := mapM_fileWord (t ++ d ++ r) ((writtenRelocs relocs).flatMap wordBytes ++
    tailBytes sizes relocs) (newHead sizes count)
  have hbytes : overlayBytes sizes count relocs t d r =
      t ++ d ++ r ++ ((newHead sizes count).flatMap wordBytes ++
        ((writtenRelocs relocs).flatMap wordBytes ++ tailBytes sizes relocs)) := by
    simp only [overlayBytes, headBytes, List.append_assoc]
  have hlen : ((t ++ d ++ r).length : ℤ) = (headerAddr sizes).toNat := by
    rw [List.length_append, List.length_append, hheader]
  rw [← hbytes, length_newHead, hlen] at hwords
  rw [ovlGetHeader, fileWord_footer count relocs t d r hheader]
  simp only [hoffset, hmod', hptr]
  rw [if_neg (by omega), hwords]
  have hsizes : (fun i : OvlSection => (newHead sizes count).getD i.index 0) = sizes := by
    funext i
    cases i <;> rfl
  simp only [hsizes]
  rfl

theorem ovlLoad_eq (hmod : (headerAddr sizes).toNat % 4 = 0)
    (hheader : (headerAddr sizes).toNat = t.length + d.length + r.length)
    (hshort : fileLength sizes relocs < 2 ^ 31) (hwritten : writtenRelocs relocs = relocs) :
    ovlLoad (overlayBytes sizes relocs.length relocs t d r) =
      .ok ⟨ovlSections sizes, relocs.length, overlayBytes sizes relocs.length relocs t d r,
        fileLength sizes relocs, relocs⟩ := by
  have hend := headEnd_le_fileLength sizes relocs
  have hlen : (overlayBytes sizes relocs.length relocs t d r).length =
      fileLength sizes relocs := length_overlayBytes hheader
  have hcount : relocs.length < 2 ^ 31 := by
    rw [headEnd, hwritten] at hend
    omega
  have hint : (BitVec.ofInt 32 (relocs.length : ℤ)).toInt = relocs.length := by
    rw [BitVec.ofInt_natCast]
    exact toInt_ofNat_of_lt hcount
  have hwords := mapM_fileWord (t ++ d ++ r ++ (newHead sizes relocs.length).flatMap wordBytes)
    (tailBytes sizes relocs) relocs
  have hbytes : overlayBytes sizes relocs.length relocs t d r =
      t ++ d ++ r ++ (newHead sizes relocs.length).flatMap wordBytes ++
        (relocs.flatMap wordBytes ++ tailBytes sizes relocs) := by
    simp only [overlayBytes, headBytes, hwritten, List.append_assoc]
  have hraw : ((t ++ d ++ r ++ (newHead sizes relocs.length).flatMap wordBytes).length : ℤ) =
      (headerAddr sizes).toNat + 20 := by
    rw [List.length_append, length_flatMap_wordBytes, length_newHead, List.length_append,
      List.length_append, hheader]
    omega
  rw [← hbytes, hraw] at hwords
  rw [ovlLoad, hlen, toInt_ofNat_of_lt hshort]
  simp only
  rw [if_neg (by omega), Int.toNat_natCast, List.take_of_length_le hlen.le,
    ovlGetHeader_eq hmod hheader hshort]
  simp only [hint, Int.toNat_natCast, hwords]

end Load

/-! ### Loading a conversion -/

theorem headerAddr_mod_four {sizes : OvlSection → Word} (hfit : SizesFit sizes)
    (hmod : ∀ i, (sizes i).toNat % 8 = 0) : (headerAddr sizes).toNat % 4 = 0 := by
  have htext := hmod .text
  have hdata := hmod .data
  have hrodata := hmod .rodata
  rw [hfit.toNat_headerAddr]
  omega

/-- What the reader makes of a converted file. -/
theorem Conversion.ovlLoad_eq {elf : Elf} {base : Word} {c : Converted}
    (h : Conversion elf base c) (hshort : c.file.length < 2 ^ 31) :
    ovlLoad c.file = .ok ⟨ovlSections c.globals.sizes, c.nintyRelocs.length, c.file,
      c.file.length, c.nintyRelocs⟩ := by
  obtain ⟨-, -, hlen, hfile⟩ := h.file_eq (h.headEnd_lt hshort)
  have hload := Novl.ovlLoad_eq (headerAddr_mod_four h.sizesFit h.sizes_mod)
    h.toNat_headerAddr (hlen ▸ hshort) h.writtenRelocs_eq
  rw [← h.nintyCountReal_eq, ← hfile] at hload
  rw [hload, hlen, ← h.nintyCountReal_eq]

theorem Conversion.sectionBytes_eq {elf : Elf} {base : Word} {c : Converted}
    (h : Conversion elf base c) (hshort : c.file.length < 2 ^ 31) {ovl : Ovl}
    (hload : ovlLoad c.file = .ok ovl) {i : OvlSection} (hi : i ≠ .bss) :
    ovl.sectionBytes i = c.sectionImage i := by
  have hfit := h.sizesFit
  obtain ⟨-, -, -, hfile⟩ := h.file_eq (h.headEnd_lt hshort)
  have hovl := Except.ok.inj (hload.symm.trans (h.ovlLoad_eq hshort))
  have hint (j : OvlSection) (hj : j ≠ .bss) :
      (c.globals.sizes j).toInt.toNat = (c.sectionImage j).length := by
    have hle := hfit j hj
    rw [memorySize] at hle
    rw [BitVec.toInt_eq_toNat_of_lt (by omega), Int.toNat_natCast, c.length_sectionImage]
  have htext := c.length_sectionImage .text
  have hdata := c.length_sectionImage .data
  have hfit_text := hfit .text (by decide)
  have hfit_data := hfit .data (by decide)
  rw [memorySize] at hfit_text hfit_data
  rw [Ovl.sectionBytes, hovl]
  simp only [ovlSections_eq]
  cases i with
  | text =>
      simp only [hint .text hi]
      rw [hfile, overlayBytes, List.drop_zero, List.append_assoc, List.append_assoc,
        List.take_left]
  | data =>
      simp only [hint .data hi]
      rw [hfile, overlayBytes, List.append_assoc, List.append_assoc, ← htext, List.drop_left,
        List.take_left]
  | rodata =>
      have hstart : (c.globals.sizes .text + c.globals.sizes .data).toNat =
          (c.sectionImage .text ++ c.sectionImage .data).length := by
        rw [List.length_append, htext, hdata, BitVec.toNat_add]
        omega
      simp only [hint .rodata hi]
      rw [hfile, overlayBytes, List.append_assoc, hstart, List.drop_left, List.take_left]
  | bss => exact absurd rfl hi

theorem ovlRelocGetAddr_nintyReloc {g : Globals} {id : OvlSection} {e : GElfRel}
    (hoffset : (e.addr - g.elfStarts id).toNat < 2 ^ 24) :
    ovlRelocGetAddr (nintyReloc g id e) = e.addr - g.elfStarts id := by
  have hmask : ((e.addr - g.elfStarts id) &&& 0x00FFFFFF#32).toNat =
      (e.addr - g.elfStarts id).toNat % 2 ^ 24 :=
    LowMask.toNat_and_mask (n := 24) (by omega) _
  apply BitVec.eq_of_toNat_eq
  rw [nintyReloc, ovlRelocGetAddr_mk, hmask, Nat.mod_eq_of_lt hoffset]

/-- The fields of an overlay relocation made from an entry that lies in
its section. -/
theorem decode_nintyReloc {g : Globals} {id : OvlSection} {e : GElfRel} (hid : id ≠ .bss)
    (hjt : novlRelocJt e.type ≠ none) (hoffset : (e.addr - g.elfStarts id).toNat < 2 ^ 24) :
    ovlRelocGetSec (nintyReloc g id e) = BitVec.ofNat 32 id.index ∧
      ovlRelocGetType (nintyReloc g id e) = e.type &&& 0x7F#32 ∧
      ovlRelocGetAddr (nintyReloc g id e) = e.addr - g.elfStarts id := by
  refine ⟨?_, ?_, ovlRelocGetAddr_nintyReloc hoffset⟩
  · rw [nintyReloc, ovlRelocGetSec_mk]
    cases id with
    | text | data | rodata => rfl
    | bss => exact absurd rfl hid
  · rw [nintyReloc, ovlRelocGetType_mk, (and_0x3F_of_handled hjt).1]

/-- Loading undoes converting: the file of a successful conversion loads,
and gives back the sizes, the table in its order, and the relocated
sections; and each word of the table decodes to the section, the type and
the section offset of an entry it was made from. -/
theorem ovlLoad_convert {elf : Elf} {base : Word} {c : Converted}
    (hconvert : convert elf base = .ok c) (hshort : c.file.length < 2 ^ 31)
    (hbss : (c.globals.sizes .bss).toNat < 2 ^ 31)
    (hoffsets : ∀ b ∈ relBlocks elf.sections, b.id ≠ .bss ∧
      ∀ e ∈ b.rels, (e.addr - c.globals.elfStarts b.id).toNat < (c.globals.sizes b.id).toNat) :
    ∃ ovl, ovlLoad c.file = .ok ovl ∧
      (∀ i, (ovl.sections i).size = (c.globals.sizes i).toNat) ∧
      ovl.relocationCount = c.nintyRelocs.length ∧ ovl.relocations = c.nintyRelocs ∧
      (∀ i, i ≠ .bss → ovl.sectionBytes i =
        readBytes c.memory (c.globals.elfStarts i - c.globals.elfEp).toNat
          (c.globals.sizes i).toNat) ∧
      ∀ w ∈ ovl.relocations,
        (∃ b ∈ relBlocks elf.sections, ∃ e ∈ b.rels, w = nintyReloc c.globals b.id e) ∧
        ∀ b ∈ relBlocks elf.sections, ∀ e ∈ b.rels, w = nintyReloc c.globals b.id e →
          ovlRelocGetSec w = BitVec.ofNat 32 b.id.index ∧
          ovlRelocGetType w = e.type &&& 0x7F#32 ∧
          ovlRelocGetAddr w = e.addr - c.globals.elfStarts b.id := by
  have h := conversion_of_convert hconvert
  have hfit := h.sizesFit
  have hload := h.ovlLoad_eq hshort
  -- The header words are read back as signed numbers.
  have hsize (i : OvlSection) : (c.globals.sizes i).toNat < 2 ^ 31 := by
    by_cases hi : i = .bss
    · rw [hi]
      exact hbss
    · exact (hfit i hi).trans_lt (by decide)
  refine ⟨_, hload, fun i => ?_, rfl, rfl, fun i hi => h.sectionBytes_eq hshort hload hi,
    fun w hw => ⟨?_, ?_⟩⟩
  · have hint : (c.globals.sizes i).toInt = (c.globals.sizes i).toNat :=
      BitVec.toInt_eq_toNat_of_lt (by have := hsize i; omega)
    change (ovlSections c.globals.sizes i).size = _
    rw [ovlSections_eq]
    cases i <;> exact hint
  · obtain ⟨b, hb, e, he, -, hmade⟩ := h.mem_nintyRelocs hw
    exact ⟨b, hb, e, he, hmade⟩
  · rintro b hb e he rfl
    obtain ⟨hid, hin⟩ := hoffsets b hb
    have hjt := (h.dryOk.handled b hb e he).2
    exact decode_nintyReloc hid hjt
      ((hin e he).trans_le ((hfit b.id hid).trans (by decide)))

def mixedElf : Elf := sampleElf mixedText mixedBlock.rels []

theorem ovlLoad_convert_mixedElf :
    ∃ c ovl, convert mixedElf 0x80800000 = .ok c ∧ ovlLoad c.file = .ok ovl ∧
      ovl.relocations = c.nintyRelocs := by
  obtain ⟨c, hconvert, hc⟩ := exists_ok_of_map (x := convert mixedElf 0x80800000)
    (fun c => decide (c.file.length < 2 ^ 31 ∧ (c.globals.sizes .bss).toNat < 2 ^ 31 ∧
      ∀ b ∈ relBlocks mixedElf.sections, b.id ≠ .bss ∧ ∀ e ∈ b.rels,
        (e.addr - c.globals.elfStarts b.id).toNat < (c.globals.sizes b.id).toNat))
    (by decide +kernel)
  obtain ⟨hshort, hbss, hoffsets⟩ := of_decide_eq_true hc
  obtain ⟨ovl, hload, -, -, hrelocs, -⟩ := ovlLoad_convert hconvert hshort hbss hoffsets
  exact ⟨c, ovl, hconvert, hload, hrelocs⟩

/-! ### The section listing -/

theorem OvlSection.name_injective : Function.Injective OvlSection.name := by
  intro s t h
  cases s <;> cases t <;> first | rfl | exact absurd h (by decide)

theorem mem_listSections_iff {base : Word} {ovl : Ovl} {i : OvlSection} {a : Word} {n : ℤ} :
    (i.name, a, n) ∈ listSections base ovl ↔
      a = base + (ovl.sections i).addr ∧ n = (ovl.sections i).size := by
  rw [listSections, List.mem_map]
  constructor
  · rintro ⟨j, -, heq⟩
    obtain ⟨hname, hrest⟩ := Prod.mk.inj heq
    obtain ⟨haddr, hsize⟩ := Prod.mk.inj hrest
    obtain rfl := OvlSection.name_injective hname
    exact ⟨haddr.symm, hsize.symm⟩
  · rintro ⟨rfl, rfl⟩
    exact ⟨i, OvlSection.mem_all i, rfl⟩

/-- A file too long for an `int` cannot be loaded. -/
theorem ovlLoad_of_long {bytes : List Byte} (hlong : 2 ^ 31 ≤ bytes.length)
    (hlen : bytes.length < 2 ^ 32) : ovlLoad bytes = .error .mallocFailed := by
  have hneg : (BitVec.ofNat 32 bytes.length).toInt < 0 := by
    rw [BitVec.toInt_eq_toNat_cond, BitVec.toNat_ofNat, if_neg (by omega)]
    omega
  rw [ovlLoad, if_pos hneg]

/-- For no conversion does the listing of the file give `.bss` the address
the converter has used for it, while the other three addresses agree. The
length of the file is not bounded by the conversion: behind a table of
`2 ^ 30` words the `int` which the footer is placed with has wrapped around,
and the check of the `.bss` address is made where the footer ends. -/
theorem listSections_bss_ne_ovlStarts {elf : Elf} {base : Word} {c : Converted}
    (hconvert : convert elf base = .ok c) (hlen : c.file.length < 2 ^ 32) {ovl : Ovl}
    (hload : ovlLoad c.file = .ok ovl) :
    (∀ i, i ≠ .bss → ∃ n, (i.name, c.globals.ovlStarts i, n) ∈ listSections base ovl) ∧
      ∀ n, (OvlSection.bss.name, c.globals.ovlStarts .bss, n) ∉ listSections base ovl := by
  have h := conversion_of_convert hconvert
  have hshort : c.file.length < 2 ^ 31 := by
    by_contra hlong
    rw [ovlLoad_of_long (by omega) hlen] at hload
    cases hload
  obtain ⟨hbase, hbelow, hlength, -⟩ := h.file_eq (h.headEnd_lt hshort)
  have hovl := Except.ok.inj (hload.symm.trans (h.ovlLoad_eq hshort))
  have haddr (i : OvlSection) : (ovl.sections i).addr = (ovlSections c.globals.sizes i).addr := by
    rw [hovl]
  refine ⟨fun i hi => ⟨_, mem_listSections_iff.mpr ⟨?_, rfl⟩⟩, fun n hmem => ?_⟩
  · rw [haddr, ovlSections_eq, h.starts]
    cases i with
    | text => exact (BitVec.add_zero base).symm
    | data => rfl
    | rodata => exact BitVec.add_assoc _ _ _
    | bss => exact absurd rfl hi
  · -- The listing adds the header's position, the converter the file's length.
    have heq := congrArg BitVec.toNat (mem_listSections_iff.mp hmem).1
    have hbss := overlayStarts_bss_eq_iff.mpr ⟨hbase, hlength ▸ hbelow⟩
    have hend := headEnd_le_fileLength c.globals.sizes c.nintyRelocs
    have hstart := headerAddr_le_headEnd c.globals.sizes c.nintyRelocs
    rw [h.starts_eq, hbss, haddr, ovlSections_eq, BitVec.toNat_add] at heq
    simp only at heq
    omega

/-! An overlay with a `.bss` section, listed at its own base address. -/

def bssElf : Elf := sampleElf mixedText [] [⟨OvlSection.bss.name, 8, 0x80000018, 0x20, none⟩]

theorem bssElf_listed_apart :
    ∃ c ovl, convert bssElf 0x80800000 = .ok c ∧ ovlLoad c.file = .ok ovl ∧
      c.globals.ovlStarts .bss = 0x80800030 ∧
      (OvlSection.bss.name, 0x80800018, 0x20) ∈ listSections 0x80800000 ovl := by
  obtain ⟨c, hconvert, hc⟩ := exists_ok_of_map (x := convert bssElf 0x80800000)
    (fun c => decide (c.globals.ovlStarts .bss = 0x80800030 ∧
      (ovlLoad c.file).toOption.map (fun ovl => decide
        ((OvlSection.bss.name, 0x80800018, 0x20) ∈ listSections 0x80800000 ovl)) = some true))
    (by decide +kernel)
  obtain ⟨hbss, hload⟩ := of_decide_eq_true hc
  obtain ⟨ovl, hload, hlisted⟩ := exists_ok_of_map _ hload
  exact ⟨c, ovl, hconvert, hload, hbss, of_decide_eq_true hlisted⟩

theorem mixedElf_bss_not_listed :
    ∃ c ovl, convert mixedElf 0x80800000 = .ok c ∧ ovlLoad c.file = .ok ovl ∧
      ∀ n, (OvlSection.bss.name, c.globals.ovlStarts .bss, n) ∉ listSections 0x80800000 ovl := by
  obtain ⟨c, hconvert, hc⟩ := exists_ok_of_map (x := convert mixedElf 0x80800000)
    (fun c => decide (c.file.length < 2 ^ 32 ∧
      (ovlLoad c.file).toOption.map (fun _ => true) = some true)) (by decide +kernel)
  obtain ⟨hlen, hload⟩ := of_decide_eq_true hc
  obtain ⟨ovl, hload, -⟩ := exists_ok_of_map _ hload
  exact ⟨c, ovl, hconvert, hload, (listSections_bss_ne_ovlStarts hconvert hlen hload).2⟩

end Novl
