import Novl.ListInvariant
import Novl.Recording

/-!
The alignment of a converted overlay.

Sizes are rounded up to eight, and only the footer brings the file back to
a multiple of sixteen. So `.bss` and the end of the file are aligned by
construction, while a section behind another one is aligned as well as the
sizes before it add up. The position of the footer is an `int`; for tables
that end behind `2 ^ 31` it no longer says where the table ends.
-/

namespace Novl

open ByteMemory FallibleRun

/-- Every section starts at a multiple of 16, and so the file ends. -/
structure Aligned16 (c : Converted) : Prop where
  starts : ∀ i, (c.globals.ovlStarts i).toNat % 16 = 0
  length : c.file.length % 16 = 0

/-! ### The end of the file -/

section Footer

variable (sizes : OvlSection → Word) (count : ℤ) (relocs : List Word)

/-- The footer of a file whose table ends behind `2 ^ 31` is either right
behind the table or somewhere inside it. -/
theorem tailFile_of_long (hlong : 2 ^ 31 ≤ headEnd sizes relocs) :
    (tailFile sizes count relocs).pos = headEnd sizes relocs + 4 ∧
        (tailFile sizes count relocs).bytes.length = headEnd sizes relocs + 4 ∨
      headEnd sizes relocs % 16 ≠ 12 ∧
        (tailFile sizes count relocs).bytes.length = headEnd sizes relocs := by
  have hpos := (writeHead_eq sizes count relocs).2
  have hlen := length_writeHead sizes count relocs
  have hne (w : Word) : wordBytes w ≠ [] := List.cons_ne_nil _ _
  have hbehind (w : Word) :
      ((writeHead sizes count relocs).write (wordBytes w)).pos = headEnd sizes relocs + 4 ∧
        ((writeHead sizes count relocs).write (wordBytes w)).bytes.length =
          headEnd sizes relocs + 4 := by
    rw [SeekFile.write_pos, SeekFile.length_write _ (hne w), hpos, hlen, length_wordBytes]
    exact ⟨rfl, by omega⟩
  have hint : (BitVec.ofNat 32 (headEnd sizes relocs)).toInt % 16 =
        (headEnd sizes relocs : ℤ) % 16 ∧
      (BitVec.ofNat 32 (headEnd sizes relocs)).toInt + 2 ^ 32 ≤ headEnd sizes relocs := by
    rw [BitVec.toInt_eq_toNat_cond, BitVec.toNat_ofNat]
    split <;> omega
  rw [tailFile, writeFooter]
  simp only [hpos]
  generalize (BitVec.ofNat 32 (headEnd sizes relocs)).toInt = i at hint ⊢
  obtain ⟨hmod, hle⟩ := hint
  have htmod : ((i + 4).tmod 16 = 0 ↔ headEnd sizes relocs % 16 = 12) ∧
      -16 < (i + 4).tmod 16 := by
    rcases lt_or_ge (i + 4) 0 with hneg | hnonneg
    · have hflip : (i + 4).tmod 16 = -((-(i + 4)) % 16) := by
        rw [← Int.tmod_eq_emod_of_nonneg (by omega), Int.neg_tmod, neg_neg]
      rw [hflip]
      omega
    · rw [Int.tmod_eq_emod_of_nonneg hnonneg]
      omega
  obtain ⟨hzero, hbound⟩ := htmod
  split
  · rename_i hoff
    rw [fseek]
    split
    · rename_i hseek
      refine Or.inr ⟨fun h => hoff (hzero.mpr h), ?_⟩
      rw [SeekFile.length_write _ (hne _), SeekFile.seek_bytes, SeekFile.seek_pos, hlen,
        length_wordBytes]
      omega
    · exact Or.inl (hbehind _)
  · exact Or.inl (hbehind _)

end Footer

section Converted

variable {elf : Elf} {base : Word} {c : Converted}

theorem headerAddr_le_length_tailFile (sizes : OvlSection → Word) (count : ℤ)
    (relocs : List Word) :
    (headerAddr sizes).toNat ≤ (tailFile sizes count relocs).bytes.length := by
  have hstart := headerAddr_le_headEnd sizes relocs
  have hend := headEnd_le_length_tailFile sizes count relocs
  omega

/-- The sections are written into the gap in front of the header, so the
file is as long as it was with its footer. -/
theorem Conversion.length_file (h : Conversion elf base c) :
    c.file.length =
      (tailFile c.globals.sizes c.nintyCountReal c.nintyRelocs).bytes.length := by
  obtain ⟨f, hrun, hfile⟩ := h.written
  obtain ⟨t, d, r, ht, hd, hr, rfl⟩ := writeOverlay_sections hrun
  rw [h.sectionContents_eq (by decide)] at ht hd hr
  cases ht
  cases hd
  cases hr
  have hle := headerAddr_le_length_tailFile c.globals.sizes c.nintyCountReal c.nintyRelocs
  rw [h.toNat_headerAddr] at hle
  generalize tailFile c.globals.sizes c.nintyCountReal c.nintyRelocs = f at hfile hle ⊢
  have htext : ((f.seek 0).write (c.sectionImage .text)).bytes.length = f.bytes.length := by
    rw [SeekFile.length_write_inside, SeekFile.seek_bytes]
    rw [SeekFile.seek_pos, SeekFile.seek_bytes]
    omega
  have hdata : (((f.seek 0).write (c.sectionImage .text)).write
      (c.sectionImage .data)).bytes.length = f.bytes.length := by
    rw [SeekFile.length_write_inside, htext]
    rw [SeekFile.write_pos, SeekFile.seek_pos, htext]
    omega
  rw [← hfile, SeekFile.length_write_inside, hdata]
  rw [SeekFile.write_pos, SeekFile.write_pos, SeekFile.seek_pos, hdata]
  omega

/-- What the first layout check has found. -/
theorem Conversion.bss_eq (h : Conversion elf base c) :
    (c.globals.ovlStarts .bss).toNat =
      (tailFile c.globals.sizes c.nintyCountReal c.nintyRelocs).pos + base.toNat := by
  obtain ⟨f, hrun, -⟩ := h.written
  rw [writeOverlay, ← tailFile] at hrun
  split at hrun
  · cases hrun
  · rename_i hbss
    exact not_not.mp hbss

/-- Where a table of `n` words ends in the file. -/
def tableEnd (ss : List ElfSection) (n : ℕ) : ℕ :=
  (recordedSize ss .text).toNat + (recordedSize ss .data).toNat +
    (recordedSize ss .rodata).toNat + 20 + 4 * n

theorem Conversion.sizes_eq (h : Conversion elf base c) (i : OvlSection) :
    c.globals.sizes i = recordedSize elf.sections i :=
  (loadSections_recorded h.load i).2

theorem Conversion.headEnd_eq (h : Conversion elf base c) :
    headEnd c.globals.sizes c.nintyRelocs = tableEnd elf.sections c.nintyRelocs.length := by
  rw [headEnd, h.writtenRelocs_eq, h.sizesFit.toNat_headerAddr, tableEnd, h.sizes_eq, h.sizes_eq,
    h.sizes_eq]

/-! ### The sections -/

theorem Conversion.bss_mod (h : Conversion elf base c) :
    (c.globals.ovlStarts .bss).toNat % 16 = 0 := by
  rw [h.starts]
  change (_ &&& ~~~15#32).toNat % 16 = 0
  rw [toNat_and_not_15, Nat.mul_mod_left]

/-- The start of `.bss` is rounded; the others are aligned as the base
address and the sizes before them are. -/
theorem Conversion.starts_mod_iff (h : Conversion elf base c) :
    (∀ i, (c.globals.ovlStarts i).toNat % 16 = 0) ↔
      base.toNat % 16 = 0 ∧ (recordedSize elf.sections .text).toNat % 16 = 0 ∧
        (recordedSize elf.sections .data).toNat % 16 = 0 := by
  have hbss := h.bss_mod
  rw [h.starts] at hbss
  rw [← h.sizes_eq, ← h.sizes_eq, h.starts]
  constructor
  · intro hall
    have htext := hall .text
    have hdata := hall .data
    have hrodata := hall .rodata
    simp only [overlayStarts, BitVec.toNat_add] at htext hdata hrodata
    omega
  · rintro ⟨hbase, htext, hdata⟩ i
    cases i with
    | text => exact hbase
    | data =>
        rw [overlayStarts, BitVec.toNat_add]
        omega
    | rodata =>
        rw [overlayStarts, BitVec.toNat_add, BitVec.toNat_add]
        omega
    | bss => exact hbss

/-- The length of a file whose table ends behind `2 ^ 31`. -/
theorem Conversion.length_mod_iff_of_long (h : Conversion elf base c)
    (hlong : 2 ^ 31 ≤ headEnd c.globals.sizes c.nintyRelocs) (hbase : base.toNat % 16 = 0) :
    c.file.length % 16 = 0 ↔
      headEnd c.globals.sizes c.nintyRelocs % 16 = 0 ∨
        headEnd c.globals.sizes c.nintyRelocs % 16 = 12 := by
  have hbss := h.bss_mod
  rw [h.bss_eq] at hbss
  rw [h.length_file]
  rcases tailFile_of_long c.globals.sizes c.nintyCountReal c.nintyRelocs hlong with
    ⟨hpos, hlen⟩ | ⟨hne, hlen⟩
  · omega
  · rw [hlen]
    exact (or_iff_left hne).symm

/-! ### How long the table can get -/

theorem net_callEvents_le {g : Globals} {id : OvlSection} (s : RelocState) (es : List GElfRel) :
    TailStack.net (callEvents g id s es) ≤ es.length := by
  have hlength : (callEvents g id s es).length = es.length := by
    induction es generalizing s with
    | nil => rfl
    | cons e es ih => rw [callEvents, List.length_cons, ih, List.length_cons]
  rw [← hlength]
  exact TailStack.net_le_length _

/-- An entry adds at most one word. -/
theorem realBlocks_count_le {g : Globals} {bs : List RelBlock} {st st' : RealState}
    (hcount : st.nintyCountReal = st.nintyRelocs.length)
    (hrun : bs.foldlM (realBlock g) st = .ok st') :
    st'.nintyCountReal ≤ st.nintyCountReal + (visited bs).length := by
  induction bs generalizing st with
  | nil =>
      cases hrun
      simp [visited]
  | cons b bs ih =>
      rw [List.foldlM_cons] at hrun
      obtain ⟨st₁, hstep, hrest⟩ := exists_of_bind_eq_ok hrun
      have hbk := Bookkeeping.start rfl hcount
      have hcount₁ := (realEntries_calls hbk hstep).2.2.2.count
      have hblock : st₁.nintyCountReal ≤ st.nintyCountReal + (relList b.rels).length := by
        rw [realEntries_count hbk hstep]
        exact Int.add_le_add_left (net_callEvents_le _ _) _
      have hrest := ih hcount₁ hrest
      rw [visited_cons, List.length_append]
      omega

theorem Conversion.length_nintyRelocs_le (h : Conversion elf base c) :
    c.nintyRelocs.length ≤ ((relBlocks elf.sections).flatMap fun b => b.rels).length := by
  obtain ⟨real, hreal, -, -, hcount⟩ := h.real
  have hle := realBlocks_count_le rfl hreal
  rw [hcount, h.nintyCountReal_eq] at hle
  rw [← (visited_perm _).length_eq]
  simp only at hle
  omega

end Converted

/-- A converted overlay is aligned to 16 exactly when the rounded sizes of
`.text` and `.data` are, provided that the table ends below `2 ^ 31`; behind
that, its end and the base address decide as well. The table ends below
for every input with fewer than `2 ^ 28` relocation entries. -/
theorem convert_aligned16_iff {elf : Elf} {base : Word} {c : Converted}
    (hconvert : convert elf base = .ok c) :
    (Aligned16 c ↔
      (recordedSize elf.sections .text).toNat % 16 = 0 ∧
        (recordedSize elf.sections .data).toNat % 16 = 0 ∧
        (tableEnd elf.sections c.nintyRelocs.length < 2 ^ 31 ∨
          base.toNat % 16 = 0 ∧
            (tableEnd elf.sections c.nintyRelocs.length % 16 = 0 ∨
              tableEnd elf.sections c.nintyRelocs.length % 16 = 12))) ∧
      (((relBlocks elf.sections).flatMap fun b => b.rels).length < 2 ^ 28 →
        tableEnd elf.sections c.nintyRelocs.length < 2 ^ 31) := by
  have h := conversion_of_convert hconvert
  refine ⟨?_, fun hfew => ?_⟩
  · rw [← h.headEnd_eq]
    rcases lt_or_ge (headEnd c.globals.sizes c.nintyRelocs) (2 ^ 31) with hshort | hlong
    · obtain ⟨hbase, -, hlen, -⟩ := h.file_eq hshort
      have hlength : c.file.length % 16 = 0 := by
        rw [hlen, fileLength, Nat.mul_mod_left]
      constructor
      · rintro ⟨hstarts, -⟩
        obtain ⟨-, htext, hdata⟩ := h.starts_mod_iff.mp hstarts
        exact ⟨htext, hdata, Or.inl hshort⟩
      · rintro ⟨htext, hdata, -⟩
        exact ⟨h.starts_mod_iff.mpr ⟨hbase, htext, hdata⟩, hlength⟩
    · constructor
      · rintro ⟨hstarts, hlength⟩
        obtain ⟨hbase, htext, hdata⟩ := h.starts_mod_iff.mp hstarts
        have hend := (h.length_mod_iff_of_long hlong hbase).mp hlength
        exact ⟨htext, hdata, Or.inr ⟨hbase, hend⟩⟩
      · rintro ⟨htext, hdata, hrest⟩
        obtain ⟨hbase, hend⟩ := hrest.resolve_left (not_lt.mpr hlong)
        exact ⟨h.starts_mod_iff.mpr ⟨hbase, htext, hdata⟩,
          (h.length_mod_iff_of_long hlong hbase).mpr hend⟩
  · have hle := h.length_nintyRelocs_le
    have hfit := h.sizesFit
    have htext := hfit .text (by decide)
    have hdata := hfit .data (by decide)
    have hrodata := hfit .rodata (by decide)
    rw [h.sizes_eq, memorySize] at htext hdata hrodata
    rw [tableEnd]
    omega

/-- The `.text` of the sample filled up to 32 bytes, and 16 bytes of
`.data`. -/
def filledElf : Elf :=
  sampleElf (mixedText ++ [0, 0]) mixedBlock.rels
    [⟨OvlSection.data.name, shtProgbits, 0x80000020, 16, some ⟨List.replicate 16 0, []⟩⟩]

theorem filledElf_aligned : ∃ c, convert filledElf 0x80800000 = .ok c ∧ Aligned16 c := by
  obtain ⟨c, hconvert, -⟩ := exists_ok_of_map (x := convert filledElf 0x80800000)
    (fun _ => true) (by decide +kernel)
  obtain ⟨haligned, hshort⟩ := convert_aligned16_iff hconvert
  have htext : (recordedSize filledElf.sections .text).toNat % 16 = 0 := by decide +kernel
  have hdata : (recordedSize filledElf.sections .data).toNat % 16 = 0 := by decide +kernel
  exact ⟨c, hconvert, haligned.mpr ⟨htext, hdata, Or.inl (hshort (by decide +kernel))⟩⟩

/-- 24 bytes of `.text`, and 8 bytes of `.data`. -/
def unfilledElf : Elf :=
  sampleElf mixedText mixedBlock.rels
    [⟨OvlSection.data.name, shtProgbits, 0x80000018, 8, some ⟨List.replicate 8 0, []⟩⟩]

/-- `.data` starts in the middle of a group of 16 bytes. -/
theorem unfilledElf_not_aligned :
    ∃ c, convert unfilledElf 0x80800000 = .ok c ∧
      c.globals.ovlStarts .data = 0x80800018 ∧ ¬ Aligned16 c := by
  obtain ⟨c, hconvert, hc⟩ := exists_ok_of_map (x := convert unfilledElf 0x80800000)
    (fun c => decide (c.globals.ovlStarts .data = 0x80800018)) (by decide +kernel)
  have hdata := of_decide_eq_true hc
  refine ⟨c, hconvert, hdata, fun haligned => ?_⟩
  have hmod := haligned.starts .data
  rw [hdata] at hmod
  exact absurd hmod (by decide)

end Novl
