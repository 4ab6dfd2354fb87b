import Mathlib.Data.List.TakeWhile
import Novl.DryRun
import Novl.Layout

/-!
What a successful conversion has gone through.

`Conversion` lists the stages of a conversion that ended well, with what
each of them computed. The facts that need nothing else follow: the
section sizes are multiples of 8 and no larger than `memory`, the table
holds no null word, and the file is header, table and footer behind the
relocated sections.
-/

namespace Novl

open ByteMemory FallibleRun

/-- The globals during the dry pass. -/
def Converted.dryGlobals (c : Converted) : Globals := { c.globals with ovlStarts := fun _ => 0 }

/-- The stages of a successful conversion. -/
structure Conversion (elf : Elf) (base : Word) (c : Converted) : Prop where
  kind : elf.kind = .elf
  machine : elf.eMachine = emMips
  elfEp : c.globals.elfEp = elf.eEntry.setWidth 32
  load : loadSections c.globals.elfEp elf.sections =
    .ok ⟨c.loaded, c.globals.elfStarts, c.globals.sizes⟩
  dry : ∃ dry, dryPass c.dryGlobals c.loaded (relBlocks elf.sections) = some dry ∧
    dry.error = false ∧ dry.nintyCountPred = c.nintyCountPred
  starts : c.globals.ovlStarts = overlayStarts base c.globals.sizes c.nintyCountPred
  real : ∃ real, realPass c.globals c.loaded (relBlocks elf.sections) = .ok real ∧
    real.reloc.memory = c.memory ∧ real.nintyRelocs = c.nintyRelocs ∧
    real.nintyCountReal = c.nintyCountReal
  counts : c.nintyCountPred = c.nintyCountReal
  written : ∃ f, writeOverlay base c.globals.ovlStarts c.globals.sizes c.nintyCountReal
      c.nintyRelocs (sectionContents c.globals c.memory) = .ok f ∧ f.bytes = c.file

theorem conversion_of_convert {elf : Elf} {base : Word} {c : Converted}
    (h : convert elf base = .ok c) : Conversion elf base c := by
  rw [convert] at h
  split at h
  · cases h
  · cases h
  · rename_i hkind
    split at h
    · cases h
    · rename_i hmachine
      simp only at h
      split at h
      · cases h
      · rename_i ld hload
        rw [convertImage] at h
        simp only at h
        split at h
        · cases h
        · rename_i dry hdry
          split at h
          · cases h
          · rename_i herror
            split at h
            · cases h
            · rename_i real hreal
              split at h
              · cases h
              · rename_i hcounts
                split at h
                · cases h
                · rename_i f hwrite
                  cases h
                  exact {
                    kind := hkind
                    machine := not_not.mp hmachine
                    elfEp := rfl
                    load := hload
                    dry := ⟨dry, hdry, by simpa using herror, rfl⟩
                    starts := rfl
                    real := ⟨real, hreal, rfl, rfl, rfl⟩
                    counts := not_not.mp hcounts
                    written := ⟨f, hwrite, rfl⟩ }

theorem Conversion.dryOk {elf : Elf} {base : Word} {c : Converted} (h : Conversion elf base c) :
    DryOk c.dryGlobals c.loaded (relBlocks elf.sections) := by
  obtain ⟨dry, hdry, herror, -⟩ := h.dry
  rw [DryOk, hdry, Option.map_some, herror]

/-- The stages determine the outcome. -/
theorem Conversion.convert_eq {elf : Elf} {base : Word} {c : Converted}
    (h : Conversion elf base c) : convert elf base = .ok c := by
  obtain ⟨dry, hdry, herror, hpred⟩ := h.dry
  obtain ⟨real, hreal, hmemory, hrelocs, hcount⟩ := h.real
  obtain ⟨f, hwrite, hfile⟩ := h.written
  have hload := h.load
  have hstarts := h.starts
  have hcounts := h.counts
  obtain ⟨⟨elfEp, elfStarts, ovlStarts, sizes⟩, loaded, pred, memory, relocs, count, file⟩ := c
  simp only [Converted.dryGlobals] at *
  have hep := h.elfEp
  simp only at hep
  subst hep hpred hstarts hmemory hrelocs hcount hfile
  rw [convert, h.kind]
  simp only [h.machine, ne_eq, not_true_eq_false, if_false, hload]
  rw [convertImage]
  simp only [hdry, herror, Bool.false_eq_true, if_false, hreal, hwrite]
  rw [if_neg (not_not.mpr hcounts)]

/-! ### Sizes -/

theorem roundSize_mod (x : BitVec 64) : (roundSize x).toNat % 8 = 0 := by
  have hround : ((x + 7) &&& ~~~7#64).toNat = (x + 7).toNat / 8 * 8 :=
    LowMask.toNat_and_not_mask (n := 3) (by omega) (x + 7)
  rw [roundSize, BitVec.toNat_setWidth]
  change ((x + 7) &&& ~~~7#64).toNat % 2 ^ 32 % 8 = 0
  rw [hround]
  omega

/-- What one section does to the recorded starts and sizes. -/
theorem loadSection_ok {elfEp : Word} {st st' : LoadState} {s : ElfSection}
    (hstep : loadSection elfEp st s = .ok st') :
    (validSec s.name = none ∧ st' = st) ∨
    ∃ id, validSec s.name = some id ∧ st.elfStarts id = 0 ∧
      st'.elfStarts = Function.update st.elfStarts id (s.shAddr.setWidth 32) ∧
      st'.sizes = Function.update st.sizes id (roundSize s.shSize) := by
  rw [loadSection] at hstep
  cases hid : validSec s.name with
  | none =>
      rw [hid] at hstep
      cases hstep
      exact Or.inl ⟨rfl, rfl⟩
  | some id =>
      simp only [hid] at hstep
      refine Or.inr ⟨id, rfl, ?_⟩
      -- `elf_starts` of 0 stands for a section not seen yet.
      by_cases hstart : st.elfStarts id = 0
      · rw [if_neg (not_not.mpr hstart)] at hstep
        refine ⟨hstart, ?_⟩
        split at hstep
        · split at hstep
          · cases hstep
          · rw [loadData] at hstep
            split at hstep
            · cases hstep
              exact ⟨rfl, rfl⟩
            · simp only at hstep
              split at hstep
              · cases hstep
                exact ⟨rfl, rfl⟩
              · cases hstep
        · cases hstep
          exact ⟨rfl, rfl⟩
      · rw [if_pos hstart] at hstep
        cases hstep

theorem loadSections_sizes {elfEp : Word} {ss : List ElfSection} {st ld : LoadState}
    (hsizes : ∀ i, (st.sizes i).toNat % 8 = 0)
    (hload : ss.foldlM (loadSection elfEp) st = .ok ld) : ∀ i, (ld.sizes i).toNat % 8 = 0 := by
  induction ss generalizing st with
  | nil =>
      cases hload
      exact hsizes
  | cons s ss ih =>
      rw [List.foldlM_cons] at hload
      obtain ⟨st₁, hstep, hrest⟩ := exists_of_bind_eq_ok hload
      refine ih (fun i => ?_) hrest
      rcases loadSection_ok hstep with ⟨-, rfl⟩ | ⟨id, -, -, -, hupdate⟩
      · exact hsizes i
      · rw [hupdate, Function.update_apply]
        split
        · exact roundSize_mod _
        · exact hsizes i

theorem Conversion.sizes_mod {elf : Elf} {base : Word} {c : Converted}
    (h : Conversion elf base c) (i : OvlSection) : (c.globals.sizes i).toNat % 8 = 0 :=
  loadSections_sizes (fun _ => rfl) h.load i

/-! ### The table -/

/-- A type with a handler fits the six bits of an overlay relocation. -/
theorem and_0x3F_of_handled {type : Word} (hjt : novlRelocJt type ≠ none) :
    type &&& 0x3F#32 = type &&& 0x7F#32 ∧ type &&& 0x7F#32 ≠ 0 := by
  have hmask : type &&& 0x3F#32 = type &&& 0x7F#32 &&& 0x3F#32 := by
    rw [BitVec.and_assoc]
    rfl
  rw [novlRelocJt] at hjt
  rw [hmask]
  generalize type &&& 0x7F#32 = t at hjt ⊢
  split at hjt
  · rename_i ht
    rw [ht]
    decide
  · split at hjt
    · rename_i ht
      rw [ht]
      decide
    · split at hjt
      · rename_i ht
        rw [ht]
        decide
      · split at hjt
        · rename_i ht
          rw [ht]
          decide
        · exact absurd rfl hjt

theorem nintyReloc_ne_zero {g : Globals} {id : OvlSection} {e : GElfRel}
    (hjt : novlRelocJt e.type ≠ none) : nintyReloc g id e ≠ 0 := by
  intro hzero
  have htype := congrArg ovlRelocGetType hzero
  obtain ⟨hfits, hne⟩ := and_0x3F_of_handled hjt
  rw [nintyReloc, ovlRelocGetType_mk, hfits] at htype
  exact hne htype

/-- Every overlay relocation comes from an entry of a kept section. -/
theorem mem_nintyRelocs_of_realPass {g : Globals} {m : Memory} {bs : List RelBlock}
    {real : RealState} (hreal : realPass g m bs = .ok real) {w : Word}
    (hw : w ∈ real.nintyRelocs) :
    ∃ b ∈ bs, ∃ e ∈ b.rels, Handled g e ∧ w = nintyReloc g b.id e := by
  obtain ⟨-, added, hadded, hmem⟩ := realBlocks_bookkeeping rfl hreal
  rw [List.nil_append] at hadded
  exact hmem w (hadded ▸ hw)

theorem nintyCountReal_of_realPass {g : Globals} {m : Memory} {bs : List RelBlock}
    {real : RealState} (hreal : realPass g m bs = .ok real) :
    real.nintyCountReal = real.nintyRelocs.length :=
  (realBlocks_bookkeeping rfl hreal).1

/-- The loop that writes the table does not stop early. -/
theorem writtenRelocs_of_realPass {g : Globals} {m : Memory} {bs : List RelBlock}
    {real : RealState} (hreal : realPass g m bs = .ok real) :
    writtenRelocs real.nintyRelocs = real.nintyRelocs := by
  rw [writtenRelocs, List.takeWhile_eq_self_iff]
  intro w hw
  obtain ⟨b, -, e, -, hhandled, rfl⟩ := mem_nintyRelocs_of_realPass hreal hw
  exact decide_eq_true (nintyReloc_ne_zero hhandled.2)

section Converted

variable {elf : Elf} {base : Word} {c : Converted}

theorem Conversion.mem_nintyRelocs (h : Conversion elf base c) {w : Word}
    (hw : w ∈ c.nintyRelocs) :
    ∃ b ∈ relBlocks elf.sections, ∃ e ∈ b.rels, Handled c.globals e ∧
      w = nintyReloc c.globals b.id e := by
  obtain ⟨real, hreal, -, hrelocs, -⟩ := h.real
  exact mem_nintyRelocs_of_realPass hreal (hrelocs ▸ hw)

theorem Conversion.nintyCountReal_eq (h : Conversion elf base c) :
    c.nintyCountReal = c.nintyRelocs.length := by
  obtain ⟨real, hreal, -, hrelocs, hcount⟩ := h.real
  rw [← hrelocs, ← hcount, nintyCountReal_of_realPass hreal]

theorem Conversion.writtenRelocs_eq (h : Conversion elf base c) :
    writtenRelocs c.nintyRelocs = c.nintyRelocs := by
  obtain ⟨real, hreal, -, hrelocs, -⟩ := h.real
  rw [← hrelocs, writtenRelocs_of_realPass hreal]

/-! ### The file -/

/-- A section of the relocated image. -/
def Converted.sectionImage (c : Converted) (i : OvlSection) : List Byte :=
  readBytes c.memory (sectionPos c.globals i) (c.globals.sizes i).toNat

@[simp] theorem Converted.length_sectionImage (c : Converted) (i : OvlSection) :
    (c.sectionImage i).length = (c.globals.sizes i).toNat := by
  simp [sectionImage, readBytes]

theorem sectionContents_ok {g : Globals} {m : Memory} {i : OvlSection} {bs : List Byte}
    (h : sectionContents g m i = .ok bs) :
    bs = readBytes m (sectionPos g i) (g.sizes i).toNat ∧
      ((g.sizes i).toNat = 0 ∨ sectionPos g i + (g.sizes i).toNat ≤ memorySize) := by
  rw [sectionContents] at h
  split at h
  · rename_i hin
    cases h
    exact ⟨rfl, hin⟩
  · cases h

theorem Conversion.sectionContents_eq (h : Conversion elf base c) {i : OvlSection}
    (hi : i ≠ .bss) : sectionContents c.globals c.memory i = .ok (c.sectionImage i) := by
  obtain ⟨f, hrun, -⟩ := h.written
  obtain ⟨t, d, r, ht, hd, hr, -⟩ := writeOverlay_sections hrun
  have hok {j : OvlSection} {bs : List Byte}
      (hbs : sectionContents c.globals c.memory j = .ok bs) :
      sectionContents c.globals c.memory j = .ok (c.sectionImage j) := by
    obtain ⟨rfl, -⟩ := sectionContents_ok hbs
    exact hbs
  cases i with
  | text => exact hok ht
  | data => exact hok hd
  | rodata => exact hok hr
  | bss => exact absurd rfl hi

theorem Conversion.section_inside (h : Conversion elf base c) {i : OvlSection} (hi : i ≠ .bss) :
    (c.globals.sizes i).toNat = 0 ∨
      sectionPos c.globals i + (c.globals.sizes i).toNat ≤ memorySize :=
  (sectionContents_ok (h.sectionContents_eq hi)).2

theorem Conversion.sizesFit (h : Conversion elf base c) : SizesFit c.globals.sizes := by
  intro i hi
  have hin := h.section_inside hi
  omega

theorem Conversion.toNat_headerAddr (h : Conversion elf base c) :
    (headerAddr c.globals.sizes).toNat = (c.sectionImage .text).length +
      (c.sectionImage .data).length + (c.sectionImage .rodata).length := by
  simp [h.sizesFit.toNat_headerAddr]

theorem Conversion.starts_eq (h : Conversion elf base c) :
    c.globals.ovlStarts =
      overlayStarts base c.globals.sizes (writtenRelocs c.nintyRelocs).length := by
  rw [h.starts, h.counts, h.nintyCountReal_eq, h.writtenRelocs_eq]

/-- The file of a successful conversion, with the condition on the base
address that its layout checks amount to. -/
theorem Conversion.file_eq (h : Conversion elf base c)
    (hend : headEnd c.globals.sizes c.nintyRelocs < 2 ^ 31) :
    base.toNat % 16 = 0 ∧ base.toNat + c.file.length < 2 ^ 32 ∧
      c.file.length = fileLength c.globals.sizes c.nintyRelocs ∧
      c.file = overlayBytes c.globals.sizes c.nintyCountReal c.nintyRelocs
        (c.sectionImage .text) (c.sectionImage .data) (c.sectionImage .rodata) := by
  obtain ⟨f, hrun, hfile⟩ := h.written
  rw [h.starts_eq] at hrun
  obtain ⟨hbase, hbelow⟩ := writeOverlay_inv hend hrun
  obtain ⟨f', hrun', hbytes⟩ := writeOverlay_eq h.sizesFit
    (h.sectionContents_eq (by decide)) (h.sectionContents_eq (by decide))
    (h.sectionContents_eq (by decide)) (c.length_sectionImage _) (c.length_sectionImage _)
    (c.length_sectionImage _) hend hbase hbelow
  obtain rfl : f' = f := Except.ok.inj (hrun'.symm.trans hrun)
  have hlen : c.file.length = fileLength c.globals.sizes c.nintyRelocs := by
    rw [← hfile, hbytes, length_overlayBytes h.toNat_headerAddr]
  exact ⟨hbase, by rw [hlen]; exact hbelow, hlen, by rw [← hfile, hbytes]⟩

theorem Conversion.headEnd_lt (h : Conversion elf base c) (hshort : c.file.length < 2 ^ 31) :
    headEnd c.globals.sizes c.nintyRelocs < 2 ^ 31 := by
  obtain ⟨f, hrun, hfile⟩ := h.written
  exact (headEnd_le_length_of_writeOverlay hrun).trans_lt (hfile ▸ hshort)

end Converted

end Novl
