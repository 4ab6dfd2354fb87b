import Novl.FinalImage
import Novl.RoundTrip

/-!
Two conversions of one input at different base addresses.

Every decision of the converter is taken on the words and addresses of
the input, so the table and the section sizes are the same at any base
address. The base address only has to be a multiple of 16 that leaves the
file below the top of the address space; then the layout checks pass, and
everything behind the sections is the same in the two files.
-/

namespace Novl

open ByteMemory FallibleRun

/-! ### The table is not longer than `memory` -/

theorem length_planEvents (g : Globals) (id : OvlSection) (m : Memory) (h : HiLoTable)
    (es : List GElfRel) : (planEvents g id m h es).length = es.length := by
  induction es generalizing h with
  | nil => rfl
  | cons e es ih => rw [planEvents, List.length_cons, ih, List.length_cons]

theorem passNet_le (g : Globals) (m : Memory) (bs : List RelBlock) :
    passNet g m bs ≤ (visited bs).length := by
  induction bs with
  | nil => simp [passNet]
  | cons b bs ih =>
      have hnet := TailStack.net_le_length (blockEvents g m b)
      rw [blockEvents, length_planEvents] at hnet
      rw [visited_cons, List.length_append]
      simp only [passNet, List.map_cons, List.sum_cons] at ih ⊢
      rw [blockEvents]
      omega

theorem Placed.length_le {g : Globals} {es : List GElfRel} (h : Placed g es) :
    es.length ≤ memorySize := by
  have hnodup : (es.map (relOff g)).Nodup :=
    List.pairwise_map.mpr (h.apart.imp fun hxy => hxy.ne)
  have hsub : es.map (relOff g) ⊆ List.range memorySize := by
    intro p hp
    obtain ⟨e, he, rfl⟩ := List.mem_map.mp hp
    have hin := h.inImage e he
    exact List.mem_range.mpr (by omega)
  have hle := (hnodup.subperm hsub).length_le
  rwa [List.length_map, List.length_range] at hle

/-! ### What overlay addresses leave alone -/

theorem blockTable_ovlStarts (g : Globals) (o : OvlSection → Word) (m : Memory) :
    blockTable { g with ovlStarts := o } m = blockTable g m :=
  funext fun b => by rw [blockTable, blockTable, blockEvents_ovlStarts]

/-- The image and the table of a conversion are the planned ones. -/
theorem Conversion.planned {elf : Elf} {base : Word} {c : Converted}
    (h : Conversion elf base c) (hplaced : WellPlaced c.globals.elfEp (relBlocks elf.sections)) :
    c.memory = finalMemory c.globals c.loaded (relBlocks elf.sections) ∧
      c.nintyRelocs = (relBlocks elf.sections).flatMap (blockTable c.dryGlobals c.loaded) ∧
      c.nintyCountReal = passNet c.dryGlobals c.loaded (relBlocks elf.sections) := by
  have herr : (relBlocks elf.sections).any (blockError c.globals c.loaded) = false := by
    rw [← h.dryOk.any_blockError (hplaced.placed (g := c.dryGlobals))]
    exact congrArg _ (blockError_ovlStarts c.dryGlobals c.globals.ovlStarts c.loaded)
  obtain ⟨real, hreal, hmemory, hrelocs, hcount⟩ := h.real
  obtain ⟨real', hreal', hmemory', hrelocs', hcount'⟩ := realPass_eq hplaced.placed herr
  obtain rfl : real' = real := Except.ok.inj (hreal'.symm.trans hreal)
  refine ⟨hmemory.symm.trans hmemory', ?_, ?_⟩
  · rw [← hrelocs, hrelocs']
    exact congrArg (fun table => (relBlocks elf.sections).flatMap table)
      (blockTable_ovlStarts c.dryGlobals c.globals.ovlStarts c.loaded)
  · rw [← hcount, hcount']
    exact passNet_ovlStarts c.dryGlobals c.globals.ovlStarts c.loaded _

theorem Conversion.headEnd_lt_of_wellPlaced {elf : Elf} {base : Word} {c : Converted}
    (h : Conversion elf base c) (hplaced : WellPlaced c.globals.elfEp (relBlocks elf.sections)) :
    headEnd c.globals.sizes c.nintyRelocs < 2 ^ 26 := by
  have hfit := h.sizesFit
  obtain ⟨-, -, hnet⟩ := h.planned hplaced
  have hle := passNet_le c.dryGlobals c.loaded (relBlocks elf.sections)
  have hcount := h.nintyCountReal_eq
  have hlen := (hplaced.placed (g := c.dryGlobals)).length_le
  have htext := hfit .text (by decide)
  have hdata := hfit .data (by decide)
  have hrodata := hfit .rodata (by decide)
  rw [headEnd, h.writtenRelocs_eq, hfit.toNat_headerAddr]
  rw [memorySize] at *
  omega

theorem Conversion.file_eq_of_wellPlaced {elf : Elf} {base : Word} {c : Converted}
    (h : Conversion elf base c) (hplaced : WellPlaced c.globals.elfEp (relBlocks elf.sections)) :
    base.toNat % 16 = 0 ∧ base.toNat + c.file.length < 2 ^ 32 ∧
      c.file.length = fileLength c.globals.sizes c.nintyRelocs ∧
      c.file = overlayBytes c.globals.sizes c.nintyCountReal c.nintyRelocs
        (c.sectionImage .text) (c.sectionImage .data) (c.sectionImage .rodata) :=
  h.file_eq ((h.headEnd_lt_of_wellPlaced hplaced).trans (by decide))

/-! ### Two base addresses -/

theorem Conversion.wellPlaced_iff {elf : Elf} {base base' : Word} {c c' : Converted}
    (h : Conversion elf base c) (h' : Conversion elf base' c') :
    WellPlaced c.globals.elfEp (relBlocks elf.sections) ↔
      WellPlaced c'.globals.elfEp (relBlocks elf.sections) := by
  rw [h.elfEp, h'.elfEp]

/-- Two conversions of one input agree in everything but the overlay
addresses, the relocated image and the file. -/
theorem Conversion.agree {elf : Elf} {base base' : Word} {c c' : Converted}
    (h : Conversion elf base c) (h' : Conversion elf base' c')
    (hplaced : WellPlaced c.globals.elfEp (relBlocks elf.sections)) :
    c'.dryGlobals = c.dryGlobals ∧ c'.loaded = c.loaded ∧ c'.nintyRelocs = c.nintyRelocs ∧
      c'.nintyCountPred = c.nintyCountPred ∧ c'.nintyCountReal = c.nintyCountReal := by
  have hep : c'.globals.elfEp = c.globals.elfEp := h'.elfEp.trans h.elfEp.symm
  have hload := h'.load
  rw [hep, h.load, Except.ok.injEq, LoadState.mk.injEq] at hload
  obtain ⟨hloaded, hstarts, hsizes⟩ := hload
  have hglobals : c'.dryGlobals = c.dryGlobals := by
    rw [Converted.dryGlobals, Converted.dryGlobals, hep, ← hstarts, ← hsizes]
  obtain ⟨dry, hdry, -, hpred⟩ := h.dry
  obtain ⟨dry', hdry', -, hpred'⟩ := h'.dry
  rw [hglobals, ← hloaded, hdry, Option.some.injEq] at hdry'
  obtain ⟨-, hrelocs, hcount⟩ := h.planned hplaced
  obtain ⟨-, hrelocs', hcount'⟩ := h'.planned (hep ▸ hplaced)
  rw [hglobals, ← hloaded] at hrelocs' hcount'
  exact ⟨hglobals, hloaded.symm, hrelocs'.trans hrelocs.symm, by rw [← hpred, ← hpred', hdry'],
    hcount'.trans hcount.symm⟩

theorem Conversion.sizes_agree {elf : Elf} {base base' : Word} {c c' : Converted}
    (h : Conversion elf base c) (h' : Conversion elf base' c')
    (hplaced : WellPlaced c.globals.elfEp (relBlocks elf.sections)) :
    c'.globals.sizes = c.globals.sizes := by
  change c'.dryGlobals.sizes = c.dryGlobals.sizes
  rw [(h.agree h' hplaced).1]

/-- A conversion succeeds at any other suitable base address as well. -/
theorem Conversion.rebase {elf : Elf} {base base' : Word} {c : Converted}
    (h : Conversion elf base c) (hplaced : WellPlaced c.globals.elfEp (relBlocks elf.sections))
    (hbase : base'.toNat % 16 = 0)
    (hend : base'.toNat + fileLength c.globals.sizes c.nintyRelocs < 2 ^ 32) :
    ∃ c', Conversion elf base' c' := by
  have hshort := (h.headEnd_lt_of_wellPlaced hplaced).trans (show 2 ^ 26 < 2 ^ 31 by decide)
  let o := overlayStarts base' c.globals.sizes c.nintyCountPred
  let g : Globals := { c.dryGlobals with ovlStarts := o }
  obtain ⟨real, hreal, hmemory, hrelocs, hcount⟩ := realPass_eq (g := g) (m := c.loaded)
    (hplaced.placed (g := g)) (by
      rw [← h.dryOk.any_blockError (hplaced.placed (g := c.dryGlobals))]
      exact congrArg _ (blockError_ovlStarts c.dryGlobals o c.loaded))
  obtain ⟨-, hrelocs₀, hcount₀⟩ := h.planned hplaced
  have hrelocs' : real.nintyRelocs = c.nintyRelocs := by
    rw [hrelocs, hrelocs₀]
    exact congrArg (fun table => (relBlocks elf.sections).flatMap table)
      (blockTable_ovlStarts c.dryGlobals o c.loaded)
  have hcount' : real.nintyCountReal = c.nintyCountReal := by
    rw [hcount, hcount₀]
    exact passNet_ovlStarts c.dryGlobals o c.loaded _
  -- Whether a section lies inside `memory` has nothing to do with the base.
  have hcontents (i : OvlSection) (hi : i ≠ .bss) :
      sectionContents g real.reloc.memory i =
        .ok (readBytes real.reloc.memory (sectionPos g i) (c.globals.sizes i).toNat) :=
    if_pos (h.section_inside hi)
  obtain ⟨f, hrun, -⟩ := writeOverlay_eq h.sizesFit (hcontents .text (by decide))
    (hcontents .data (by decide)) (hcontents .rodata (by decide)) (by simp [readBytes])
    (by simp [readBytes]) (by simp [readBytes]) hshort hbase hend
  refine ⟨⟨g, c.loaded, c.nintyCountPred, real.reloc.memory, c.nintyRelocs, c.nintyCountReal,
    f.bytes⟩, ?_⟩
  exact {
    kind := h.kind
    machine := h.machine
    elfEp := h.elfEp
    load := h.load
    dry := h.dry
    starts := rfl
    real := ⟨real, hreal, rfl, hrelocs', hcount'⟩
    counts := h.counts
    written := by
      refine ⟨f, ?_, rfl⟩
      have hstarts : overlayStarts base' c.globals.sizes c.nintyCountPred =
          overlayStarts base' c.globals.sizes (writtenRelocs c.nintyRelocs).length := by
        rw [h.counts, h.nintyCountReal_eq, h.writtenRelocs_eq]
      have hrun' := hrun
      rw [← hstarts] at hrun'
      exact hrun' }

/-- The file of a conversion is far shorter than the address space. -/
theorem Conversion.length_file_lt {elf : Elf} {base : Word} {c : Converted}
    (h : Conversion elf base c) (hplaced : WellPlaced c.globals.elfEp (relBlocks elf.sections)) :
    c.file.length < 2 ^ 27 := by
  have hend := h.headEnd_lt_of_wellPlaced hplaced
  obtain ⟨-, -, hlen, -⟩ := h.file_eq_of_wellPlaced hplaced
  rw [hlen, fileLength]
  omega

/-- Wherever the input can be converted, its file would also fit behind
this base address. -/
def EndsBelow (elf : Elf) (base : Word) : Prop :=
  ∀ b c, convert elf b = .ok c → base.toNat + c.file.length < 2 ^ 32

theorem convert_rebase {elf : Elf} {base base' : Word} {c : Converted}
    (hplaced : WellPlaced (elf.eEntry.setWidth 32) (relBlocks elf.sections))
    (hbase : base'.toNat % 16 = 0) (hend : EndsBelow elf base')
    (hconvert : convert elf base = .ok c) : ∃ c', convert elf base' = .ok c' := by
  have h := conversion_of_convert hconvert
  rw [← h.elfEp] at hplaced
  obtain ⟨-, -, hlen, -⟩ := h.file_eq_of_wellPlaced hplaced
  obtain ⟨c', h'⟩ := h.rebase hplaced hbase (hlen ▸ hend base c hconvert)
  exact ⟨c', h'.convert_eq⟩

/-- Behind the sections the files of two conversions are the same. -/
theorem Conversion.file_agree {elf : Elf} {base base' : Word} {c c' : Converted}
    (h : Conversion elf base c) (h' : Conversion elf base' c')
    (hplaced : WellPlaced c.globals.elfEp (relBlocks elf.sections)) :
    c'.file.length = c.file.length ∧
      c'.file.drop (headerAddr c'.globals.sizes).toNat =
        c.file.drop (headerAddr c.globals.sizes).toNat := by
  obtain ⟨-, -, hrelocs, -, hcount⟩ := h.agree h' hplaced
  have hsizes := h.sizes_agree h' hplaced
  obtain ⟨-, -, hlen, hfile⟩ := h.file_eq_of_wellPlaced hplaced
  obtain ⟨-, -, hlen', hfile'⟩ := h'.file_eq_of_wellPlaced ((h.wellPlaced_iff h').mp hplaced)
  have hdrop := drop_overlayBytes c.nintyCountReal c.nintyRelocs h.toNat_headerAddr
  have hdrop' := drop_overlayBytes c'.nintyCountReal c'.nintyRelocs h'.toNat_headerAddr
  rw [← hfile] at hdrop
  rw [← hfile', hsizes, hrelocs, hcount] at hdrop'
  exact ⟨by rw [hlen, hlen', hsizes, hrelocs], by rw [hsizes, hdrop', hdrop]⟩

/-- The metadata does not depend on the base address: at two multiples of
16 behind which the file fits, an input is converted at both or at
neither, and then with the same header, the same table, and the same file
from the header on. -/
theorem convert_metadata_eq {elf : Elf} (base₁ base₂ : Word)
    (hplaced : WellPlaced (elf.eEntry.setWidth 32) (relBlocks elf.sections))
    (hbase₁ : base₁.toNat % 16 = 0) (hbase₂ : base₂.toNat % 16 = 0)
    (hend₁ : EndsBelow elf base₁) (hend₂ : EndsBelow elf base₂) :
    ((∃ c₁, convert elf base₁ = .ok c₁) ↔ ∃ c₂, convert elf base₂ = .ok c₂) ∧
    ∀ c₁ c₂, convert elf base₁ = .ok c₁ → convert elf base₂ = .ok c₂ →
      c₁.file.length = c₂.file.length ∧
      newHead c₁.globals.sizes c₁.nintyCountReal = newHead c₂.globals.sizes c₂.nintyCountReal ∧
      c₁.nintyRelocs = c₂.nintyRelocs ∧
      c₁.file.drop (headerAddr c₁.globals.sizes).toNat =
        c₂.file.drop (headerAddr c₂.globals.sizes).toNat := by
  refine ⟨⟨?_, ?_⟩, fun c₁ c₂ hc₁ hc₂ => ?_⟩
  · rintro ⟨c₁, hc₁⟩
    exact convert_rebase hplaced hbase₂ hend₂ hc₁
  · rintro ⟨c₂, hc₂⟩
    exact convert_rebase hplaced hbase₁ hend₁ hc₂
  · have h₁ := conversion_of_convert hc₁
    have h₂ := conversion_of_convert hc₂
    rw [← h₁.elfEp] at hplaced
    obtain ⟨-, -, hrelocs, -, hcount⟩ := h₁.agree h₂ hplaced
    obtain ⟨hlen, hdrop⟩ := h₁.file_agree h₂ hplaced
    exact ⟨hlen.symm, by rw [h₁.sizes_agree h₂ hplaced, hcount], hrelocs.symm, hdrop.symm⟩

theorem mixedElf_metadata_eq :
    ∃ c₁ c₂, convert mixedElf 0x80800000 = .ok c₁ ∧ convert mixedElf 0xF0000000 = .ok c₂ ∧
      c₁.nintyRelocs = c₂.nintyRelocs := by
  have hplaced : WellPlaced (mixedElf.eEntry.setWidth 32) (relBlocks mixedElf.sections) :=
    ⟨by decide +kernel, by decide +kernel, by decide +kernel⟩
  have hfits (base : Word) (hbase : base.toNat ≤ 0xF0000000) : EndsBelow mixedElf base := by
    intro b c hc
    have h := conversion_of_convert hc
    have hlen := h.length_file_lt (by rw [h.elfEp]; exact hplaced)
    omega
  obtain ⟨hiff, heq⟩ := convert_metadata_eq 0x80800000 0xF0000000 hplaced
    (by decide) (by decide) (hfits _ (by decide)) (hfits _ (by decide))
  obtain ⟨c₁, hc₁, -⟩ := exists_ok_of_map (x := convert mixedElf 0x80800000) (fun _ => true)
    (by decide +kernel)
  obtain ⟨c₂, hc₂⟩ := hiff.mp ⟨c₁, hc₁⟩
  exact ⟨c₁, c₂, hc₁, hc₂, (heq c₁ c₂ hc₁ hc₂).2.2.1⟩

end Novl
