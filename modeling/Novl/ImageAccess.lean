import Novl.Calls
import Novl.Recording

/-!
When every access to `memory` is in range.

Of the indices into `memory` only those of a loadable section are tested,
and before its size is rounded up. The positions the relocation entries
name and the ranges written to the file are taken as they come. A run that
no check stops goes through all of them, so it stays inside `memory`
exactly when the input has them inside.
-/

namespace Novl

open ByteMemory FallibleRun

/-! ### Relocation entries -/

/-- The entry has a handler, and names a word that is not in `memory`. -/
def NamesOutside (g : Globals) (e : GElfRel) : Prop :=
  novlRelocJt e.type ≠ none ∧ memorySize < relOff g e + 4

theorem novlRelocDo_eq_none_iff {g : Globals} {e : GElfRel} {dryrun : Bool} {st : RelocState} :
    novlRelocDo g (relOff g e) e.type dryrun st = none ↔ NamesOutside g e := by
  rw [novlRelocDo, NamesOutside]
  cases novlRelocJt e.type with
  | none => simp
  | some handler =>
      by_cases hin : relOff g e + 4 ≤ memorySize
      · simp [hin]
      · simp only [if_neg hin]
        exact iff_of_true trivial ⟨by simp, by omega⟩

theorem dryEntry_eq_none_iff {g : Globals} {st : DryState} {e : GElfRel} :
    dryEntry g st e = none ↔ NamesOutside g e := by
  rw [← @novlRelocDo_eq_none_iff g e true st.reloc, dryEntry]
  cases novlRelocDo g (relOff g e) e.type true st.reloc with
  | none => simp
  | some result => simp

/-- The dry pass leaves `memory` at an entry that names a word outside. -/
theorem dryPass_eq_none_iff {g : Globals} {m : Memory} {bs : List RelBlock} :
    dryPass g m bs = none ↔ ∃ b ∈ bs, ∃ e ∈ b.rels, NamesOutside g e := by
  refine foldlM_eq_none_iff fun st b => ?_
  refine (foldlM_eq_none_iff (f := dryEntry g) fun _ _ => dryEntry_eq_none_iff).trans ?_
  simp only [mem_relList]

/-- A real pass leaves `memory` at such an entry only. -/
theorem namesOutside_of_realPass {g : Globals} {m : Memory} {bs : List RelBlock}
    (hreal : realPass g m bs = .error .undefinedBehaviour) :
    ∃ b ∈ bs, ∃ e ∈ b.rels, NamesOutside g e := by
  obtain ⟨before, b, after, pre, e, post, st, rfl, hsplit, hst, he⟩ :=
    realPass_eq_error_iff.mp hreal
  obtain ⟨prior, blk, hbk⟩ := exists_bookkeeping_realBefore hst
  rcases realEntry_eq_error hbk he with ⟨-, hnone⟩ | ⟨hexit, -⟩
  · refine ⟨b, by simp, e, ?_, novlRelocDo_eq_none_iff.mp hnone⟩
    rw [← mem_relList, hsplit]
    simp
  · cases hexit

/-- The positions a LO16 writes back to were read by the HI16s before it,
so they are in `memory`. -/
theorem realBefore_remembers_inside {g : Globals} {m : Memory} {before : List RelBlock}
    {id : OvlSection} {pre : List GElfRel} {st : RealState}
    (h : realBefore g m before id pre = .ok st) :
    ∀ p, Remembers st.reloc.hilo p → p + 4 ≤ memorySize := by
  intro p hp
  obtain ⟨e, -, hhandled, rfl⟩ := remembers_realBefore h hp
  exact hhandled.1

/-! ### The ranges that are loaded and written -/

/-- The range of a section that is written to the file ends behind
`memory`. -/
def WrittenOutside (g : Globals) (i : OvlSection) : Prop :=
  (g.sizes i).toNat ≠ 0 ∧ memorySize < sectionPos g i + (g.sizes i).toNat

theorem sectionContents_error {g : Globals} {m : Memory} {i : OvlSection} {stop : Stop}
    (h : sectionContents g m i = .error stop) : WrittenOutside g i := by
  rw [sectionContents] at h
  split at h
  · cases h
  · rename_i hout
    rw [not_or, not_le] at hout
    exact hout

/-- The file is written from inside `memory`, or it is not for a section
that ends behind it. -/
theorem writtenOutside_of_writeOverlay {base : Word} {starts sizes : OvlSection → Word}
    {count : ℤ} {relocs : List Word} {g : Globals} {m : Memory}
    (h : writeOverlay base starts sizes count relocs (sectionContents g m) =
      .error .undefinedBehaviour) : ∃ i, i ≠ .bss ∧ WrittenOutside g i := by
  rw [writeOverlay] at h
  split at h
  · cases h
  · split at h
    · rename_i hrun
      cases h
      obtain ⟨pre, i, post, f, hsplit, -, hi⟩ := foldlM_eq_error_iff.mp hrun
      have hmem : i ∈ [OvlSection.text, .data, .rodata] := by
        rw [hsplit]
        simp
      refine ⟨i, ?_, ?_⟩
      · rintro rfl
        simp at hmem
      · rw [writeSection] at hi
        split at hi
        · cases hi
        · split at hi
          · rename_i hcontents
            exact sectionContents_error hcontents
          · cases hi
    · split at h
      · cases h
      · cases h

/-! ### The whole conversion -/

/-- The input has every access inside `memory`: no copied section ends
behind it, every entry with a handler names a word of it, and so does the
range recorded for each section that is written. -/
structure AccessesInside (elf : Elf) : Prop where
  copied : ∀ s ∈ elf.sections, ¬ CopyOverruns (elf.eEntry.setWidth 32) s
  named : ∀ b ∈ relBlocks elf.sections, ∀ e ∈ b.rels, novlRelocJt e.type ≠ none →
    (e.addr - elf.eEntry.setWidth 32).toNat + 4 ≤ memorySize
  written : ∀ i, i ≠ .bss → (recordedSize elf.sections i).toNat ≠ 0 →
    (recordedStart elf.sections i - elf.eEntry.setWidth 32).toNat +
      (recordedSize elf.sections i).toNat ≤ memorySize

/-- A run that ends well has stayed inside. -/
theorem Conversion.accessesInside {elf : Elf} {base : Word} {c : Converted}
    (h : Conversion elf base c) : AccessesInside elf := by
  have hload := h.load
  rw [h.elfEp] at hload
  refine ⟨not_copyOverruns_of_load hload, ?_, ?_⟩
  · intro b hb e he _
    rw [← h.elfEp]
    exact (h.dryOk.handled b hb e he).1
  · intro i hi hsize
    have hrecorded := loadSections_recorded hload i
    have hinside := h.section_inside hi
    rw [sectionPos, h.elfEp] at hinside
    rw [← hrecorded.1, ← hrecorded.2]
    refine hinside.resolve_left ?_
    rw [← hrecorded.2] at hsize
    exact hsize

/-- A run that leaves `memory` was led outside by its input. -/
theorem not_accessesInside {elf : Elf} {base : Word} (hopen : OutputOpened elf)
    (hundef : convert elf base = .error .undefinedBehaviour) : ¬ AccessesInside elf := by
  intro hinside
  have hnamed {g : Globals} (hep : g.elfEp = elf.eEntry.setWidth 32) :
      ¬ ∃ b ∈ relBlocks elf.sections, ∃ e ∈ b.rels, NamesOutside g e := by
    rintro ⟨b, hb, e, he, hjt, hout⟩
    have hin := hinside.named b hb e he hjt
    rw [relOff, hep] at hout
    omega
  rcases (convert_eq_error_iff hopen).mp hundef with hload | ⟨ld, hload, himage⟩
  · obtain ⟨s, hs, hover⟩ := exists_copyOverruns_of_undefined hload
    exact hinside.copied s hs hover
  · cases himage with
    | dryRead hdry => exact hnamed rfl (dryPass_eq_none_iff.mp hdry)
    | realEntry hdry herror hreal => exact hnamed rfl (namesOutside_of_realPass hreal)
    | write hdry herror hreal hcounts hwrite =>
        obtain ⟨i, hi, hsize, hout⟩ := writtenOutside_of_writeOverlay hwrite
        obtain ⟨hstart, hrecorded⟩ := loadSections_recorded hload i
        have hin := hinside.written i hi (by rw [← hrecorded]; exact hsize)
        rw [← hstart, ← hrecorded] at hin
        exact absurd hin (not_le.mpr hout)

theorem outputOpened_of_not_failure {elf : Elf} {base : Word}
    (h : ∀ e o, novlConv elf base ≠ .failure e o) : OutputOpened elf := by
  simp only [ne_eq, novlConv_eq_failure_iff] at h
  constructor
  · cases hkind : elf.kind with
    | elf => rfl
    | ar => exact absurd (by rw [convert, hkind]) (h .archiveProvided .untouched)
    | other => exact absurd (by rw [convert, hkind]) (h .unsupportedFormat .untouched)
  · by_contra hmachine
    have hkind : elf.kind = .elf := by
      cases hkind : elf.kind with
      | elf => rfl
      | ar => exact absurd (by rw [convert, hkind]) (h .archiveProvided .untouched)
      | other => exact absurd (by rw [convert, hkind]) (h .unsupportedFormat .untouched)
    exact h .notMips .untouched (by rw [convert, hkind]; exact if_pos hmachine)

/-- Where no check stops the conversion, its accesses are inside `memory`
if and only if its input has them there; and the words that a LO16 writes
back to are inside in any case. -/
theorem novlConv_inside_iff {elf : Elf} {base : Word}
    (hgoes : ∀ e o, novlConv elf base ≠ .failure e o) :
    (novlConv elf base ≠ .undefinedBehaviour ↔ AccessesInside elf) ∧
      ∀ g m before id pre st, realBefore g m before id pre = .ok st →
        ∀ p, Remembers st.reloc.hilo p → p + 4 ≤ memorySize := by
  refine ⟨?_, fun g m before id pre st hst => realBefore_remembers_inside hst⟩
  have hopen := outputOpened_of_not_failure hgoes
  cases hrun : convert elf base with
  | ok c =>
      have houtcome : novlConv elf base ≠ .undefinedBehaviour := by
        rw [novlConv, hrun]
        simp
      exact iff_of_true houtcome (conversion_of_convert hrun).accessesInside
  | error stop =>
      cases stop with
      | exit e o => exact absurd (novlConv_eq_failure_iff.mpr hrun) (hgoes e o)
      | undefinedBehaviour =>
          have houtcome : novlConv elf base = .undefinedBehaviour := by
            rw [novlConv, hrun]
          exact iff_of_false (not_not.mpr houtcome) (not_accessesInside hopen hrun)

theorem mixedText_accessesInside : AccessesInside (sampleElf mixedText mixedBlock.rels []) := by
  have hdone : (novlConv (sampleElf mixedText mixedBlock.rels []) 0x80800000).exitStatus =
      some 0 := by decide +kernel
  have hgoes : ∀ e o, novlConv (sampleElf mixedText mixedBlock.rels []) 0x80800000 ≠
      .failure e o := by
    intro e o hfailure
    rw [hfailure] at hdone
    simp [Outcome.exitStatus] at hdone
  refine (novlConv_inside_iff hgoes).1.mp fun hundef => ?_
  rw [hundef] at hdone
  simp [Outcome.exitStatus] at hdone

/-- A pointer in front of the entry point. -/
def outsideElf : Elf := sampleElf mixedText [⟨0x7FFFFFFC, 2⟩] []

theorem outsideElf_leaves_memory :
    (∀ e o, novlConv outsideElf 0x80800000 ≠ .failure e o) ∧
      novlConv outsideElf 0x80800000 = .undefinedBehaviour := by
  have hrun : novlConv outsideElf 0x80800000 = .undefinedBehaviour := by decide +kernel
  refine ⟨fun e o hfailure => ?_, hrun⟩
  rw [hrun] at hfailure
  cases hfailure

end Novl
