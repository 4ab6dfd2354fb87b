import Novl.Conversion

/-!
Where a conversion stops, and what it leaves at the output path.

The output is created before the first section is read. Of the exits that
come after that, the ones with a reason in the input (a section or a
relocation that is refused) leave the empty file behind, and the ones that
compare the converter's own predictions remove it. So no output is left
behind exactly when the input passes every test of the first kind.
-/

namespace Novl

open ByteMemory FallibleRun

/-! ### Loading a section -/

/-- The bounds test of a loadable section fails. -/
def OutOfBounds (elfEp : Word) (s : ElfSection) : Prop :=
  elfEp.setWidth 64 > s.shAddr ∨ (s.shAddr + s.shSize - elfEp.setWidth 64).toNat > memorySize

/-- A section that is not loaded: its kind has a start already, or it is
loadable and out of bounds. -/
def LoadRefused (elfEp : Word) (st : LoadState) (s : ElfSection) : Prop :=
  ∃ id, validSec s.name = some id ∧
    (st.elfStarts id ≠ 0 ∨ s.shType = shtProgbits ∧ OutOfBounds elfEp s)

/-- The copy of a loadable section ends behind `memory`. -/
def CopyOverruns (elfEp : Word) (s : ElfSection) : Prop :=
  validSec s.name ≠ none ∧ s.shType = shtProgbits ∧ 0 < s.shSize ∧
    ∃ d, s.data = some d ∧
      memorySize < (s.shAddr - elfEp.setWidth 64).toNat + d.buf.length

theorem loadSection_of_refused {elfEp : Word} {st : LoadState} {s : ElfSection}
    (h : LoadRefused elfEp st s) :
    ∃ e, loadSection elfEp st s = .error (.exit e (.left [])) := by
  obtain ⟨id, hid, hrefused⟩ := h
  rw [loadSection, hid]
  by_cases hstart : st.elfStarts id = 0
  · obtain ⟨htype, hbounds⟩ := hrefused.resolve_left (not_not.mpr hstart)
    exact ⟨.memoryBounds elfEp s.name s.shAddr s.shSize, by
      simp only [if_neg (not_not.mpr hstart), if_pos htype]
      exact if_pos hbounds⟩
  · exact ⟨.multipleSections s.name, if_pos hstart⟩

theorem loadSection_of_not_refused {elfEp : Word} {st : LoadState} {s : ElfSection}
    (h : ¬ LoadRefused elfEp st s) :
    CopyOverruns elfEp s ∧ loadSection elfEp st s = .error .undefinedBehaviour ∨
      ¬ CopyOverruns elfEp s ∧ ∃ st', loadSection elfEp st s = .ok st' := by
  cases hid : validSec s.name with
  | none =>
      refine Or.inr ⟨fun hover => hover.1 hid, st, ?_⟩
      rw [loadSection, hid]
  | some id =>
      obtain ⟨hstart, hbounds⟩ := not_or.mp (not_exists.mp h id ⟨hid, ·⟩)
      rw [loadSection, hid]
      simp only [if_neg hstart]
      by_cases htype : s.shType = shtProgbits
      · have hinside : ¬ OutOfBounds elfEp s := fun hout => hbounds ⟨htype, hout⟩
        rw [OutOfBounds] at hinside
        rw [if_pos htype, if_neg hinside, loadData]
        by_cases hsize : 0 < s.shSize
        · simp only [if_pos hsize]
          cases hdata : s.data with
          | none =>
              refine Or.inr ⟨?_, _, rfl⟩
              rintro ⟨-, -, -, d, hd, -⟩
              rw [hdata] at hd
              cases hd
          | some d =>
              by_cases hfits : (s.shAddr - elfEp.setWidth 64).toNat + d.buf.length ≤ memorySize
              · refine Or.inr ⟨?_, _, if_pos hfits⟩
                rintro ⟨-, -, -, d', hd', hover⟩
                rw [hdata] at hd'
                cases hd'
                omega
              · exact Or.inl ⟨⟨by simp [hid], htype, hsize, d, hdata, by omega⟩, if_neg hfits⟩
        · simp only [if_neg hsize]
          exact Or.inr ⟨fun hover => hsize hover.2.2.1, _, rfl⟩
      · rw [if_neg htype]
        exact Or.inr ⟨fun hover => htype hover.2.1, _, rfl⟩

/-- Loading exits where a section is refused. -/
theorem loadSections_exit {elfEp : Word} {ss : List ElfSection} {e : ConvError}
    {o : OutputState} (h : loadSections elfEp ss = .error (.exit e o)) :
    o = .left [] ∧ ∃ pre s post st, ss = pre ++ s :: post ∧
      loadSections elfEp pre = .ok st ∧ LoadRefused elfEp st s := by
  obtain ⟨pre, s, post, st, rfl, hpre, hs⟩ := foldlM_eq_error_iff.mp h
  by_cases hrefused : LoadRefused elfEp st s
  · obtain ⟨e', he'⟩ := loadSection_of_refused hrefused
    rw [he', Except.error.injEq, Stop.exit.injEq] at hs
    exact ⟨hs.2.symm, pre, s, post, st, rfl, hpre, hrefused⟩
  · rcases loadSection_of_not_refused hrefused with ⟨-, hundef⟩ | ⟨-, st', hok⟩
    · rw [hundef] at hs
      cases hs
    · rw [hok] at hs
      cases hs

/-! ### A real pass that stops -/

/-- The bookkeeping holds in front of every entry of a real pass. -/
theorem exists_bookkeeping_realBefore {g : Globals} {m : Memory} {before : List RelBlock}
    {id : OvlSection} {pre : List GElfRel} {st : RealState}
    (h : realBefore g m before id pre = .ok st) : ∃ prior blk, Bookkeeping prior blk st := by
  obtain ⟨st₀, hblocks, hentries⟩ := exists_of_bind_eq_ok h
  have hcount := (realBlocks_bookkeeping rfl hblocks).1
  obtain ⟨blk, hbk, -⟩ := realEntries_keeps (Bookkeeping.start rfl hcount) hentries
  exact ⟨_, blk, hbk⟩

/-- A real pass stops at an entry, in the state the entries before it have
left. -/
theorem realPass_eq_error_iff {g : Globals} {m : Memory} {bs : List RelBlock} {stop : Stop} :
    realPass g m bs = .error stop ↔
      ∃ before b after pre e post st, bs = before ++ b :: after ∧
        relList b.rels = pre ++ e :: post ∧ realBefore g m before b.id pre = .ok st ∧
        realEntry g b.id st e = .error stop := by
  rw [realPass, foldlM_eq_error_iff]
  constructor
  · rintro ⟨before, b, after, st₀, rfl, hbefore, hb⟩
    obtain ⟨pre, e, post, st, hsplit, hpre, he⟩ := foldlM_eq_error_iff.mp hb
    exact ⟨before, b, after, pre, e, post, st, rfl, hsplit,
      by rw [realBefore, hbefore]; exact hpre, he⟩
  · rintro ⟨before, b, after, pre, e, post, st, rfl, hsplit, hst, he⟩
    obtain ⟨st₀, hbefore, hpre⟩ := exists_of_bind_eq_ok hst
    exact ⟨before, b, after, st₀, rfl, hbefore,
      foldlM_eq_error_iff.mpr ⟨pre, e, post, st, hsplit, hpre, he⟩⟩

/-- An entry stops the real pass only by what its call returns: the
deletion always finds an entry of the block. -/
theorem realEntry_eq_error {g : Globals} {id : OvlSection} {st : RealState} {e : GElfRel}
    {prior blk : List Word} {stop : Stop} (hbk : Bookkeeping prior blk st)
    (hstop : realEntry g id st e = .error stop) :
    stop = .undefinedBehaviour ∧
        novlRelocDo g (relOff g e) e.type false st.reloc = none ∨
      stop = .exit (.processingRelocation e.type) (.left []) ∧
        ∃ reloc, novlRelocDo g (relOff g e) e.type false st.reloc = some (.error, reloc) := by
  cases hdo : novlRelocDo g (relOff g e) e.type false st.reloc with
  | none =>
      rw [realEntry, hdo] at hstop
      cases hstop
      exact Or.inl ⟨rfl, rfl⟩
  | some result =>
      obtain ⟨v, reloc⟩ := result
      by_cases hv : v = .error
      · subst hv
        rw [realEntry, hdo] at hstop
        cases hstop
        exact Or.inr ⟨rfl, reloc, rfl⟩
      · have hin := (handled_of_novlRelocDo hdo hv).1
        obtain ⟨m', hdecides⟩ := novlRelocDo_decides g e.type (relOff g e) st.reloc.memory
          st.reloc.hilo hin
        obtain ⟨hresult, hreloc⟩ := Prod.mk.inj (Option.some.inj (hdo.symm.trans hdecides))
        obtain ⟨st', hstep, -⟩ := realEntry_bookkeeping
          (loadWord st.reloc.memory (relOff g e)) hbk hdo hresult (by rw [hreloc]) hv
        rw [hstep] at hstop
        cases hstop

/-! ### A dry pass that reports an error -/

theorem dryEntry_error_iff {g : Globals} {st st' : DryState} {e : GElfRel}
    (hstep : dryEntry g st e = some st') :
    st'.error = true ↔ st.error = true ∨
      ∃ reloc, novlRelocDo g (relOff g e) e.type true st.reloc = some (.error, reloc) := by
  obtain ⟨v, reloc, hdo, hflag⟩ := dryEntry_call hstep
  rw [hflag, hdo]
  refine or_congr_right ⟨?_, ?_⟩
  · rintro rfl
    exact ⟨reloc, rfl⟩
  · rintro ⟨reloc', hresult⟩
    cases hresult
    rfl

/-- The dry pass reports an error exactly when a call returned one. -/
theorem dryPass_error_iff {g : Globals} {m : Memory} {bs : List RelBlock} {dry : DryState}
    (hdry : dryPass g m bs = some dry) :
    dry.error = true ↔
      ∃ before b after pre e post st reloc, bs = before ++ b :: after ∧
        relList b.rels = pre ++ e :: post ∧ dryBefore g m before pre = some st ∧
        novlRelocDo g (relOff g e) e.type true st.reloc = some (.error, reloc) := by
  have hblock (st : DryState) (b : RelBlock) (st' : DryState) (hb : dryBlock g st b = some st') :=
    foldlM_flag_iff DryState.error (fun _ _ _ => dryEntry_error_iff) hb
  rw [foldlM_flag_iff DryState.error hblock hdry]
  simp only [Bool.false_eq_true, false_or]
  constructor
  · rintro ⟨before, b, after, st₀, rfl, hbefore, pre, e, post, st, hsplit, hpre, reloc, he⟩
    exact ⟨before, b, after, pre, e, post, st, reloc, rfl, hsplit,
      by rw [dryBefore, hbefore]; exact hpre, he⟩
  · rintro ⟨before, b, after, pre, e, post, st, reloc, rfl, hsplit, hst, he⟩
    obtain ⟨st₀, hbefore, hpre⟩ := Option.bind_eq_some_iff.mp hst
    exact ⟨before, b, after, st₀, rfl, hbefore, pre, e, post, st, hsplit, hpre, reloc, he⟩

/-! ### The stages of a conversion -/

/-- The globals once the sections are loaded. -/
def LoadState.globals (ld : LoadState) (elfEp : Word) : Globals :=
  ⟨elfEp, ld.elfStarts, fun _ => 0, ld.sizes⟩

/-- The globals once the overlay addresses are fixed. -/
def LoadState.globalsAt (ld : LoadState) (elfEp base : Word) (pred : ℤ) : Globals :=
  { ld.globals elfEp with ovlStarts := overlayStarts base ld.sizes pred }

/-- Where a conversion can stop once the sections are loaded. -/
inductive ImageStop (elfEp base : Word) (ld : LoadState) (bs : List RelBlock) : Stop → Prop
  | dryRead (hdry : dryPass (ld.globals elfEp) ld.memory bs = none) :
      ImageStop elfEp base ld bs .undefinedBehaviour
  | dryError {dry : DryState} (hdry : dryPass (ld.globals elfEp) ld.memory bs = some dry)
      (herror : dry.error = true) :
      ImageStop elfEp base ld bs (.exit .relocations (.left []))
  | realEntry {dry : DryState} {stop : Stop}
      (hdry : dryPass (ld.globals elfEp) ld.memory bs = some dry) (herror : dry.error = false)
      (hreal : realPass (ld.globalsAt elfEp base dry.nintyCountPred) ld.memory bs =
        .error stop) :
      ImageStop elfEp base ld bs stop
  | counts {dry : DryState} {real : RealState}
      (hdry : dryPass (ld.globals elfEp) ld.memory bs = some dry) (herror : dry.error = false)
      (hreal : realPass (ld.globalsAt elfEp base dry.nintyCountPred) ld.memory bs = .ok real)
      (hcounts : dry.nintyCountPred ≠ real.nintyCountReal) :
      ImageStop elfEp base ld bs
        (.exit (.countPrediction dry.nintyCountPred real.nintyCountReal) .removed)
  | write {dry : DryState} {real : RealState} {stop : Stop}
      (hdry : dryPass (ld.globals elfEp) ld.memory bs = some dry) (herror : dry.error = false)
      (hreal : realPass (ld.globalsAt elfEp base dry.nintyCountPred) ld.memory bs = .ok real)
      (hcounts : dry.nintyCountPred = real.nintyCountReal)
      (hwrite : writeOverlay base (overlayStarts base ld.sizes dry.nintyCountPred) ld.sizes
        real.nintyCountReal real.nintyRelocs
        (sectionContents (ld.globalsAt elfEp base dry.nintyCountPred) real.reloc.memory) =
          .error stop) :
      ImageStop elfEp base ld bs stop

theorem convertImage_eq_error_iff {elfEp base : Word} {ld : LoadState} {bs : List RelBlock}
    {stop : Stop} :
    convertImage elfEp ld bs base = .error stop ↔ ImageStop elfEp base ld bs stop := by
  constructor
  · intro h
    rw [convertImage] at h
    simp only at h
    split at h
    · rename_i hdry
      cases h
      exact .dryRead hdry
    · rename_i dry hdry
      split at h
      · rename_i herror
        cases h
        exact .dryError hdry herror
      · rename_i herror
        rw [Bool.not_eq_true] at herror
        split at h
        · rename_i hreal
          cases h
          exact .realEntry hdry herror hreal
        · rename_i real hreal
          split at h
          · rename_i hcounts
            cases h
            exact .counts hdry herror hreal hcounts
          · rename_i hcounts
            split at h
            · rename_i hwrite
              cases h
              exact .write hdry herror hreal (not_not.mp hcounts) hwrite
            · cases h
  · intro h
    rw [convertImage]
    cases h with
    | dryRead hdry =>
        rw [LoadState.globals] at hdry
        simp only [hdry]
    | dryError hdry herror =>
        rw [LoadState.globals] at hdry
        simp only [hdry, herror, if_true]
    | realEntry hdry herror hreal =>
        rw [LoadState.globals] at hdry
        rw [LoadState.globalsAt, LoadState.globals] at hreal
        simp only [hdry, herror, Bool.false_eq_true, if_false, hreal]
    | counts hdry herror hreal hcounts =>
        rw [LoadState.globals] at hdry
        rw [LoadState.globalsAt, LoadState.globals] at hreal
        simp only [hdry, herror, Bool.false_eq_true, if_false, hreal]
        exact if_pos hcounts
    | write hdry herror hreal hcounts hwrite =>
        rw [LoadState.globals] at hdry
        rw [LoadState.globalsAt, LoadState.globals] at hreal hwrite
        simp only [hdry, herror, Bool.false_eq_true, if_false, hreal, hwrite]
        exact if_neg (not_not.mpr hcounts)

/-! ### The output path -/

/-- A failed layout check removes the output. -/
theorem writeOverlay_exit {base : Word} {starts sizes : OvlSection → Word} {count : ℤ}
    {relocs : List Word} {g : Globals} {m : Memory} {e : ConvError} {o : OutputState}
    (h : writeOverlay base starts sizes count relocs (sectionContents g m) = .error (.exit e o)) :
    o = .removed := by
  rw [writeOverlay] at h
  split at h
  · cases h
    rfl
  · split at h
    · rename_i hrun
      cases h
      obtain ⟨pre, i, post, f, -, -, hi⟩ := foldlM_eq_error_iff.mp hrun
      rw [writeSection] at hi
      split at hi
      · cases hi
        rfl
      · rw [sectionContents] at hi
        split at hi
        · rename_i hcontents
          split at hcontents
          · cases hcontents
          · cases hcontents
            cases hi
        · cases hi
    · split at h
      · cases h
        rfl
      · cases h

/-- The output file has been opened. -/
def OutputOpened (elf : Elf) : Prop := elf.kind = .elf ∧ elf.eMachine = emMips

/-- No call of the dry pass returns an error. -/
def DryClean (g : Globals) (m : Memory) (bs : List RelBlock) : Prop :=
  ∀ before b after pre e post st reloc, bs = before ++ b :: after →
    relList b.rels = pre ++ e :: post → dryBefore g m before pre = some st →
    novlRelocDo g (relOff g e) e.type true st.reloc ≠ some (.error, reloc)

/-- No call of the real pass returns an error. -/
def RealClean (g : Globals) (m : Memory) (bs : List RelBlock) : Prop :=
  ∀ before b after pre e post st reloc, bs = before ++ b :: after →
    relList b.rels = pre ++ e :: post → realBefore g m before b.id pre = .ok st →
    novlRelocDo g (relOff g e) e.type false st.reloc ≠ some (.error, reloc)

/-- The conversion meets nothing in the input that it refuses: no section
is refused by the loading loop, and no call in either pass returns an
error. -/
structure NothingRefused (elf : Elf) (base : Word) : Prop where
  load : ∀ pre s post st, elf.sections = pre ++ s :: post →
    loadSections (elf.eEntry.setWidth 32) pre = .ok st →
    ¬ LoadRefused (elf.eEntry.setWidth 32) st s
  dry : ∀ ld dry, loadSections (elf.eEntry.setWidth 32) elf.sections = .ok ld →
    dryPass (ld.globals (elf.eEntry.setWidth 32)) ld.memory (relBlocks elf.sections) = some dry →
    DryClean (ld.globals (elf.eEntry.setWidth 32)) ld.memory (relBlocks elf.sections)
  real : ∀ ld dry, loadSections (elf.eEntry.setWidth 32) elf.sections = .ok ld →
    dryPass (ld.globals (elf.eEntry.setWidth 32)) ld.memory (relBlocks elf.sections) = some dry →
    RealClean (ld.globalsAt (elf.eEntry.setWidth 32) base dry.nintyCountPred) ld.memory
      (relBlocks elf.sections)

theorem novlConv_eq_failure_iff {elf : Elf} {base : Word} {e : ConvError} {o : OutputState} :
    novlConv elf base = .failure e o ↔ convert elf base = .error (.exit e o) := by
  rw [novlConv]
  cases convert elf base with
  | ok c => simp
  | error stop => cases stop <;> simp

/-- Once the output is open, a conversion stops while the sections are
loaded, or later. -/
theorem convert_eq_error_iff {elf : Elf} {base : Word} {stop : Stop} (hopen : OutputOpened elf) :
    convert elf base = .error stop ↔
      loadSections (elf.eEntry.setWidth 32) elf.sections = .error stop ∨
      ∃ ld, loadSections (elf.eEntry.setWidth 32) elf.sections = .ok ld ∧
        ImageStop (elf.eEntry.setWidth 32) base ld (relBlocks elf.sections) stop := by
  simp only [← convertImage_eq_error_iff]
  rw [convert, hopen.1]
  simp only [hopen.2, ne_eq, not_true_eq_false, if_false]
  cases loadSections (elf.eEntry.setWidth 32) elf.sections with
  | error e => simp
  | ok ld => simp

/-- A failed conversion has removed the output it had opened, exactly when
nothing in the input was refused. -/
theorem novlConv_output_removed_iff (elf : Elf) (base : Word) :
    (OutputOpened elf → ∀ e o, novlConv elf base = .failure e o → o = .removed) ↔
      (OutputOpened elf → NothingRefused elf base) := by
  refine forall_congr' fun hopen => ?_
  simp only [novlConv_eq_failure_iff, convert_eq_error_iff hopen]
  constructor
  · intro hremoved
    have hleft {e : ConvError} (hstop : loadSections (elf.eEntry.setWidth 32) elf.sections =
          .error (.exit e (.left [])) ∨
        ∃ ld, loadSections (elf.eEntry.setWidth 32) elf.sections = .ok ld ∧
          ImageStop (elf.eEntry.setWidth 32) base ld (relBlocks elf.sections)
            (.exit e (.left []))) : False := by
      cases hremoved e _ hstop
    refine ⟨?_, ?_, ?_⟩
    · intro pre s post st hsplit hpre hrefused
      obtain ⟨e, he⟩ := loadSection_of_refused hrefused
      exact hleft (Or.inl (foldlM_eq_error_iff.mpr ⟨pre, s, post, st, hsplit, hpre, he⟩))
    · intro ld dry hload hdry before b after pre e post st reloc hbs hsplit hst hdo
      have herror := (dryPass_error_iff hdry).mpr
        ⟨before, b, after, pre, e, post, st, reloc, hbs, hsplit, hst, hdo⟩
      exact hleft (Or.inr ⟨ld, hload, .dryError hdry herror⟩)
    · intro ld dry hload hdry before b after pre e post st reloc hbs hsplit hst hdo
      cases herror : dry.error with
      | true => exact hleft (Or.inr ⟨ld, hload, .dryError hdry herror⟩)
      | false =>
          have hentry : realEntry (ld.globalsAt (elf.eEntry.setWidth 32) base dry.nintyCountPred)
              b.id st e = .error (.exit (.processingRelocation e.type) (.left [])) := by
            rw [realEntry, hdo]
          exact hleft (Or.inr ⟨ld, hload, .realEntry hdry herror (realPass_eq_error_iff.mpr
            ⟨before, b, after, pre, e, post, st, hbs, hsplit, hst, hentry⟩)⟩)
  · rintro hpass e o (hload | ⟨ld, hload, himage⟩)
    · obtain ⟨-, pre, s, post, st, hsplit, hpre, hrefused⟩ := loadSections_exit hload
      exact absurd hrefused (hpass.load pre s post st hsplit hpre)
    · cases himage with
      | dryError hdry herror =>
          obtain ⟨before, b, after, pre, e, post, st, reloc, hbs, hsplit, hst, hdo⟩ :=
            (dryPass_error_iff hdry).mp herror
          exact absurd hdo
            (hpass.dry ld _ hload hdry before b after pre e post st reloc hbs hsplit hst)
      | realEntry hdry herror hreal =>
          obtain ⟨before, b, after, pre, e, post, st, hbs, hsplit, hst, he⟩ :=
            realPass_eq_error_iff.mp hreal
          obtain ⟨prior, blk, hbk⟩ := exists_bookkeeping_realBefore hst
          rcases realEntry_eq_error hbk he with ⟨hundef, -⟩ | ⟨-, reloc, hdo⟩
          · cases hundef
          · exact absurd hdo
              (hpass.real ld _ hload hdry before b after pre e post st reloc hbs hsplit hst)
      | counts => rfl
      | write hdry herror hreal hcounts hwrite => exact writeOverlay_exit hwrite

/-- A `.text` section with an entry of a type that has no handler. -/
def unhandledElf : Elf := sampleElf mixedText [⟨0x80000000, 7⟩] []

/-- The dry pass reports the entry, and the empty output stays. -/
theorem unhandledElf_output_left :
    OutputOpened unhandledElf ∧
      ¬ ∀ e o, novlConv unhandledElf 0x80800000 = .failure e o → o = .removed := by
  refine ⟨⟨rfl, rfl⟩, fun hremoved => ?_⟩
  have hstop : novlConv unhandledElf 0x80800000 = .failure .relocations (.left []) := by
    decide +kernel
  exact absurd (hremoved _ _ hstop) (by decide)

end Novl
