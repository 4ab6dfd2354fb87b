import Novl.Conversion
import Novl.ConversionMessages

/-!
Reports of failed conversions.

An error is reported in three places: in the handlers, where a pass gets
an entry in error, and in front of an `exit`. A conversion that fails has
passed one of them, and one that succeeds none. A call for a report is
undefined only if an entry in error has a type without a name.
-/

namespace Novl

open ByteMemory FallibleRun LoggedRun

/-- A message that reports no error, and has its text. -/
def ConvMesg.Plain (m : ConvMesg) : Prop := m.kind ≠ .error ∧ ∃ text, m.text = .known text

theorem ConvMesg.plain_of {kind : ConvMesgKind} (hkind : kind ≠ .error) (text : List Char) :
    ConvMesg.Plain ⟨kind, .known text⟩ :=
  ⟨hkind, text, rfl⟩

theorem ConvMesg.Plain.ne {m : ConvMesg} (h : m.Plain) {text : MesgText}
    (hknown : ∀ t, text ≠ .known t) : m.text ≠ text := by
  obtain ⟨-, t, ht⟩ := h
  rw [ht]
  exact (hknown t).symm

/-! ### Messages on the way -/

theorem acceptedMesgs_plain {filename : List Char} {elfEp base : Word} :
    ∀ m ∈ acceptedMesgs filename elfEp base, m.Plain := by
  simp [acceptedMesgs, ConvMesg.Plain]

theorem loadMesgs_plain {elfEp : Word} {ss : List ElfSection} :
    ∀ m ∈ loadMesgs elfEp ss, m.Plain := by
  intro m hm
  obtain ⟨pre, s, post, st, -, -, hm⟩ := mem_runLog_iff.mp hm
  rw [loadSectionMesgs] at hm
  split at hm
  · split_ifs at hm
    · obtain rfl := List.mem_singleton.mp hm
      exact ConvMesg.plain_of (by decide) _
    · cases hm
  · cases hm

theorem writeMesgs_plain {base : Word} {starts sizes : OvlSection → Word} {count : ℤ}
    {relocs : List Word} {contents : OvlSection → Except Stop (List Byte)} :
    ∀ m ∈ writeMesgs base starts sizes count relocs contents, m.Plain := by
  intro m hm
  rw [writeMesgs] at hm
  rcases List.mem_append.mp hm with hm | hm
  · simp only [List.mem_cons, List.not_mem_nil, or_false] at hm
    rcases hm with rfl | rfl | rfl | rfl <;> exact ConvMesg.plain_of (by decide) _
  · split_ifs at hm
    · cases hm
    · obtain ⟨pre, i, post, f, -, -, hm⟩ := mem_runLog_iff.mp hm
      rw [writeSectionMesgs] at hm
      split at hm
      · obtain rfl := List.mem_singleton.mp hm
        exact ConvMesg.plain_of (by decide) _
      · cases hm

/-! ### Entries in error -/

/-- A pass gets to the entry, and its call there returns an error. -/
inductive EntryInError (elf : Elf) (base : Word) (e : GElfRel) : Prop
  | dry {ld : LoadState} {before after : List RelBlock} {b : RelBlock} {pre post : List GElfRel}
      {st : DryState} {reloc : RelocState}
      (hload : loadSections (elf.eEntry.setWidth 32) elf.sections = .ok ld)
      (hbs : relBlocks elf.sections = before ++ b :: after)
      (hsplit : relList b.rels = pre ++ e :: post)
      (hst : dryBefore (ld.globals (elf.eEntry.setWidth 32)) ld.memory before pre = some st)
      (hdo : novlRelocDo (ld.globals (elf.eEntry.setWidth 32))
        (relOff (ld.globals (elf.eEntry.setWidth 32)) e) e.type true st.reloc =
          some (.error, reloc))
  | real {ld : LoadState} {dry : DryState} {before after : List RelBlock} {b : RelBlock}
      {pre post : List GElfRel} {st : RealState} {reloc : RelocState}
      (hload : loadSections (elf.eEntry.setWidth 32) elf.sections = .ok ld)
      (hdry : dryPass (ld.globals (elf.eEntry.setWidth 32)) ld.memory (relBlocks elf.sections) =
        some dry)
      (herror : dry.error = false)
      (hbs : relBlocks elf.sections = before ++ b :: after)
      (hsplit : relList b.rels = pre ++ e :: post)
      (hst : realBefore (ld.globalsAt (elf.eEntry.setWidth 32) base dry.nintyCountPred) ld.memory
        before b.id pre = .ok st)
      (hdo : novlRelocDo (ld.globalsAt (elf.eEntry.setWidth 32) base dry.nintyCountPred)
        (relOff (ld.globalsAt (elf.eEntry.setWidth 32) base dry.nintyCountPred) e) e.type false
        st.reloc = some (.error, reloc))

/-- Of the sections only what is loaded of them and the blocks matter. -/
theorem EntryInError.of_eq {elf elf' : Elf} {base : Word} {e : GElfRel}
    (hentry : elf.eEntry = elf'.eEntry)
    (hload : ∀ ep, loadSections ep elf.sections = loadSections ep elf'.sections)
    (hblocks : relBlocks elf.sections = relBlocks elf'.sections) (h : EntryInError elf base e) :
    EntryInError elf' base e := by
  cases h with
  | dry hok hbs hsplit hst hdo =>
      rw [hload, hentry] at hok
      rw [hblocks] at hbs
      rw [hentry] at hst hdo
      exact .dry hok hbs hsplit hst hdo
  | real hok hdry herror hbs hsplit hst hdo =>
      rw [hload, hentry] at hok
      rw [hblocks] at hdry hbs
      rw [hentry] at hdry hst hdo
      exact .real hok hdry herror hbs hsplit hst hdo

/-- An entry in error comes behind the loading of the sections. -/
theorem EntryInError.loaded {elf : Elf} {base : Word} {e : GElfRel} (h : EntryInError elf base e) :
    ∃ ld, loadSections (elf.eEntry.setWidth 32) elf.sections = .ok ld := by
  rcases h with ⟨hload, -⟩ | ⟨hload, -⟩
  · exact ⟨_, hload⟩
  · exact ⟨_, hload⟩

section Progress

variable {p : ConvMesg → Prop} {q : GElfRel → Prop} {elf : Elf} {base : Word}

/-- Of all that is said once the sections are loaded, only what is said of
the entries can be an error, or be without a text. -/
theorem exists_mem_imageMesgs (hplain : ∀ m : ConvMesg, m.Plain → ¬ p m)
    (hentry : ∀ g dryrun st e, (∃ m ∈ entryMesgs g dryrun st e, p m) ↔
      (∃ reloc, novlRelocDo g (relOff g e) e.type dryrun st = some (.error, reloc)) ∧ q e)
    {ld : LoadState} (hload : loadSections (elf.eEntry.setWidth 32) elf.sections = .ok ld) :
    (∃ m ∈ imageMesgs (elf.eEntry.setWidth 32) ld elf.sections base, p m) ↔
      ∃ e, EntryInError elf base e ∧ q e := by
  have hheading (text : List Char) : ¬ p ⟨.debug, .known text⟩ :=
    hplain _ (ConvMesg.plain_of (by decide) text)
  constructor
  · rintro ⟨m, hm, hpm⟩
    simp only [imageMesgs] at hm
    rcases List.mem_append.mp hm with hm | hm
    · obtain ⟨before, b, after, pre, e, post, st, hbs, hsplit, hst, hm⟩ :=
        (exists_mem_dryMesgs hheading).mp ⟨m, hm, hpm⟩
      obtain ⟨⟨reloc, hdo⟩, hq⟩ := (hentry _ _ _ _).mp hm
      exact ⟨e, .dry hload hbs hsplit hst hdo, hq⟩
    cases hdry : dryPass (ld.globals (elf.eEntry.setWidth 32)) ld.memory
        (relBlocks elf.sections) with
    | none =>
        simp only [hdry] at hm
        cases hm
    | some dry =>
        simp only [hdry] at hm
        split_ifs at hm with herror
        · cases hm
        rw [Bool.not_eq_true] at herror
        rcases List.mem_append.mp hm with hm | hm
        · obtain ⟨before, b, after, pre, e, post, st, hbs, hsplit, hst, hm⟩ :=
            (exists_mem_realMesgs hheading).mp ⟨m, hm, hpm⟩
          obtain ⟨⟨reloc, hdo⟩, hq⟩ := (hentry _ _ _ _).mp hm
          exact ⟨e, .real hload hdry herror hbs hsplit hst hdo, hq⟩
        · split at hm
          · cases hm
          · split_ifs at hm
            · cases hm
            · exact absurd hpm (hplain m (writeMesgs_plain m hm))
  · rintro ⟨e, herror, hq⟩
    simp only [imageMesgs]
    cases herror with
    | dry hload' hbs hsplit hst hdo =>
        obtain rfl := Except.ok.inj (hload.symm.trans hload')
        obtain ⟨m, hm, hpm⟩ := (exists_mem_dryMesgs hheading).mpr
          ⟨_, _, _, _, e, _, _, hbs, hsplit, hst, (hentry _ _ _ _).mpr ⟨⟨_, hdo⟩, hq⟩⟩
        exact ⟨m, List.mem_append_left _ hm, hpm⟩
    | real hload' hdry hclean hbs hsplit hst hdo =>
        obtain rfl := Except.ok.inj (hload.symm.trans hload')
        obtain ⟨m, hm, hpm⟩ := (exists_mem_realMesgs hheading).mpr
          ⟨_, _, _, _, e, _, _, hbs, hsplit, hst, (hentry _ _ _ _).mpr ⟨⟨_, hdo⟩, hq⟩⟩
        refine ⟨m, List.mem_append_right _ ?_, hpm⟩
        simp only [hdry, hclean]
        exact List.mem_append_left _ hm

theorem exists_mem_progressMesgs (hplain : ∀ m : ConvMesg, m.Plain → ¬ p m)
    (hentry : ∀ g dryrun st e, (∃ m ∈ entryMesgs g dryrun st e, p m) ↔
      (∃ reloc, novlRelocDo g (relOff g e) e.type dryrun st = some (.error, reloc)) ∧ q e)
    {filename : List Char} :
    (∃ m ∈ progressMesgs filename elf base, p m) ↔
      OutputOpened elf ∧ ∃ e, EntryInError elf base e ∧ q e := by
  constructor
  · rintro ⟨m, hm, hpm⟩
    rw [progressMesgs] at hm
    split_ifs at hm with hopen
    · refine ⟨hopen, ?_⟩
      rcases List.mem_append.mp hm with hm | hm
      · rcases List.mem_append.mp hm with hm | hm
        · exact absurd hpm (hplain m (acceptedMesgs_plain m hm))
        · exact absurd hpm (hplain m (loadMesgs_plain m hm))
      cases hload : loadSections (elf.eEntry.setWidth 32) elf.sections with
      | error stop =>
          simp only [hload] at hm
          cases hm
      | ok ld =>
          simp only [hload] at hm
          exact (exists_mem_imageMesgs hplain hentry hload).mp ⟨m, hm, hpm⟩
    · cases hm
  · rintro ⟨hopen, e, herror, hq⟩
    have hmips : elf.kind = .elf ∧ elf.eMachine = emMips := hopen
    obtain ⟨ld, hload⟩ := herror.loaded
    obtain ⟨m, hm, hpm⟩ := (exists_mem_imageMesgs hplain hentry hload).mpr ⟨e, herror, hq⟩
    rw [progressMesgs]
    simp only [if_pos hmips]
    refine ⟨m, List.mem_append_right _ ?_, hpm⟩
    simp only [hload]
    exact hm

end Progress

/-! ### Exits -/

/-- Its report has an argument of another type than the format says. -/
def ConvError.Mismatched : ConvError → Prop
  | .memoryBounds _ _ _ _ | .bssPrediction _ _ | .sectionArrangement _ _ _ => True
  | _ => False

/-- The error is reported where the program exits. -/
def ConvError.Reported (e : ConvError) : Prop :=
  ∃ text, exitMesgs e = [⟨.error, text⟩] ∧ text ≠ .noString ∧ (text = .mismatched ↔ e.Mismatched)

theorem ConvError.reported_of_known {e : ConvError} {text : List Char}
    (h : exitMesgs e = [⟨.error, .known text⟩]) (hmatched : ¬ e.Mismatched) : e.Reported :=
  ⟨.known text, h, by simp, by simp [hmatched]⟩

theorem ConvError.reported_of_mismatched {e : ConvError} (h : exitMesgs e = [⟨.error, .mismatched⟩])
    (hmismatched : e.Mismatched) : e.Reported :=
  ⟨.mismatched, h, by simp, by simp [hmismatched]⟩

theorem loadSections_exit_reported {elfEp : Word} {ss : List ElfSection} {e : ConvError}
    {o : OutputState} (h : loadSections elfEp ss = .error (.exit e o)) : e.Reported := by
  obtain ⟨pre, s, post, st, -, -, hs⟩ := foldlM_eq_error_iff.mp h
  rw [loadSection] at hs
  split at hs
  · cases hs
  split_ifs at hs
  · cases hs
    exact ConvError.reported_of_known rfl id
  · cases hs
    exact ConvError.reported_of_mismatched rfl trivial
  · simp only [loadData] at hs
    split at hs
    · cases hs
    · split_ifs at hs
      cases hs

/-- The sections that were written, one behind the other. -/
theorem writeSections_ok {base : Word} {starts : OvlSection → Word} {g : Globals} {m : Memory}
    {f f' : SeekFile}
    (h : [OvlSection.text, .data, .rodata].foldlM (writeSection base starts (sectionContents g m))
      f = .ok f') :
    SizesFit g.sizes ∧ f'.pos = f.pos + (headerAddr g.sizes).toNat := by
  rw [List.foldlM_cons] at h
  obtain ⟨f₁, htext, h⟩ := exists_of_bind_eq_ok h
  rw [List.foldlM_cons] at h
  obtain ⟨f₂, hdata, h⟩ := exists_of_bind_eq_ok h
  rw [List.foldlM_cons] at h
  obtain ⟨f₃, hrodata, h⟩ := exists_of_bind_eq_ok h
  cases h
  obtain ⟨t, ht, rfl⟩ := writeSection_ok htext
  obtain ⟨d, hd, rfl⟩ := writeSection_ok hdata
  obtain ⟨r, hr, rfl⟩ := writeSection_ok hrodata
  obtain ⟨rfl, hfitt⟩ := sectionContents_ok ht
  obtain ⟨rfl, hfitd⟩ := sectionContents_ok hd
  obtain ⟨rfl, hfitr⟩ := sectionContents_ok hr
  have hfit : SizesFit g.sizes := by
    intro i hi
    cases i with
    | bss => exact absurd rfl hi
    | text | data | rodata => omega
  refine ⟨hfit, ?_⟩
  rw [hfit.toNat_headerAddr]
  simp [readBytes, Nat.add_assoc]

/-- Of the three layout checks the last one never fails: what is written
has the length of the sections. -/
theorem writeOverlay_exit_reported {base : Word} {starts : OvlSection → Word} {count : ℤ}
    {relocs : List Word} {g : Globals} {m : Memory} {e : ConvError} {o : OutputState}
    (h : writeOverlay base starts g.sizes count relocs (sectionContents g m) =
      .error (.exit e o)) : e.Reported := by
  rw [writeOverlay] at h
  split at h
  · cases h
    exact ConvError.reported_of_mismatched rfl trivial
  · split at h
    · rename_i hrun
      cases h
      obtain ⟨pre, i, post, f, -, -, hi⟩ := foldlM_eq_error_iff.mp hrun
      rw [writeSection] at hi
      split at hi
      · cases hi
        exact ConvError.reported_of_mismatched rfl trivial
      · split at hi
        · rename_i hcontents
          cases hi
          rw [sectionContents] at hcontents
          split_ifs at hcontents
          cases hcontents
        · cases hi
    · rename_i hsections
      have hplace := (writeSections_ok hsections).2
      rw [SeekFile.seek_pos, Nat.zero_add] at hplace
      rw [if_neg (not_not.mpr hplace.symm)] at h
      cases h

/-- An exit reports its error, or comes behind an entry in error and adds
nothing to the report of it. -/
theorem convert_exit_reported {elf : Elf} {base : Word} {e : ConvError} {o : OutputState}
    (h : convert elf base = .error (.exit e o)) :
    (OutputOpened elf ∧ ∃ rel, EntryInError elf base rel) ∧ exitMesgs e = [] ∨ e.Reported := by
  by_cases hopen : OutputOpened elf
  · rcases (convert_eq_error_iff hopen).mp h with hload | ⟨ld, hload, hstop⟩
    · exact Or.inr (loadSections_exit_reported hload)
    · cases hstop with
      | dryError hdry herror =>
          obtain ⟨before, b, after, pre, rel, post, st, reloc, hbs, hsplit, hst, hdo⟩ :=
            (dryPass_error_iff hdry).mp herror
          exact Or.inl ⟨⟨hopen, rel, .dry hload hbs hsplit hst hdo⟩, rfl⟩
      | realEntry hdry herror hreal =>
          obtain ⟨before, b, after, pre, rel, post, st, hbs, hsplit, hst, hentry⟩ :=
            realPass_eq_error_iff.mp hreal
          obtain ⟨prior, blk, hbk⟩ := exists_bookkeeping_realBefore hst
          rcases realEntry_eq_error hbk hentry with ⟨hundef, -⟩ | ⟨hexit, reloc, hdo⟩
          · cases hundef
          · cases hexit
            exact Or.inl ⟨⟨hopen, rel, .real hload hdry herror hbs hsplit hst hdo⟩, rfl⟩
      | counts => exact Or.inr (ConvError.reported_of_known rfl id)
      | write hdry herror hreal hcounts hwrite =>
          exact Or.inr (writeOverlay_exit_reported (g := LoadState.globalsAt ld _ base _) hwrite)
  · refine Or.inr ?_
    rw [convert] at h
    split at h
    · cases h
      exact ConvError.reported_of_known rfl id
    · cases h
      exact ConvError.reported_of_known rfl id
    · rename_i hkind
      split_ifs at h with hmachine
      · cases h
        exact ConvError.reported_of_known rfl id
      · exact absurd ⟨hkind, not_not.mp hmachine⟩ hopen

section Whole

variable {filename : List Char} {elf : Elf} {base : Word}

theorem strType_eq_none_iff {type : Word} : strType type = none ↔ 51 ≤ type.toNat := by
  rw [strType, Option.map_eq_none_iff, novlStrReloc, List.getElem?_eq_none_iff]
  rfl

theorem exists_noString_progressMesgs :
    (∃ m ∈ progressMesgs filename elf base, m.text = .noString) ↔
      OutputOpened elf ∧ ∃ e, EntryInError elf base e ∧ 51 ≤ e.type.toNat := by
  have hentry (g : Globals) (dryrun : Bool) (st : RelocState) (e : GElfRel) :
      (∃ m ∈ entryMesgs g dryrun st e, m.text = .noString) ↔
        (∃ reloc, novlRelocDo g (relOff g e) e.type dryrun st = some (.error, reloc)) ∧
          51 ≤ e.type.toNat := by
    rw [entryMesgs_noString_iff, strType_eq_none_iff]
  exact exists_mem_progressMesgs (fun m hplain => hplain.ne (by simp)) hentry

theorem not_mismatched_progressMesgs :
    ¬ ∃ m ∈ progressMesgs filename elf base, m.text = .mismatched := by
  have hentry (g : Globals) (dryrun : Bool) (st : RelocState) (e : GElfRel) :
      (∃ m ∈ entryMesgs g dryrun st e, m.text = .mismatched) ↔
        (∃ reloc, novlRelocDo g (relOff g e) e.type dryrun st = some (.error, reloc)) ∧ False := by
    rw [and_false, iff_false]
    rintro ⟨m, hm, htext⟩
    exact entryMesgs_not_mismatched hm htext
  rw [exists_mem_progressMesgs (fun m hplain => hplain.ne (by simp)) hentry]
  simp

/-- What a report that stands before an exit has for a text. -/
theorem stopMesgs_text {m : ConvMesg} (hm : m ∈ stopMesgs (convert elf base)) :
    ∃ e o, convert elf base = .error (.exit e o) ∧ m.text ≠ .noString ∧
      (m.text = .mismatched ↔ e.Mismatched) := by
  cases hrun : convert elf base with
  | ok c =>
      rw [hrun] at hm
      cases hm
  | error stop =>
      rw [hrun] at hm
      cases stop with
      | undefinedBehaviour => cases hm
      | exit e o =>
          rw [stopMesgs] at hm
          rcases convert_exit_reported hrun with ⟨-, hexit⟩ | ⟨text, hexit, htext⟩
          · rw [hexit] at hm
            cases hm
          · rw [hexit] at hm
            rw [List.mem_singleton.mp hm]
            exact ⟨e, o, rfl, htext⟩

/-- The call for a message of a conversion is undefined exactly if a pass
gets to an entry, returns an error for it, and there is no name for its
type. Its text is undefined, and the call is not, exactly if the conversion
exits with one of the errors that print an address of 64 bits with
`%08X`. -/
theorem convertMesgs_textless_iff (filename : List Char) (elf : Elf) (base : Word) :
    ((∃ m ∈ convertMesgs filename elf base, m.text = .noString) ↔
      OutputOpened elf ∧ ∃ e, EntryInError elf base e ∧ 51 ≤ e.type.toNat) ∧
    ((∃ m ∈ convertMesgs filename elf base, m.text = .mismatched) ↔
      ∃ e o, convert elf base = .error (.exit e o) ∧ e.Mismatched) := by
  rw [← exists_noString_progressMesgs]
  refine ⟨⟨?_, ?_⟩, ?_, ?_⟩
  · rintro ⟨m, hm, htext⟩
    refine ⟨m, (List.mem_append.mp hm).resolve_right fun h => ?_, htext⟩
    obtain ⟨-, -, -, hdefined, -⟩ := stopMesgs_text h
    exact hdefined htext
  · rintro ⟨m, hm, htext⟩
    exact ⟨m, List.mem_append_left _ hm, htext⟩
  · rintro ⟨m, hm, htext⟩
    rcases List.mem_append.mp hm with hm | hm
    · exact absurd ⟨m, hm, htext⟩ not_mismatched_progressMesgs
    · obtain ⟨e, o, hrun, -, hiff⟩ := stopMesgs_text hm
      exact ⟨e, o, hrun, hiff.mp htext⟩
  · rintro ⟨e, o, hrun, hmismatched⟩
    rw [convertMesgs, hrun]
    rcases convert_exit_reported hrun with ⟨-, hexit⟩ | ⟨text, hexit, -, hiff⟩
    · cases e <;> first | exact absurd hmismatched id | cases hexit
    · refine ⟨⟨.error, text⟩, List.mem_append_right _ ?_, hiff.mpr hmismatched⟩
      rw [stopMesgs, hexit]
      exact List.mem_singleton_self _

/-! The type 248 has no handler, and no name. -/

example : ∃ m ∈ convertMesgs [] (sampleElf mixedText [⟨0x80000000, 248⟩] []) 0x80800000,
    m.text = .noString := by
  decide +kernel

/-- A message is undefined exactly where an entry in error has a type
without a name. -/
theorem any_isUndefined_iff : (convertMesgs filename elf base).any ConvMesg.isUndefined = true ↔
    OutputOpened elf ∧ ∃ e, EntryInError elf base e ∧ 51 ≤ e.type.toNat := by
  rw [← (convertMesgs_textless_iff filename elf base).1, List.any_eq_true]
  simp only [ConvMesg.isUndefined, decide_eq_true_iff]

/-- What `convert` leaves out of a run is undefined where an entry in error
has a type without a name. -/
theorem novlConvReporting_eq_undefined_iff :
    novlConvReporting elf base = .undefinedBehaviour ↔
      (OutputOpened elf ∧ ∃ e, EntryInError elf base e ∧ 51 ≤ e.type.toNat) ∨
        novlConv elf base = .undefinedBehaviour := by
  rw [novlConvReporting, ← @any_isUndefined_iff []]
  by_cases hreport : (convertMesgs [] elf base).any ConvMesg.isUndefined = true
  · rw [if_pos hreport]
    exact iff_of_true rfl (Or.inl hreport)
  · rw [if_neg hreport]
    exact (or_iff_right hreport).symm

/-- Where it is defined, it is the conversion. -/
theorem novlConvReporting_of_ne
    (h : novlConvReporting elf base ≠ .undefinedBehaviour) :
    novlConvReporting elf base = novlConv elf base := by
  rw [novlConvReporting] at h ⊢
  split_ifs at h ⊢
  · exact absurd rfl h
  · rfl

end Whole

end Novl
