import Novl.BaseIndependence

/-!
The order of the relocation entries and of their sections.

Both passes sort the entries of a section before they look at them, so
the order inside a section is lost at once. The sections themselves are
visited in file order. Since no two of them name a common word, and each
starts with an empty register table and without a last overlay
relocation, exchanging them exchanges their parts of the table and
nothing else.
-/

namespace Novl

open ByteMemory FallibleRun

/-! ### Relocation sections -/

/-- The first of the two name tests. -/
def ElfSection.isRel (s : ElfSection) : Bool := ['.', 'r', 'e', 'l'].isPrefixOf s.name

/-- A section the passes do not skip. -/
def ElfSection.isKept (s : ElfSection) : Bool := (relBlock? s).isSome

theorem ElfSection.isRel_of_isKept {s : ElfSection} (h : s.isKept = true) : s.isRel = true := by
  by_contra hrel
  rw [isRel] at hrel
  rw [isKept, relBlock?, if_neg hrel] at h
  cases h

/-- The loading loop passes over relocation sections. -/
theorem validSec_of_isRel {s : ElfSection} (h : s.isRel = true) : validSec s.name = none := by
  obtain ⟨t, ht⟩ := List.isPrefixOf_iff_prefix.mp h
  rw [← ht]
  rfl

theorem loadSection_of_isRel {s : ElfSection} (h : s.isRel = true) (elfEp : Word)
    (st : LoadState) : loadSection elfEp st s = .ok st := by
  rw [loadSection, validSec_of_isRel h]

/-! ### Entries in another order -/

/-- `s'` is the relocation section `s`, its entries in some other order. -/
structure EntriesReordered (s s' : ElfSection) : Prop where
  isRel : s.isRel = true
  header : s' = { s with data := s'.data }
  entries : Option.Rel (fun d d' => d.rels.Perm d'.rels) s.data s'.data

/-- Some relocation sections have their entries in another order. -/
abbrev SomeReordered (ss ss' : List ElfSection) : Prop :=
  List.Forall₂ (fun s s' => s = s' ∨ EntriesReordered s s') ss ss'

theorem loadSections_reordered {ss ss' : List ElfSection} (h : SomeReordered ss ss')
    (elfEp : Word) : loadSections elfEp ss = loadSections elfEp ss' := by
  refine foldlM_congr h (fun st s s' hs => ?_) LoadState.init
  rcases hs with rfl | hs
  · rfl
  · have hrel : s'.isRel = true := by
      rw [ElfSection.isRel, hs.header]
      exact hs.isRel
    rw [loadSection_of_isRel hs.isRel, loadSection_of_isRel hrel]

/-- Two blocks with the same entries. -/
def SameEntries (b b' : RelBlock) : Prop := b.id = b'.id ∧ b.rels.Perm b'.rels

theorem relBlock?_reordered {s s' : ElfSection} (h : EntriesReordered s s') :
    Option.Rel SameEntries (relBlock? s) (relBlock? s') := by
  have hentries := h.entries
  rw [h.header, relBlock?, relBlock?]
  obtain ⟨name, shType, shAddr, shSize, data⟩ := s
  generalize s'.data = data' at hentries ⊢
  simp only at hentries ⊢
  split
  · cases validSec (name.drop 4) with
    | none => exact Option.Rel.none
    | some id =>
        by_cases hsize : 0 < shSize
        · simp only [if_pos hsize]
          cases hentries with
          | none => exact Option.Rel.none
          | some hperm => exact Option.Rel.some ⟨rfl, hperm⟩
        · simp only [if_neg hsize]
          exact Option.Rel.none
  · exact Option.Rel.none

theorem relBlocks_reordered {ss ss' : List ElfSection} (h : SomeReordered ss ss') :
    List.Forall₂ SameEntries (relBlocks ss) (relBlocks ss') := by
  induction h with
  | nil => exact List.Forall₂.nil
  | @cons s s' ss ss' hs _ ih =>
      have hblock : Option.Rel SameEntries (relBlock? s) (relBlock? s') := by
        rcases hs with rfl | hs
        · cases relBlock? s with
          | none => exact Option.Rel.none
          | some b => exact Option.Rel.some ⟨rfl, List.Perm.refl _⟩
        · exact relBlock?_reordered hs
      rw [relBlocks, relBlocks, List.filterMap_cons, List.filterMap_cons]
      revert hblock
      generalize relBlock? s = x
      generalize relBlock? s' = y
      intro hblock
      cases hblock with
      | none => exact ih
      | some hb => exact List.Forall₂.cons hb ih

/-- Sorting leaves nothing of the order in which entries with distinct
addresses came. -/
theorem relList_eq_of_perm {rels rels' : List GElfRel} (hperm : rels.Perm rels')
    (hdistinct : rels.Pairwise fun a b => a.addr ≠ b.addr) : relList rels = relList rels' := by
  refine InsertionSort.sort_eq_of_perm _ hperm fun a ha b hb heq => ?_
  refine List.inj_on_of_nodup_map (List.pairwise_map.mpr hdistinct) ha hb ?_
  rw [GElfRel.addr, GElfRel.addr, BitVec.eq_of_toNat_eq heq]

/-- What the passes see of two blocks with the same entries. -/
def SameSorted (b b' : RelBlock) : Prop := b.id = b'.id ∧ relList b.rels = relList b'.rels

theorem sameSorted_of_sameEntries {bs bs' : List RelBlock} (h : List.Forall₂ SameEntries bs bs')
    (hdistinct : ∀ b ∈ bs, b.rels.Pairwise fun a c => a.addr ≠ c.addr) :
    List.Forall₂ SameSorted bs bs' := by
  induction h with
  | nil => exact List.Forall₂.nil
  | @cons b b' bs bs' hb _ ih =>
      obtain ⟨hhead, htail⟩ := List.forall_mem_cons.mp hdistinct
      exact List.Forall₂.cons ⟨hb.1, relList_eq_of_perm hb.2 hhead⟩ (ih htail)

theorem convertImage_reordered {bs bs' : List RelBlock} (h : List.Forall₂ SameSorted bs bs')
    (elfEp : Word) (ld : LoadState) (base : Word) :
    convertImage elfEp ld bs base = convertImage elfEp ld bs' base := by
  have hdry (g : Globals) (m : Memory) : dryPass g m bs = dryPass g m bs' :=
    foldlM_congr h (fun st b b' hb => by rw [dryBlock, dryBlock, hb.2]) _
  have hreal (g : Globals) (m : Memory) : realPass g m bs = realPass g m bs' :=
    foldlM_congr h (fun st b b' hb => by rw [realBlock, realBlock, hb.1, hb.2]) _
  simp only [convertImage, hdry, hreal]

theorem convert_reordered {elf : Elf} {ss : List ElfSection} (h : SomeReordered elf.sections ss)
    (hdistinct : ∀ b ∈ relBlocks elf.sections, b.rels.Pairwise fun a c => a.addr ≠ c.addr)
    (base : Word) : convert { elf with sections := ss } base = convert elf base := by
  have himage := convertImage_reordered
    (sameSorted_of_sameEntries (relBlocks_reordered h) hdistinct)
  simp only [convert, ← loadSections_reordered h, himage]

/-! ### Sections in another order -/

/-- The kept relocation sections have changed places, among themselves and
with respect to the other sections, which are in their old order. -/
structure SectionsReordered (ss ss' : List ElfSection) : Prop where
  kept : (ss.filter ElfSection.isKept).Perm (ss'.filter ElfSection.isKept)
  others : ss.filter (fun s => !s.isKept) = ss'.filter (fun s => !s.isKept)

theorem loadSections_filter (elfEp : Word) (ss : List ElfSection) (st : LoadState) :
    ss.foldlM (loadSection elfEp) st =
      (ss.filter fun s => !s.isKept).foldlM (loadSection elfEp) st := by
  induction ss generalizing st with
  | nil => rfl
  | cons s ss ih =>
      by_cases hkept : s.isKept = true
      · rw [List.filter_cons_of_neg (by simp [hkept]), List.foldlM_cons,
          loadSection_of_isRel (s.isRel_of_isKept hkept)]
        exact ih st
      · rw [List.filter_cons_of_pos (by simp [hkept]), List.foldlM_cons, List.foldlM_cons]
        exact congrArg _ (funext ih)

theorem relBlocks_filter (ss : List ElfSection) :
    relBlocks (ss.filter ElfSection.isKept) = relBlocks ss := by
  rw [relBlocks, relBlocks, List.filterMap_filter]
  congr 1
  funext s
  rw [ElfSection.isKept]
  cases relBlock? s <;> rfl

theorem SectionsReordered.loadSections_eq {ss ss' : List ElfSection}
    (h : SectionsReordered ss ss') (elfEp : Word) :
    loadSections elfEp ss' = loadSections elfEp ss := by
  rw [loadSections, loadSections, loadSections_filter, loadSections_filter elfEp ss, h.others]

theorem SectionsReordered.relBlocks_perm {ss ss' : List ElfSection}
    (h : SectionsReordered ss ss') : (relBlocks ss).Perm (relBlocks ss') := by
  rw [← relBlocks_filter ss, ← relBlocks_filter ss']
  exact h.kept.filterMap _

/-! ### The writer's position -/

theorem pos_writeFooter {sizes : OvlSection → Word} {f f' : SeekFile} (hpos : f.pos = f'.pos) :
    (writeFooter sizes f).pos = (writeFooter sizes f').pos := by
  simp only [writeFooter, hpos]
  split
  · simp only [SeekFile.write_pos, fseek]
    split
    · rfl
    · rw [hpos]
  · rw [SeekFile.write_pos, SeekFile.write_pos, hpos]

theorem endAlike_writeSection {base : Word} {starts : OvlSection → Word}
    {contents : OvlSection → Except Stop (List Byte)} (i : OvlSection) {f f' : SeekFile}
    (hpos : f.pos = f'.pos) :
    EndAlike (fun h h' => h.pos = h'.pos) (writeSection base starts contents f i)
      (writeSection base starts contents f' i) := by
  rw [writeSection, writeSection, hpos]
  split
  · exact EndAlike.error _
  · cases contents i with
    | error e => exact EndAlike.error e
    | ok bs => exact EndAlike.ok (by rw [SeekFile.write_pos, SeekFile.write_pos, hpos])

/-- Whether the writer gets through depends on the number of words in the
table, not on the words. -/
theorem endAlike_writeOverlay {base : Word} {starts sizes : OvlSection → Word} {count : ℤ}
    {relocs relocs' : List Word} {contents : OvlSection → Except Stop (List Byte)}
    (hlen : (writtenRelocs relocs).length = (writtenRelocs relocs').length) :
    EndAlike (fun h h' => h.pos = h'.pos)
      (writeOverlay base starts sizes count relocs contents)
      (writeOverlay base starts sizes count relocs' contents) := by
  have hhead : (writeHead sizes count relocs).pos = (writeHead sizes count relocs').pos := by
    rw [(writeHead_eq sizes count relocs).2, (writeHead_eq sizes count relocs').2, headEnd,
      headEnd, hlen]
  have hsections (f f' : SeekFile) :
      EndAlike (fun h h' => h.pos = h'.pos)
        ([OvlSection.text, .data, .rodata].foldlM (writeSection base starts contents) (f.seek 0))
        ([OvlSection.text, .data, .rodata].foldlM (writeSection base starts contents)
          (f'.seek 0)) :=
    EndAlike.foldlM (fun i _ _ _ hpos => endAlike_writeSection i hpos) rfl
  simp only [writeOverlay, pos_writeFooter hhead]
  split
  · exact EndAlike.error _
  · have hend := hsections (writeFooter sizes (writeHead sizes count relocs))
      (writeFooter sizes (writeHead sizes count relocs'))
    revert hend
    generalize [OvlSection.text, .data, .rodata].foldlM (writeSection base starts contents)
      ((writeFooter sizes (writeHead sizes count relocs)).seek 0) = x
    generalize [OvlSection.text, .data, .rodata].foldlM (writeSection base starts contents)
      ((writeFooter sizes (writeHead sizes count relocs')).seek 0) = y
    intro hend
    cases hend with
    | error e => exact EndAlike.error e
    | @ok f f' hpos =>
        simp only [hpos]
        split
        · exact EndAlike.error _
        · exact EndAlike.ok hpos

/-! ### Passes over sections in another order -/

theorem WellPlaced.perm {elfEp : Word} {bs cs : List RelBlock} (h : WellPlaced elfEp bs)
    (hperm : bs.Perm cs) : WellPlaced elfEp cs where
  aligned b hb := h.aligned b (hperm.mem_iff.mpr hb)
  distinct := ((hperm.flatMap_right _).pairwise_iff fun hab => Ne.symm hab).mp h.distinct
  inImage b hb := h.inImage b (hperm.mem_iff.mpr hb)

/-- The patches of different sections are made to different words. -/
theorem Placed.pairwise_blockPatches {g : Globals} {bs : List RelBlock}
    (h : Placed g (visited bs)) (m : Memory) :
    bs.Pairwise fun b c => ∀ p ∈ blockPatches g m b, ∀ q ∈ blockPatches g m c,
      Apart p.pos q.pos := by
  induction bs with
  | nil => exact List.Pairwise.nil
  | cons b bs ih =>
      rw [visited_cons] at h
      have hcross := (List.pairwise_append.mp h.apart).2.2
      refine List.pairwise_cons.mpr ⟨fun c hc p hp q hq => ?_,
        ih (h.sublist (List.sublist_append_right _ _))⟩
      obtain ⟨e, he, hpe⟩ := pos_of_mem_blockPatches hp
      obtain ⟨x, hx, hqx⟩ := pos_of_mem_blockPatches hq
      rw [hpe, hqx]
      exact hcross e he x (mem_visited.mpr ⟨c, hc, mem_relList.mp hx⟩)

theorem finalMemory_perm {g : Globals} {bs cs : List RelBlock} (hperm : bs.Perm cs)
    (hplaced : Placed g (visited bs)) (m : Memory) :
    finalMemory g m bs = finalMemory g m cs :=
  applyPatches_flatMap_perm m hperm (hplaced.pairwise_blockPatches m)

theorem passNet_perm {g : Globals} {m : Memory} {bs cs : List RelBlock} (hperm : bs.Perm cs) :
    passNet g m bs = passNet g m cs := (hperm.map _).sum_eq

/-- Two conversions that differ in the order of the sections they visit:
one image, and two arrangements of the same parts of the table. -/
structure Rearranged (bs cs : List RelBlock) (c c' : Converted) : Prop where
  globals : c'.globals = c.globals
  loaded : c'.loaded = c.loaded
  memory : c'.memory = c.memory
  noError : bs.any (blockError c.globals c.loaded) = false
  table : c.nintyRelocs = bs.flatMap (blockTable c.globals c.loaded)
  table' : c'.nintyRelocs = cs.flatMap (blockTable c.globals c.loaded)

theorem convertImage_perm {elfEp : Word} {bs cs : List RelBlock} (hperm : bs.Perm cs)
    (hplaced : WellPlaced elfEp bs) (ld : LoadState) (base : Word) :
    EndAlike (Rearranged bs cs) (convertImage elfEp ld bs base)
      (convertImage elfEp ld cs base) := by
  let g₀ : Globals := ⟨elfEp, ld.elfStarts, fun _ => 0, ld.sizes⟩
  have hplaced' := hplaced.perm hperm
  obtain ⟨dry, hdry, herror, hpred⟩ := dryPass_eq (g := g₀) (m := ld.memory)
    (hplaced.placed (g := g₀)).inImage
  obtain ⟨dry', hdry', herror', hpred'⟩ := dryPass_eq (g := g₀) (m := ld.memory)
    (hplaced'.placed (g := g₀)).inImage
  have hany : dry'.error = dry.error := by rw [herror, herror', hperm.any_eq]
  have hcount : dry.error = false → dry'.nintyCountPred = dry.nintyCountPred := by
    intro hok
    rw [hpred hok, hpred' (hany.trans hok), passNet_perm hperm]
  change dryPass ⟨elfEp, ld.elfStarts, fun _ => 0, ld.sizes⟩ ld.memory bs = some dry at hdry
  change dryPass ⟨elfEp, ld.elfStarts, fun _ => 0, ld.sizes⟩ ld.memory cs = some dry' at hdry'
  simp only [convertImage, hdry, hdry', hany]
  cases hok : dry.error with
  | true => exact EndAlike.error _
  | false =>
      simp only [Bool.false_eq_true, if_false, hcount hok]
      -- From here on the overlay addresses are the same in both runs.
      let o := overlayStarts base ld.sizes dry.nintyCountPred
      let g : Globals := { g₀ with ovlStarts := o }
      have herr : bs.any (blockError g ld.memory) = false := by
        rw [blockError_ovlStarts g₀ o, ← herror, hok]
      obtain ⟨real, hreal, hmemory, hrelocs, hnet⟩ := realPass_eq (g := g) (m := ld.memory)
        (hplaced.placed (g := g)) herr
      obtain ⟨real', hreal', hmemory', hrelocs', hnet'⟩ := realPass_eq (g := g)
        (m := ld.memory) (hplaced'.placed (g := g)) (by rw [← hperm.any_eq]; exact herr)
      have hsame : real'.reloc.memory = real.reloc.memory := by
        rw [hmemory, hmemory']
        exact (finalMemory_perm hperm (hplaced.placed (g := g)) ld.memory).symm
      have hreals : real'.nintyCountReal = real.nintyCountReal := by
        rw [hnet, hnet', passNet_perm hperm]
      have hlen : (writtenRelocs real.nintyRelocs).length =
          (writtenRelocs real'.nintyRelocs).length := by
        have hcount₁ := nintyCountReal_of_realPass hreal
        have hcount₂ := nintyCountReal_of_realPass hreal'
        rw [writtenRelocs_of_realPass hreal, writtenRelocs_of_realPass hreal']
        omega
      change realPass ⟨elfEp, ld.elfStarts, o, ld.sizes⟩ ld.memory bs = .ok real at hreal
      change realPass ⟨elfEp, ld.elfStarts, o, ld.sizes⟩ ld.memory cs = .ok real' at hreal'
      simp only [o] at hreal hreal'
      simp only [hreal, hreal', hreals, hsame]
      split
      · exact EndAlike.error _
      · have hwrite : EndAlike (fun h h' => h.pos = h'.pos)
            (writeOverlay base o ld.sizes real.nintyCountReal real.nintyRelocs
              (sectionContents g real.reloc.memory))
            (writeOverlay base o ld.sizes real.nintyCountReal real'.nintyRelocs
              (sectionContents g real.reloc.memory)) := endAlike_writeOverlay hlen
        revert hwrite
        generalize writeOverlay base o ld.sizes real.nintyCountReal real.nintyRelocs
          (sectionContents g real.reloc.memory) = x
        generalize writeOverlay base o ld.sizes real.nintyCountReal real'.nintyRelocs
          (sectionContents g real.reloc.memory) = y
        intro hwrite
        cases hwrite with
        | error e => exact EndAlike.error e
        | ok _ =>
            exact EndAlike.ok {
              globals := rfl
              loaded := rfl
              memory := rfl
              noError := herr
              table := hrelocs
              table' := hrelocs' }

/-! ### Conversions -/

theorem convert_sectionsReordered {elf : Elf} {ss : List ElfSection}
    (h : SectionsReordered elf.sections ss)
    (hplaced : WellPlaced (elf.eEntry.setWidth 32) (relBlocks elf.sections)) (base : Word) :
    EndAlike (Rearranged (relBlocks elf.sections) (relBlocks ss)) (convert elf base)
      (convert { elf with sections := ss } base) := by
  simp only [convert, h.loadSections_eq]
  cases elf.kind with
  | ar => exact EndAlike.error _
  | other => exact EndAlike.error _
  | elf =>
      simp only
      split
      · exact EndAlike.error _
      · cases loadSections (elf.eEntry.setWidth 32) elf.sections with
        | error e => exact EndAlike.error e
        | ok ld => exact convertImage_perm h.relBlocks_perm hplaced ld base

theorem exitStatus_eq_of_endAlike {elf elf' : Elf} {base : Word}
    {R : Converted → Converted → Prop} (h : EndAlike R (convert elf base) (convert elf' base)) :
    (novlConv elf' base).exitStatus = (novlConv elf base).exitStatus := by
  rw [novlConv, novlConv]
  generalize convert elf base = x at h
  generalize convert elf' base = y at h
  cases h with
  | ok _ => rfl
  | error e => rfl

/-- The part of the table a section contributes is the table the real pass
makes of that section alone. -/
theorem realPass_singleton {g : Globals} {m : Memory} {bs : List RelBlock}
    (hplaced : Placed g (visited bs)) (hok : bs.any (blockError g m) = false) {b : RelBlock}
    (hb : b ∈ bs) : ∃ real, realPass g m [b] = .ok real ∧ real.nintyRelocs = blockTable g m b := by
  obtain ⟨before, after, rfl⟩ := List.append_of_mem hb
  rw [visited_append, visited_cons] at hplaced
  rw [List.any_append, List.any_cons, Bool.or_eq_false_iff, Bool.or_eq_false_iff] at hok
  have hblock : Placed g (visited [b]) := by
    rw [visited_cons]
    refine hplaced.sublist (List.Sublist.trans ?_ (List.sublist_append_right _ _))
    exact (List.sublist_append_left _ _).append_left _
  obtain ⟨real, hreal, -, hrelocs, -⟩ := realPass_eq (m := m) hblock (by simpa using hok.2.1)
  exact ⟨real, hreal, by simpa using hrelocs⟩

/-- The order of relocation entries does not matter: the entries of each
relocation section may come in any order without any effect on the
outcome; and the kept relocation sections may come in any order, with the
same exit status, the same relocated image, and a table in which the parts
of the sections have changed places with them. -/
theorem convert_order_irrelevant {elf : Elf} (base : Word)
    (hplaced : WellPlaced (elf.eEntry.setWidth 32) (relBlocks elf.sections)) :
    (∀ ss, SomeReordered elf.sections ss →
      novlConv { elf with sections := ss } base = novlConv elf base) ∧
    ∀ ss, SectionsReordered elf.sections ss →
      (novlConv { elf with sections := ss } base).exitStatus = (novlConv elf base).exitStatus ∧
      ∀ c c', convert elf base = .ok c → convert { elf with sections := ss } base = .ok c' →
        c'.memory = c.memory ∧
        (relBlocks elf.sections).Perm (relBlocks ss) ∧
        ∃ table : RelBlock → List Word,
          (∀ b ∈ relBlocks elf.sections, ∃ real,
            realPass c.globals c.loaded [b] = .ok real ∧ real.nintyRelocs = table b) ∧
          c.nintyRelocs = (relBlocks elf.sections).flatMap table ∧
          c'.nintyRelocs = (relBlocks ss).flatMap table := by
  constructor
  · intro ss h
    have hdistinct : ∀ b ∈ relBlocks elf.sections,
        b.rels.Pairwise fun a c => a.addr ≠ c.addr :=
      fun b hb => (List.pairwise_flatMap.mp hplaced.distinct).1 b hb
    rw [novlConv, novlConv, convert_reordered h hdistinct]
  · intro ss h
    have hend := convert_sectionsReordered h hplaced base
    refine ⟨exitStatus_eq_of_endAlike hend, fun c c' hc hc' => ?_⟩
    rw [hc, hc'] at hend
    cases hend with
    | ok hrearranged =>
        have hep : c.globals.elfEp = elf.eEntry.setWidth 32 := (conversion_of_convert hc).elfEp
        have hplaced' : Placed c.globals (visited (relBlocks elf.sections)) :=
          WellPlaced.placed (hep ▸ hplaced)
        exact ⟨hrearranged.memory, h.relBlocks_perm, blockTable c.globals c.loaded,
          fun b hb => realPass_singleton hplaced' hrearranged.noError hb, hrearranged.table,
          hrearranged.table'⟩

/-! A second relocation section, for a pointer in `.data`. -/

def dataSection : ElfSection :=
  ⟨OvlSection.data.name, shtProgbits, 0x80000018, 4, some ⟨wordBytes 0x80000008, []⟩⟩

def relDataSection : ElfSection :=
  ⟨['.', 'r', 'e', 'l'] ++ OvlSection.data.name, 9, 0, 8, some ⟨[], [⟨0x80000018, 2⟩]⟩⟩

def twoRelElf : Elf := sampleElf mixedText mixedBlock.rels [dataSection, relDataSection]

/-- `.rel.data` in front, the other sections in their order. -/
def relDataFirst : List ElfSection := relDataSection :: twoRelElf.sections.take 3

/-- The entries of `.rel.text` backwards. -/
def relTextBackwards : List ElfSection :=
  (sampleElf mixedText mixedBlock.rels.reverse [dataSection, relDataSection]).sections

theorem twoRelElf_order_irrelevant :
    novlConv { twoRelElf with sections := relTextBackwards } 0x80800000 =
        novlConv twoRelElf 0x80800000 ∧
      (novlConv { twoRelElf with sections := relDataFirst } 0x80800000).exitStatus =
        (novlConv twoRelElf 0x80800000).exitStatus := by
  have hplaced : WellPlaced (twoRelElf.eEntry.setWidth 32) (relBlocks twoRelElf.sections) :=
    ⟨by decide +kernel, by decide +kernel, by decide +kernel⟩
  obtain ⟨hentries, hsections⟩ := convert_order_irrelevant 0x80800000 hplaced
  have hbackwards : SomeReordered twoRelElf.sections relTextBackwards :=
    .cons (.inl rfl) (.cons (.inr ⟨rfl, rfl, .some (List.reverse_perm _).symm⟩)
      (.cons (.inl rfl) (.cons (.inl rfl) .nil)))
  have hfirst : SectionsReordered twoRelElf.sections relDataFirst :=
    ⟨List.Perm.swap _ _ _, rfl⟩
  exact ⟨hentries _ hbackwards, (hsections _ hfirst).1⟩

end Novl
