import Novl.Passes

/-!
The dry run predicts the real run.

Every call of the real pass returns what the same call of the dry pass
returned, so a dry pass without errors is followed by a real pass that
ends with the predicted number of overlay relocations. The statement
speaks of single calls, by way of the states in front of them.
-/

namespace Novl

open ByteMemory

/-- The entries of the kept sections have word-aligned addresses, no two
of them the same address, and name words inside `memory`. -/
structure WellPlaced (elfEp : Word) (bs : List RelBlock) : Prop where
  aligned : ∀ b ∈ bs, ∀ e ∈ b.rels, e.addr.toNat % 4 = 0
  distinct : (bs.flatMap fun b => b.rels).Pairwise fun a b => a.addr ≠ b.addr
  inImage : ∀ b ∈ bs, ∀ e ∈ b.rels, (e.addr - elfEp).toNat + 4 ≤ memorySize

/-- Distinct word-aligned addresses inside `memory` name words apart. -/
theorem apart_of_aligned {g : Globals} {a b : GElfRel} (ha : a.addr.toNat % 4 = 0)
    (hb : b.addr.toNat % 4 = 0) (hne : a.addr ≠ b.addr) :
    Apart (relOff g a) (relOff g b) := by
  have hne' : a.addr.toNat ≠ b.addr.toNat := fun h => hne (BitVec.eq_of_toNat_eq h)
  simp only [Apart, relOff, BitVec.toNat_sub]
  have hal := a.addr.isLt
  have hbl := b.addr.isLt
  have hep := g.elfEp.isLt
  omega

theorem WellPlaced.placed {g : Globals} {bs : List RelBlock} (h : WellPlaced g.elfEp bs) :
    Placed g (visited bs) := by
  have hflat : Placed g (bs.flatMap fun b => b.rels) := by
    refine ⟨fun e he => ?_, ?_⟩
    · obtain ⟨b, hb, heb⟩ := List.mem_flatMap.mp he
      exact h.inImage b hb e heb
    · refine h.distinct.imp_of_mem fun {a c} ha hc hne => ?_
      obtain ⟨b, hb, hab⟩ := List.mem_flatMap.mp ha
      obtain ⟨d, hd, hcd⟩ := List.mem_flatMap.mp hc
      exact apart_of_aligned (h.aligned b hb a hab) (h.aligned d hd c hcd) hne
  exact hflat.perm (visited_perm bs).symm

/-- The dry pass has come to an end and reports no error. -/
abbrev DryOk (g : Globals) (m : Memory) (bs : List RelBlock) : Prop :=
  (dryPass g m bs).map DryState.error = some false

/-- A step of the dry pass is a call, and only a call in error sets the
flag; nothing clears it. -/
theorem dryEntry_call {g : Globals} {st st' : DryState} {e : GElfRel}
    (hstep : dryEntry g st e = some st') :
    ∃ v reloc, novlRelocDo g (relOff g e) e.type true st.reloc = some (v, reloc) ∧
      (st'.error = true ↔ st.error = true ∨ v = .error) := by
  rw [dryEntry] at hstep
  cases hdo : novlRelocDo g (relOff g e) e.type true st.reloc with
  | none =>
      rw [hdo] at hstep
      cases hstep
  | some result =>
      obtain ⟨v, reloc⟩ := result
      simp only [hdo, Option.some.injEq] at hstep
      subst hstep
      refine ⟨v, reloc, rfl, ?_⟩
      cases v with
      | error => simp
      | success | failDontDeleteHi => simp
      | fail =>
          simp only
          split <;> simp

/-- A dry call that is not an error has a handler, and has found its word
inside `memory`. -/
theorem handled_of_dryEntry {g : Globals} {st st' : DryState} {e : GElfRel}
    (hstep : dryEntry g st e = some st') (hok : st'.error = false) :
    st.error = false ∧ Handled g e := by
  obtain ⟨v, reloc, hdo, hflag⟩ := dryEntry_call hstep
  rw [← Bool.not_eq_true, hflag, not_or] at hok
  exact ⟨Bool.eq_false_of_not_eq_true hok.1, handled_of_novlRelocDo hdo hok.2⟩

theorem handled_of_dryEntries {g : Globals} {es : List GElfRel} {st st' : DryState}
    (hrun : es.foldlM (dryEntry g) st = some st') (hok : st'.error = false) :
    st.error = false ∧ ∀ e ∈ es, Handled g e := by
  induction es generalizing st with
  | nil =>
      obtain rfl := Option.some.inj hrun
      exact ⟨hok, by simp⟩
  | cons e es ih =>
      rw [List.foldlM_cons] at hrun
      obtain ⟨st₁, hstep, hrest⟩ := Option.bind_eq_some_iff.mp hrun
      obtain ⟨hok₁, hes⟩ := ih hrest
      obtain ⟨hok₀, he⟩ := handled_of_dryEntry hstep hok₁
      exact ⟨hok₀, List.forall_mem_cons.mpr ⟨he, hes⟩⟩

theorem handled_of_dryBlocks {g : Globals} {bs : List RelBlock} {st st' : DryState}
    (hrun : bs.foldlM (dryBlock g) st = some st') (hok : st'.error = false) :
    st.error = false ∧ ∀ b ∈ bs, ∀ e ∈ b.rels, Handled g e := by
  induction bs generalizing st with
  | nil =>
      obtain rfl := Option.some.inj hrun
      exact ⟨hok, by simp⟩
  | cons b bs ih =>
      rw [List.foldlM_cons] at hrun
      obtain ⟨st₁, hstep, hrest⟩ := Option.bind_eq_some_iff.mp hrun
      obtain ⟨hok₁, hbs⟩ := ih hrest
      obtain ⟨hok₀, hb⟩ := handled_of_dryEntries hstep hok₁
      exact ⟨hok₀, List.forall_mem_cons.mpr ⟨fun e he => hb e (mem_relList.mpr he), hbs⟩⟩

/-- A dry pass without errors has found a handler and a word for every
entry. -/
theorem DryOk.handled {g : Globals} {m : Memory} {bs : List RelBlock} (hdry : DryOk g m bs) :
    ∀ b ∈ bs, ∀ e ∈ b.rels, Handled g e := by
  obtain ⟨st, hrun, hok⟩ := Option.map_eq_some_iff.mp hdry
  exact (handled_of_dryBlocks hrun hok).2

theorem DryOk.wellPlaced {g : Globals} {m : Memory} {bs : List RelBlock} (hdry : DryOk g m bs)
    (haligned : ∀ b ∈ bs, ∀ e ∈ b.rels, e.addr.toNat % 4 = 0)
    (hdistinct : (bs.flatMap fun b => b.rels).Pairwise fun a b => a.addr ≠ b.addr) :
    WellPlaced g.elfEp bs :=
  ⟨haligned, hdistinct, fun b hb e he => (hdry.handled b hb e he).1⟩

theorem DryOk.any_blockError {g : Globals} {m : Memory} {bs : List RelBlock}
    (hdry : DryOk g m bs) (hplaced : Placed g (visited bs)) :
    bs.any (blockError g m) = false := by
  obtain ⟨st, hpass, herr, -⟩ := dryPass_eq (m := m) hplaced.inImage
  rw [DryOk, hpass] at hdry
  rw [← herr]
  exact Option.some.inj hdry

theorem blockError_ovlStarts (g : Globals) (o : OvlSection → Word) (m : Memory) :
    blockError { g with ovlStarts := o } m = blockError g m :=
  funext fun b => planError_ovlStarts g o m novlRelocInit (relList b.rels)

theorem Placed.ovlStarts {g : Globals} {es : List GElfRel} (h : Placed g es)
    (o : OvlSection → Word) : Placed { g with ovlStarts := o } es := ⟨h.inImage, h.apart⟩

/-! ### The state in front of an entry -/

/-- The dry pass after the blocks `before`, inside the next block after
the entries `pre`. -/
def dryBefore (g : Globals) (m : Memory) (before : List RelBlock) (pre : List GElfRel) :
    Option DryState := do
  let st ← before.foldlM (dryBlock g)
    { reloc := ⟨m, novlRelocInit⟩, error := false, nintyCountPred := 0 }
  pre.foldlM (dryEntry g) { st with reloc.hilo := novlRelocInit }

/-- The real pass after the blocks `before`, inside the next block, which
is one for section `id`, after the entries `pre`. -/
def realBefore (g : Globals) (m : Memory) (before : List RelBlock) (id : OvlSection)
    (pre : List GElfRel) : Except Stop RealState := do
  let st ← before.foldlM (realBlock g)
    { reloc := ⟨m, novlRelocInit⟩, nintyRelocs := [], last := none, nintyCountReal := 0 }
  pre.foldlM (realEntry g id) { st with last := none, reloc.hilo := novlRelocInit }

theorem dryBefore_eq {g : Globals} {m : Memory} {before : List RelBlock} {pre : List GElfRel}
    (hbefore : ∀ e ∈ visited before, relOff g e + 4 ≤ memorySize)
    (hpre : ∀ e ∈ pre, relOff g e + 4 ≤ memorySize) :
    ∃ st, dryBefore g m before pre = some st ∧
      st.reloc = ⟨m, hiloAfter g m novlRelocInit pre⟩ := by
  obtain ⟨st, hblocks, hmem, -, -⟩ := dryBlocks_eq (m := m) hbefore
    { reloc := ⟨m, novlRelocInit⟩, error := false, nintyCountPred := 0 } rfl
  obtain ⟨n, hentries, -⟩ := dryEntries_eq (m := m) .text hpre novlRelocInit st.error
    st.nintyCountPred
  subst hmem
  exact ⟨_, by rw [dryBefore, hblocks]; exact hentries, rfl⟩

/-- In front of an entry the real pass is in a state in which the call
returns what the plan of the original image says. -/
theorem realBefore_eq {g : Globals} {m : Memory} {before after : List RelBlock} {b : RelBlock}
    {pre post : List GElfRel} {e : GElfRel}
    (hplaced : Placed g (visited (before ++ b :: after)))
    (hok : (before ++ b :: after).any (blockError g m) = false)
    (hsplit : relList b.rels = pre ++ e :: post) :
    ∃ st reloc, realBefore g m before b.id pre = .ok st ∧
      novlRelocDo g (relOff g e) e.type false st.reloc =
        some (entryResult g m (hiloAfter g m novlRelocInit pre) e, reloc) := by
  rw [visited_append, visited_cons] at hplaced
  rw [List.any_append, List.any_cons, Bool.or_eq_false_iff, Bool.or_eq_false_iff] at hok
  obtain ⟨st₁, hblocks, -, -, -, hcount, hsame⟩ := realBlocks_eq (m := m) _
    { reloc := ⟨m, novlRelocInit⟩, nintyRelocs := [], last := none, nintyCountReal := 0 }
    rfl rfl hplaced (fun _ _ => rfl) hok.1
  have hblock : Placed g (pre ++ e :: post) := by
    rw [← hsplit]
    exact hplaced.sublist ((List.sublist_append_left _ _).trans (List.sublist_append_right _ _))
  have hwords : SameWords g st₁.reloc.memory m (pre ++ e :: post) := by
    rw [← hsplit]
    exact hsame.mono (List.subset_append_left _ _)
  have herr := hok.2.1
  rw [blockError, hsplit, planError_append, Bool.or_eq_false_iff] at herr
  obtain ⟨st₂, reloc, hentries, hdo⟩ := realEntries_before b.id (m := m)
    { st₁ with last := none, reloc.hilo := novlRelocInit } rfl (Bookkeeping.start rfl hcount)
    hblock hwords herr.1
  exact ⟨st₂, reloc, by rw [realBefore, hblocks]; exact hentries, hdo⟩

/-- Each call returns the same in both passes, for any overlay addresses. -/
theorem novlRelocDo_dry_real {g : Globals} {m : Memory} {before after : List RelBlock}
    {b : RelBlock} {pre post : List GElfRel} {e : GElfRel} (o : OvlSection → Word)
    (hplaced : Placed g (visited (before ++ b :: after)))
    (hok : (before ++ b :: after).any (blockError g m) = false)
    (hsplit : relList b.rels = pre ++ e :: post) :
    ∃ dry real v dry' real', dryBefore g m before pre = some dry ∧
      realBefore { g with ovlStarts := o } m before b.id pre = .ok real ∧
      novlRelocDo g (relOff g e) e.type true dry.reloc = some (v, dry') ∧
      novlRelocDo { g with ovlStarts := o } (relOff g e) e.type false real.reloc =
        some (v, real') := by
  have hvisited : ∀ x ∈ pre ++ e :: post, x ∈ visited (before ++ b :: after) := by
    intro x hx
    rw [visited_append, visited_cons, hsplit]
    exact List.mem_append_right _ (List.mem_append_left _ hx)
  have he := hplaced.inImage e (hvisited e (List.mem_append_right _ List.mem_cons_self))
  obtain ⟨dry, hdry, hdreloc⟩ : ∃ dry, dryBefore g m before pre = some dry ∧ _ := dryBefore_eq
    (fun x hx => hplaced.inImage x (by rw [visited_append]; exact List.mem_append_left _ hx))
    (fun x hx => hplaced.inImage x (hvisited x (List.mem_append_left _ hx)))
  obtain ⟨real, reloc, hreal, hdo⟩ := realBefore_eq (g := { g with ovlStarts := o })
    (hplaced.ovlStarts o) (by rwa [blockError_ovlStarts]) hsplit
  have hdo' := novlRelocDo_dry g e.type (relOff g e) m (hiloAfter g m novlRelocInit pre) he
  rw [← hdreloc] at hdo'
  exact ⟨dry, real, _, _, reloc, hdry, hreal, hdo', hdo⟩

/-- The dry run predicts the real run: if the dry pass reports no error,
then whatever the overlay addresses, every call of the real pass returns
what it returned in the dry pass, the real pass does not take its error
exit, and the two counts are equal. -/
theorem dryPass_predicts_realPass {g : Globals} {m : Memory} {bs : List RelBlock}
    (hplaced : WellPlaced g.elfEp bs) (hdry : DryOk g m bs) (o : OvlSection → Word) :
    (∀ before b after pre e post, bs = before ++ b :: after →
      relList b.rels = pre ++ e :: post →
      ∃ dry real v dry' real', dryBefore g m before pre = some dry ∧
        realBefore { g with ovlStarts := o } m before b.id pre = .ok real ∧
        novlRelocDo g (relOff g e) e.type true dry.reloc = some (v, dry') ∧
        novlRelocDo { g with ovlStarts := o } (relOff g e) e.type false real.reloc =
          some (v, real')) ∧
    ∃ dry real, dryPass g m bs = some dry ∧ realPass { g with ovlStarts := o } m bs = .ok real ∧
      dry.nintyCountPred = real.nintyCountReal := by
  have hok := hdry.any_blockError hplaced.placed
  constructor
  · rintro before b after pre e post rfl hsplit
    exact novlRelocDo_dry_real o hplaced.placed hok hsplit
  · obtain ⟨dry, hpass, herr, hpred⟩ := dryPass_eq (m := m) hplaced.placed.inImage
    obtain ⟨real, hreal, -, -, hcount⟩ := realPass_eq (g := { g with ovlStarts := o })
      (m := m) (hplaced.placed.ovlStarts o) (by rw [blockError_ovlStarts]; exact hok)
    refine ⟨dry, real, hpass, hreal, ?_⟩
    rw [hpred (herr.trans hok), hcount, passNet_ovlStarts g o m bs]

/-- An ELF file with a `.text` section at its entry point, the relocations
`rels` for it, and the sections `others`. -/
def sampleElf (text : List Word) (rels : List GElfRel) (others : List ElfSection) : Elf where
  kind := .elf
  eMachine := emMips
  eEntry := 0x80000000
  sections :=
    ⟨OvlSection.text.name, shtProgbits, 0x80000000, BitVec.ofNat 64 (4 * text.length),
      some ⟨text.flatMap wordBytes, []⟩⟩ ::
    ⟨['.', 'r', 'e', 'l'] ++ OvlSection.text.name, 9, 0, BitVec.ofNat 64 (8 * rels.length),
      some ⟨[], rels⟩⟩ :: others

/-! A `.text` section with two interleaved HI16/LO16 pairs, of which one
points outside every section, a jump and a pointer. -/

def mixedText : List Word :=
  [0x3C048000, 0x3C019000, 0x24840014, 0x8C220000, 0x08000000, 0x80000010]

def mixedMemory : Memory := copyBytes (fun _ => 0) 0 (mixedText.flatMap wordBytes)

def mixedGlobals : Globals where
  elfEp := 0x80000000
  elfStarts
    | .text => 0x80000000
    | _ => 0
  ovlStarts _ := 0
  sizes
    | .text => 0x20
    | _ => 0

def mixedBlock : RelBlock where
  id := .text
  rels := [⟨0x80000014, 2⟩, ⟨0x80000000, 5⟩, ⟨0x80000004, 5⟩, ⟨0x80000010, 4⟩,
    ⟨0x80000008, 6⟩, ⟨0x8000000C, 6⟩]

theorem mixedBlock_wellPlaced : WellPlaced mixedGlobals.elfEp [mixedBlock] where
  aligned := by decide +kernel
  distinct := by decide +kernel
  inImage := by decide +kernel

def mixedStarts : OvlSection → Word := overlayStarts 0x80800000 mixedGlobals.sizes 4

theorem mixedBlock_predicted :
    ∃ dry real, dryPass mixedGlobals mixedMemory [mixedBlock] = some dry ∧
      realPass { mixedGlobals with ovlStarts := mixedStarts } mixedMemory [mixedBlock] =
        .ok real ∧
      dry.nintyCountPred = real.nintyCountReal :=
  (dryPass_predicts_realPass mixedBlock_wellPlaced (by decide +kernel) mixedStarts).2

end Novl
