import Novl.Plan

/-!
The list of overlay relocations during the real pass.

`last` is a pointer into a list that outlives the section it was set in,
and a deletion follows it without a test. What makes that safe is a
relation between the list and the register table: the entries a block has
added and not deleted again are at least as many as the registers whose
HI16 has not been used yet, since a deletion spends one of them. So a
deletion always finds an entry of its own block.
-/

namespace Novl

open ByteMemory FallibleRun

/-- A row whose HI16 no LO16 has used yet. -/
def HiLoPair.isValid : HiLoPair → Bool
  | .valid _ _ => true
  | .invalid | .used _ _ => false

/-- The registers with status `HILO_STATUS_VALID`. -/
def validRegs (h : HiLoTable) : Finset (Reg) := Finset.univ.filter fun r => (h r).isValid

@[simp] theorem mem_validRegs {h : HiLoTable} {r : Reg} :
    r ∈ validRegs h ↔ (h r).isValid = true := by
  simp [validRegs]

@[simp] theorem validRegs_init : validRegs novlRelocInit = ∅ := by
  ext r
  simp [novlRelocInit, HiLoPair.isValid]

@[simp] theorem HiLoPair.isValid_use (row : HiLoPair) : row.use.isValid = false := by
  cases row <;> rfl

theorem validRegs_hi16 {type : Word} (hjt : novlRelocJt type = some .hi16) (i : ℕ) (w : Word)
    (h : HiLoTable) : validRegs (relocHilo type i w h) ⊆ insert (hiReg w) (validRegs h) := by
  intro r hr
  rw [mem_validRegs, relocHilo_hi16 hjt] at hr
  rw [Finset.mem_insert, mem_validRegs]
  split at hr
  · exact Or.inl ‹_›
  · exact Or.inr hr

theorem validRegs_lo16 {type : Word} (hjt : novlRelocJt type = some .lo16) (i : ℕ) (w : Word)
    (h : HiLoTable) : validRegs (relocHilo type i w h) = (validRegs h).erase (loReg w) := by
  ext r
  rw [mem_validRegs, relocHilo_lo16 hjt, Finset.mem_erase, mem_validRegs]
  split
  · rename_i hr
    simp [hr]
  · rename_i hr
    simp [hr]

theorem novlRelocJt_rMipsLo16 : novlRelocJt rMipsLo16 = some .lo16 := by decide

/-- A LO16 fails, and asks for a deletion, only where its register has an
unused HI16. -/
theorem isValid_of_relocResult_fail {g : Globals} {w : Word} {h : HiLoTable}
    (hfail : relocResult g rMipsLo16 w h = .fail) : (h (loReg w)).isValid = true := by
  simp only [relocResult, novlRelocJt_rMipsLo16] at hfail
  cases hrow : h (loReg w) with
  | invalid => simp [hrow] at hfail
  | valid ptr hi => rfl
  | used ptr hi =>
      simp only [hrow] at hfail
      split at hfail <;> cases hfail

/-- The unused HI16s never outnumber the entries the block has in the
table. -/
theorem card_validRegs_step {g : Globals} {id : OvlSection} {e : GElfRel} {i : ℕ} {w : Word}
    {h : HiLoTable} {blk : List Word} (hle : (validRegs h).card ≤ blk.length) :
    (validRegs (relocHilo e.type i w h)).card ≤
      (TailStack.step blk (resultEvent g id e (relocResult g e.type w h))).length := by
  by_cases hhi : novlRelocJt e.type = some .hi16
  · have hpush : relocResult g e.type w h = .success := by simp only [relocResult, hhi]
    have hcard := Finset.card_le_card (validRegs_hi16 hhi i w h)
    have hinsert := Finset.card_insert_le (hiReg w) (validRegs h)
    rw [hpush]
    simp only [resultEvent, TailStack.step, List.length_append, List.length_singleton]
    omega
  · have hmono : validRegs (relocHilo e.type i w h) ⊆ validRegs h := by
      by_cases hlo : novlRelocJt e.type = some .lo16
      · rw [validRegs_lo16 hlo]
        exact Finset.erase_subset _ _
      · rw [relocHilo_other hhi hlo]
    have hcard := Finset.card_le_card hmono
    cases hres : relocResult g e.type w h with
    | success =>
        simp only [resultEvent, TailStack.step, List.length_append, List.length_singleton]
        omega
    | error => exact hcard.trans hle
    | failDontDeleteHi => exact hcard.trans hle
    | fail =>
        rw [resultEvent]
        split
        · -- A pop takes its register out of the VALID ones.
          rename_i hlo
          rw [hlo] at hres ⊢
          have hmem : loReg w ∈ validRegs h := mem_validRegs.mpr (isValid_of_relocResult_fail hres)
          have herase := Finset.card_erase_of_mem hmem
          rw [validRegs_lo16 novlRelocJt_rMipsLo16, herase, TailStack.step, List.length_dropLast]
          omega
        · exact hcard.trans hle

/-- A block that a deletion meets is not empty. -/
theorem ne_nil_of_resultEvent_pop {g : Globals} {id : OvlSection} {e : GElfRel} {w : Word}
    {h : HiLoTable} {blk : List Word} (hle : (validRegs h).card ≤ blk.length)
    (hpop : resultEvent g id e (relocResult g e.type w h) = .pop) : blk ≠ [] := by
  rintro rfl
  cases hres : relocResult g e.type w h with
  | success => rw [hres] at hpop; cases hpop
  | error => rw [hres] at hpop; cases hpop
  | failDontDeleteHi => rw [hres] at hpop; cases hpop
  | fail =>
      rw [hres, resultEvent] at hpop
      split at hpop
      · rename_i hlo
        rw [hlo] at hres
        have hmem : loReg w ∈ validRegs h := mem_validRegs.mpr (isValid_of_relocResult_fail hres)
        have hpos := Finset.card_pos.mpr ⟨_, hmem⟩
        simp only [List.length_nil] at hle
        omega
      · cases hpop

/-- The real pass inside a block: `prior` is what earlier blocks have left
in the table, `blk` what this one has added and not deleted again. -/
structure Bookkeeping (prior blk : List Word) (st : RealState) : Prop where
  relocs : st.nintyRelocs = prior ++ blk
  count : st.nintyCountReal = st.nintyRelocs.length
  /-- `last` is null, or the tail of the list. -/
  last : st.last = none ∧ blk = [] ∨ ∃ n, st.last = some n ∧ n + 1 = st.nintyRelocs.length
  valid : (validRegs st.reloc.hilo).card ≤ blk.length

/-- The state as a block starts. -/
theorem Bookkeeping.start {prior : List Word} {st : RealState}
    (hrelocs : st.nintyRelocs = prior) (hcount : st.nintyCountReal = st.nintyRelocs.length) :
    Bookkeeping prior [] { st with last := none, reloc.hilo := novlRelocInit } where
  relocs := by rw [hrelocs, List.append_nil]
  count := hcount
  last := Or.inl ⟨rfl, rfl⟩
  valid := by simp

theorem Bookkeeping.append {prior blk : List Word} {st : RealState}
    (hbk : Bookkeeping prior blk st) (nr : Word) {reloc : RelocState}
    (hvalid : (validRegs reloc.hilo).card ≤ (blk ++ [nr]).length) :
    Bookkeeping prior (blk ++ [nr]) (appendReloc nr { st with reloc }) where
  relocs := by simp [appendReloc, hbk.relocs]
  count := by simp [appendReloc, hbk.count]
  last := by
    refine Or.inr ?_
    rcases hbk.last with ⟨hnone, -⟩ | ⟨n, hsome, hn⟩
    · exact ⟨st.nintyRelocs.length, by simp [appendReloc, hnone], by simp [appendReloc]⟩
    · exact ⟨n + 1, by simp [appendReloc, hsome], by simp [appendReloc, hn]⟩
  valid := hvalid

/-- A deletion inside a non-empty block removes the block's last entry. -/
theorem Bookkeeping.delete {prior blk : List Word} {st : RealState}
    (hbk : Bookkeeping prior blk st) (hne : blk ≠ []) {reloc : RelocState}
    (hvalid : (validRegs reloc.hilo).card ≤ blk.dropLast.length) :
    ∃ st', deleteLast { st with reloc } = .ok st' ∧ st'.reloc = reloc ∧
      st'.nintyCountReal = st.nintyCountReal - 1 ∧ Bookkeeping prior blk.dropLast st' := by
  rcases hbk.last with ⟨-, hnil⟩ | ⟨n, hsome, hn⟩
  · exact absurd hnil hne
  · have hdrop : st.nintyRelocs.eraseIdx n = prior ++ blk.dropLast := by
      rw [show n = st.nintyRelocs.length - 1 by omega, List.eraseIdx_length_sub_one, hbk.relocs,
        List.dropLast_append_of_ne_nil hne]
    have hlen : (st.nintyRelocs.eraseIdx n).length = n := by
      rw [hdrop, List.length_append, List.length_dropLast]
      have hpos := List.length_pos_iff.mpr hne
      have htotal := congrArg List.length hbk.relocs
      rw [List.length_append] at htotal
      omega
    refine ⟨_, by rw [deleteLast, hsome], rfl, rfl, hdrop, ?_, ?_, hvalid⟩
    · change st.nintyCountReal - 1 = ((st.nintyRelocs.eraseIdx n).length : ℤ)
      rw [hlen, hbk.count, ← hn]
      omega
    · change (if n = 0 then none else some (n - 1)) = none ∧ blk.dropLast = [] ∨
        ∃ k, (if n = 0 then none else some (n - 1)) = some k ∧
          k + 1 = (st.nintyRelocs.eraseIdx n).length
      rw [hlen]
      -- Index 0 leaves `NULL` behind in place of the entry before it.
      by_cases hzero : n = 0
      · refine Or.inl ⟨by rw [if_pos hzero], ?_⟩
        have hnil := congrArg List.length hdrop
        rw [hlen, hzero, List.length_append] at hnil
        exact List.length_eq_zero_iff.mp (by omega)
      · exact Or.inr ⟨n - 1, by rw [if_neg hzero], by omega⟩

/-- One entry of the real pass does to the table what its result says,
never touches what earlier blocks left there, and keeps the count. -/
theorem realEntry_bookkeeping {g : Globals} {id : OvlSection} {st : RealState} {e : GElfRel}
    {prior blk : List Word} {reloc : RelocState} {v : RelocResult} (w : Word)
    (hbk : Bookkeeping prior blk st)
    (hdo : novlRelocDo g (relOff g e) e.type false st.reloc = some (v, reloc))
    (hresult : v = relocResult g e.type w st.reloc.hilo)
    (hhilo : reloc.hilo = relocHilo e.type (relOff g e) w st.reloc.hilo)
    (hv : v ≠ .error) :
    ∃ st', realEntry g id st e = .ok st' ∧ st'.reloc = reloc ∧
      st'.nintyCountReal = st.nintyCountReal + TailStack.net [resultEvent g id e v] ∧
      Bookkeeping prior (TailStack.step blk (resultEvent g id e v)) st' := by
  have hvalid : (validRegs reloc.hilo).card ≤
      (TailStack.step blk (resultEvent g id e v)).length := by
    rw [hhilo, hresult]
    exact card_validRegs_step hbk.valid
  have hkeep (hskip : resultEvent g id e v = .skip) :
      Bookkeeping prior (TailStack.step blk (resultEvent g id e v)) { st with reloc } := by
    rw [hskip] at hvalid ⊢
    exact ⟨hbk.relocs, hbk.count, hbk.last, hvalid⟩
  rw [realEntry, hdo]
  cases v with
  | error => exact absurd rfl hv
  | success => exact ⟨_, rfl, rfl, by simp [appendReloc, resultEvent], hbk.append _ hvalid⟩
  | failDontDeleteHi => exact ⟨_, rfl, rfl, by simp [resultEvent], hkeep rfl⟩
  | fail =>
      by_cases hlo : e.type = rMipsLo16
      · have hpop : resultEvent g id e .fail = .pop := by rw [resultEvent, if_pos hlo]
        -- The deleted register was VALID, so this block still has an entry.
        have hne : blk ≠ [] := by
          apply ne_nil_of_resultEvent_pop hbk.valid
          rw [← hresult, hpop]
        rw [hpop] at hvalid ⊢
        obtain ⟨st', hdel, hreloc, hcount, hbk'⟩ := hbk.delete hne hvalid
        refine ⟨st', ?_, hreloc, ?_, hbk'⟩
        · simpa only [hlo, if_true] using hdel
        · rw [hcount, TailStack.net_pop, TailStack.net_nil]
          omega
      · have hskip : resultEvent g id e .fail = .skip := by rw [resultEvent, if_neg hlo]
        exact ⟨_, by simp only [hlo, if_false], rfl, by simp [hskip], hkeep hskip⟩

/-! ### Whole runs -/

theorem realEntry_ok {g : Globals} {id : OvlSection} {st st' : RealState} {e : GElfRel}
    (hstep : realEntry g id st e = .ok st') :
    ∃ v, novlRelocDo g (relOff g e) e.type false st.reloc = some (v, st'.reloc) ∧
      v ≠ .error := by
  rw [realEntry] at hstep
  cases hdo : novlRelocDo g (relOff g e) e.type false st.reloc with
  | none =>
      rw [hdo] at hstep
      cases hstep
  | some result =>
      obtain ⟨v, reloc⟩ := result
      rw [hdo] at hstep
      cases v with
      | error => cases hstep
      | success =>
          cases hstep
          exact ⟨.success, rfl, by simp⟩
      | failDontDeleteHi =>
          cases hstep
          exact ⟨.failDontDeleteHi, rfl, by simp⟩
      | fail =>
          simp only at hstep
          split at hstep
          · rw [deleteLast] at hstep
            split at hstep
            · cases hstep
            · cases hstep
              exact ⟨.fail, rfl, by simp⟩
          · cases hstep
            exact ⟨.fail, rfl, by simp⟩

/-- The entry has a handler and names a word of `memory`. -/
def Handled (g : Globals) (e : GElfRel) : Prop :=
  relOff g e + 4 ≤ memorySize ∧ novlRelocJt e.type ≠ none

theorem handled_of_novlRelocDo {g : Globals} {e : GElfRel} {dryrun : Bool}
    {st st' : RelocState} {v : RelocResult}
    (hdo : novlRelocDo g (relOff g e) e.type dryrun st = some (v, st')) (hv : v ≠ .error) :
    Handled g e := by
  rw [novlRelocDo] at hdo
  cases hjt : novlRelocJt e.type with
  | none =>
      simp only [hjt, Option.some.injEq, Prod.mk.injEq] at hdo
      exact absurd hdo.1.symm hv
  | some handler =>
      refine ⟨?_, by simp [hjt]⟩
      by_contra hin
      simp only [hjt, if_neg hin] at hdo
      cases hdo

theorem resultEvent_push {g : Globals} {id : OvlSection} {e : GElfRel} {v : RelocResult}
    {w : Word} (hpush : resultEvent g id e v = .push w) :
    v = .success ∧ w = nintyReloc g id e := by
  cases v with
  | success => exact ⟨rfl, by simpa [resultEvent, eq_comm] using hpush⟩
  | fail =>
      rw [resultEvent] at hpush
      split at hpush <;> cases hpush
  | failDontDeleteHi | error => cases hpush

/-- One entry that was processed does to its block's words what its result
says. -/
theorem realEntry_step {g : Globals} {id : OvlSection} {st st' : RealState} {e : GElfRel}
    {prior blk : List Word} (hbk : Bookkeeping prior blk st)
    (hstep : realEntry g id st e = .ok st') :
    ∃ v, novlRelocDo g (relOff g e) e.type false st.reloc = some (v, st'.reloc) ∧
      v ≠ .error ∧ Bookkeeping prior (TailStack.step blk (resultEvent g id e v)) st' := by
  obtain ⟨v, hdo, hv⟩ := realEntry_ok hstep
  obtain ⟨m', hdecides⟩ := novlRelocDo_decides g e.type (relOff g e) st.reloc.memory
    st.reloc.hilo (handled_of_novlRelocDo hdo hv).1
  obtain ⟨hresult, hreloc⟩ := Prod.mk.inj (Option.some.inj (hdo.symm.trans hdecides))
  obtain ⟨st₁, hstep₁, -, -, hbk₁⟩ := realEntry_bookkeeping (loadWord st.reloc.memory (relOff g e))
    hbk hdo hresult (by rw [hreloc]) hv
  obtain rfl : st₁ = st' := Except.ok.inj (hstep₁.symm.trans hstep)
  exact ⟨v, hdo, hv, hbk₁⟩

/-- The only word it can add is its own overlay relocation. -/
theorem realEntry_keeps {g : Globals} {id : OvlSection} {st st' : RealState} {e : GElfRel}
    {prior blk : List Word} (hbk : Bookkeeping prior blk st)
    (hstep : realEntry g id st e = .ok st') :
    ∃ blk', Bookkeeping prior blk' st' ∧
      ∀ w ∈ blk', w ∈ blk ∨ Handled g e ∧ w = nintyReloc g id e := by
  obtain ⟨v, hdo, hv, hbk'⟩ := realEntry_step hbk hstep
  refine ⟨_, hbk', fun w hw => ?_⟩
  cases hevent : resultEvent g id e v with
  | push a =>
      rw [hevent] at hw
      rcases List.mem_append.mp hw with hw | hw
      · exact Or.inl hw
      · rw [List.mem_singleton.mp hw]
        exact Or.inr ⟨handled_of_novlRelocDo hdo hv, (resultEvent_push hevent).2⟩
  | pop =>
      rw [hevent] at hw
      exact Or.inl (List.dropLast_subset _ hw)
  | skip =>
      rw [hevent] at hw
      exact Or.inl hw

theorem realEntries_keeps {g : Globals} {id : OvlSection} {es : List GElfRel}
    {st st' : RealState} {prior blk : List Word} (hbk : Bookkeeping prior blk st)
    (hrun : es.foldlM (realEntry g id) st = .ok st') :
    ∃ blk', Bookkeeping prior blk' st' ∧
      ∀ w ∈ blk', w ∈ blk ∨ ∃ e ∈ es, Handled g e ∧ w = nintyReloc g id e := by
  induction es generalizing st blk with
  | nil =>
      cases hrun
      exact ⟨blk, hbk, fun w hw => Or.inl hw⟩
  | cons e es ih =>
      rw [List.foldlM_cons] at hrun
      obtain ⟨st₁, hstep, hrest⟩ := exists_of_bind_eq_ok hrun
      obtain ⟨blk₁, hbk₁, hmem₁⟩ := realEntry_keeps hbk hstep
      obtain ⟨blk₂, hbk₂, hmem₂⟩ := ih hbk₁ hrest
      refine ⟨blk₂, hbk₂, fun w hw => ?_⟩
      rcases hmem₂ w hw with hw | ⟨x, hx, hrest⟩
      · rcases hmem₁ w hw with hw | hrest
        · exact Or.inl hw
        · exact Or.inr ⟨e, List.mem_cons_self, hrest⟩
      · exact Or.inr ⟨x, List.mem_cons_of_mem _ hx, hrest⟩

/-- Sections that were processed keep the count right and add overlay
relocations of their own entries only. -/
theorem realBlocks_bookkeeping {g : Globals} {bs : List RelBlock} {st st' : RealState}
    (hcount : st.nintyCountReal = st.nintyRelocs.length)
    (hrun : bs.foldlM (realBlock g) st = .ok st') :
    st'.nintyCountReal = st'.nintyRelocs.length ∧
    ∃ added, st'.nintyRelocs = st.nintyRelocs ++ added ∧
      ∀ w ∈ added, ∃ b ∈ bs, ∃ e ∈ b.rels, Handled g e ∧ w = nintyReloc g b.id e := by
  induction bs generalizing st with
  | nil =>
      cases hrun
      exact ⟨hcount, [], by simp, by simp⟩
  | cons b bs ih =>
      rw [List.foldlM_cons] at hrun
      obtain ⟨st₁, hstep, hrest⟩ := exists_of_bind_eq_ok hrun
      obtain ⟨blk, hbk, hmem⟩ := realEntries_keeps (Bookkeeping.start rfl hcount) hstep
      obtain ⟨hcount', added, hadded, hmem'⟩ := ih hbk.count hrest
      refine ⟨hcount', blk ++ added, ?_, fun w hw => ?_⟩
      · rw [hadded, hbk.relocs, List.append_assoc]
      · rcases List.mem_append.mp hw with hw | hw
        · rcases hmem w hw with hnil | ⟨e, he, hrest⟩
          · simp at hnil
          · exact ⟨b, List.mem_cons_self, e, (InsertionSort.mem_sort _).mp he, hrest⟩
        · obtain ⟨c, hc, hrest⟩ := hmem' w hw
          exact ⟨c, List.mem_cons_of_mem _ hc, hrest⟩

end Novl
