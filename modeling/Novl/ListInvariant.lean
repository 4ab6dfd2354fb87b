import Novl.Calls
import Novl.ImageAccess

/-!
The list of overlay relocations over whole runs of the real pass.

A run stops in the middle of a block for this: `start` is the state in
which the block began, `pre` the entries it has come through. The list,
its count and its tail pointer outlive the block, the register table does
not, so what the invariant compares with the registers is what the calls
of this block alone have added and deleted.
-/

namespace Novl

open ByteMemory FallibleRun

/-- What holds of the list in a block that started in `start` and has come
through the entries `pre`. -/
structure ListInvariant (g : Globals) (id : OvlSection) (start : RealState)
    (pre : List GElfRel) (st : RealState) : Prop where
  count : st.nintyCountReal = st.nintyRelocs.length
  /-- `last` is null, or the tail of the list. -/
  last : st.last = none ∨ ∃ n, st.last = some n ∧ n + 1 = st.nintyRelocs.length
  /-- Additions of the block less its deletions. -/
  added : st.nintyCountReal =
    start.nintyCountReal + TailStack.net (callEvents g id start.reloc pre)
  valid : ((validRegs st.reloc.hilo).card : ℤ) ≤ TailStack.net (callEvents g id start.reloc pre)
  /-- The entries generated before the block are all there. -/
  earlier : start.nintyRelocs <+: st.nintyRelocs

/-- The call for an entry asks for the last node to be deleted. -/
def AsksDeletion (g : Globals) (s : RelocState) (e : GElfRel) : Prop :=
  e.type = rMipsLo16 ∧ callResult g s e = .fail

/-- The entry deletes a node that its own block has added. -/
def DeletesOwn (g : Globals) (id : OvlSection) (start st : RealState) (e : GElfRel) : Prop :=
  ∃ n st', st.last = some n ∧ start.nintyRelocs.length ≤ n ∧
    realEntry g id st e = .ok st' ∧ st'.nintyRelocs = st.nintyRelocs.eraseIdx n ∧
    0 ≤ st'.nintyCountReal ∧ start.nintyRelocs <+: st'.nintyRelocs

section Block

variable {g : Globals} {id : OvlSection} {prior blk : List Word} {st : RealState} {e : GElfRel}

/-- The pass goes on behind every call that is not in error, and the count
moves by what the call has done to the list. -/
theorem realEntry_of_call (hbk : Bookkeeping prior blk st)
    (hv : callResult g st.reloc e ≠ .error) :
    ∃ st', realEntry g id st e = .ok st' ∧ st'.reloc = callState g st.reloc e ∧
      st'.nintyCountReal = st.nintyCountReal +
        TailStack.net [resultEvent g id e (callResult g st.reloc e)] := by
  cases hdo : novlRelocDo g (relOff g e) e.type false st.reloc with
  | none => exact absurd (by rw [callResult, hdo]) hv
  | some result =>
      obtain ⟨v, reloc⟩ := result
      have hresult : callResult g st.reloc e = v := by rw [callResult, hdo]
      have hstate : callState g st.reloc e = reloc := by rw [callState, hdo]
      rw [hresult] at hv ⊢
      have hin := (handled_of_novlRelocDo hdo hv).1
      obtain ⟨hword, hhilo⟩ := callResult_eq (s := st.reloc) hin
      rw [hresult] at hword
      rw [hstate] at hhilo ⊢
      obtain ⟨st', hstep, hreloc, hcount, -⟩ : ∃ st', realEntry g id st e = .ok st' ∧ _ :=
        realEntry_bookkeeping _ hbk hdo hword hhilo hv
      exact ⟨st', hstep, hreloc, hcount⟩

theorem realEntries_count {es : List GElfRel} {st' : RealState} (hbk : Bookkeeping prior blk st)
    (hrun : es.foldlM (realEntry g id) st = .ok st') :
    st'.nintyCountReal =
      st.nintyCountReal + TailStack.net (callEvents g id st.reloc es) := by
  induction es generalizing st blk with
  | nil =>
      cases hrun
      simp [callEvents]
  | cons e es ih =>
      rw [List.foldlM_cons] at hrun
      obtain ⟨st₁, hstep, hrest⟩ := exists_of_bind_eq_ok hrun
      obtain ⟨-, hv, hreloc, hbk₁⟩ := realEntry_call hbk hstep
      obtain ⟨st₂, hstep₂, -, hcount⟩ : ∃ st₂, realEntry g id st e = .ok st₂ ∧ _ :=
        realEntry_of_call hbk hv
      obtain rfl : st₁ = st₂ := Except.ok.inj (hstep.symm.trans hstep₂)
      have hsplit := TailStack.net_append [resultEvent g id e (callResult g st.reloc e)]
        (callEvents g id (callState g st.reloc e) es)
      rw [ih hbk₁ hrest, hreloc, hcount, callEvents, add_assoc, ← hsplit, List.singleton_append]

/-- A LO16 that asks for a deletion has an unused HI16 in its block, whose
entry is what the deletion takes. -/
theorem deletesOwn_of_bookkeeping {start : RealState}
    (hbk : Bookkeeping start.nintyRelocs blk st) (hask : AsksDeletion g st.reloc e) :
    DeletesOwn g id start st e := by
  obtain ⟨htype, hfail⟩ := hask
  have hv : callResult g st.reloc e ≠ .error := by
    rw [hfail]
    simp
  obtain ⟨st', hstep, -⟩ : ∃ st', realEntry g id st e = .ok st' ∧ _ := realEntry_of_call hbk hv
  obtain ⟨hhandled, -, -, hbk'⟩ := realEntry_call hbk hstep
  have hpop : resultEvent g id e (callResult g st.reloc e) = .pop := by
    rw [hfail, resultEvent, if_pos htype]
  have hne : blk ≠ [] := by
    have hpop' := hpop
    rw [(callResult_eq hhandled.1).1] at hpop'
    exact ne_nil_of_resultEvent_pop hbk.valid hpop'
  rcases hbk.last with ⟨-, hnil⟩ | ⟨n, hlast, hn⟩
  · exact absurd hnil hne
  · rw [hpop] at hbk'
    have hlength := congrArg List.length hbk.relocs
    have hpos := List.length_pos_iff.mpr hne
    rw [List.length_append] at hlength
    refine ⟨n, st', hlast, by omega, hstep, ?_, ?_, ?_⟩
    · rw [show n = st.nintyRelocs.length - 1 by omega, List.eraseIdx_length_sub_one, hbk.relocs,
        hbk'.relocs, List.dropLast_append_of_ne_nil hne]
      rfl
    · rw [hbk'.count]
      exact Int.natCast_nonneg _
    · rw [hbk'.relocs]
      exact List.prefix_append _ _

theorem listInvariant_of_bookkeeping {start : RealState} {pre : List GElfRel}
    (hcount : start.nintyCountReal = start.nintyRelocs.length)
    (hbk : Bookkeeping start.nintyRelocs blk st)
    (hadded : st.nintyCountReal =
      start.nintyCountReal + TailStack.net (callEvents g id start.reloc pre)) :
    ListInvariant g id start pre st where
  count := hbk.count
  last := hbk.last.imp_left And.left
  added := hadded
  valid := by
    have hlength := congrArg List.length hbk.relocs
    rw [List.length_append] at hlength
    have hvalid := hbk.valid
    have hlist := hbk.count
    omega
  earlier := by
    rw [hbk.relocs]
    exact List.prefix_append _ _

end Block

/-- After every step of a real pass the count is the length of the list,
`last` is null or its tail, and the block has added at least as many
entries as there are unused HI16s. So a deletion finds an entry of its own
block, and a pass whose entries name words of `memory` stays defined. -/
theorem realPass_listInvariant {g : Globals} {m : Memory} {before : List RelBlock}
    {id : OvlSection} {pre : List GElfRel} {st : RealState}
    (hst : realBefore g m before id pre = .ok st) :
    (∃ start, realBefore g m before id [] = .ok start ∧ ListInvariant g id start pre st ∧
      ∀ e, AsksDeletion g st.reloc e → DeletesOwn g id start st e) ∧
    ∀ bs : List RelBlock, (∀ b ∈ bs, ∀ e ∈ b.rels, relOff g e + 4 ≤ memorySize) →
      realPass g m bs ≠ .error .undefinedBehaviour := by
  refine ⟨?_, fun bs hinside hundef => ?_⟩
  · obtain ⟨start, hstart, hrun⟩ : ∃ start, realBefore g m before id [] = .ok start ∧ _ :=
      exists_realBefore_of_append hst
    obtain ⟨st₀, hblocks, hentries⟩ := exists_of_bind_eq_ok hstart
    obtain rfl := Except.ok.inj hentries
    have hcount := (realBlocks_bookkeeping rfl hblocks).1
    have hbk₀ := Bookkeeping.start rfl hcount
    obtain ⟨-, -, -, hbk⟩ := realEntries_calls hbk₀ hrun
    have hadded := realEntries_count hbk₀ hrun
    exact ⟨_, hstart, listInvariant_of_bookkeeping hcount hbk hadded,
      fun e => deletesOwn_of_bookkeeping hbk⟩
  · obtain ⟨b, hb, e, he, -, hout⟩ := namesOutside_of_realPass hundef
    have hin := hinside b hb e he
    omega

/-- After a block with the pointer, the second LO16 of the sample deletes
an entry of its own block. -/
theorem mixedText_deletesOwn :
    ∃ start st, realBefore mixedGlobals mixedMemory [⟨.text, [⟨0x80000014, 2⟩]⟩] .text [] =
        .ok start ∧
      realBefore mixedGlobals mixedMemory [⟨.text, [⟨0x80000014, 2⟩]⟩] .text
        [⟨0x80000000, 5⟩, ⟨0x80000004, 5⟩, ⟨0x80000008, 6⟩] = .ok st ∧
      start.nintyRelocs.length = 1 ∧ st.nintyRelocs.length = 4 ∧
      DeletesOwn mixedGlobals .text start st ⟨0x8000000C, 6⟩ := by
  obtain ⟨st, hst, hfail⟩ := exists_ok_of_map
    (x := realBefore mixedGlobals mixedMemory [⟨.text, [⟨0x80000014, 2⟩]⟩] .text
      [⟨0x80000000, 5⟩, ⟨0x80000004, 5⟩, ⟨0x80000008, 6⟩])
    (fun st => decide (st.nintyRelocs.length = 4 ∧
      callResult mixedGlobals st.reloc ⟨0x8000000C, 6⟩ = .fail)) (by decide +kernel)
  obtain ⟨start', hstart', hone⟩ := exists_ok_of_map
    (x := realBefore mixedGlobals mixedMemory [⟨.text, [⟨0x80000014, 2⟩]⟩] .text [])
    (fun start => decide (start.nintyRelocs.length = 1)) (by decide +kernel)
  obtain ⟨hfour, hcall⟩ := of_decide_eq_true hfail
  obtain ⟨⟨start, hstart, -, hdeletes⟩, -⟩ := realPass_listInvariant hst
  obtain rfl : start' = start := Except.ok.inj (hstart'.symm.trans hstart)
  exact ⟨start', st, hstart, hst, of_decide_eq_true hone, hfour, hdeletes _ ⟨rfl, hcall⟩⟩

end Novl
