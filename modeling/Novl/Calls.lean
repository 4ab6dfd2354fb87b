import Novl.Pairing
import Novl.Stops

/-!
A real pass call by call.

The plan of a pass reads every word from one image, which is right as long
as the entries' words do not overlap. Here the state goes from one call to
the next as it does in the pass itself, and what the calls return decides
about the table. This holds of any list of entries: words may overlap, and
an entry may come twice.
-/

namespace Novl

open ByteMemory FallibleRun

/-- What the call for an entry returns. -/
def callResult (g : Globals) (s : RelocState) (e : GElfRel) : RelocResult :=
  match novlRelocDo g (relOff g e) e.type false s with
  | none => .error
  | some (v, _) => v

/-- The state the call leaves behind. -/
def callState (g : Globals) (s : RelocState) (e : GElfRel) : RelocState :=
  match novlRelocDo g (relOff g e) e.type false s with
  | none => s
  | some (_, s') => s'

/-- The state after the calls for a list of entries. -/
def stateAfter (g : Globals) (s : RelocState) (es : List GElfRel) : RelocState :=
  es.foldl (callState g) s

def callResults (g : Globals) : RelocState → List GElfRel → List RelocResult
  | _, [] => []
  | s, e :: es => callResult g s e :: callResults g (callState g s e) es

/-- What the calls do to the table. -/
def callEvents (g : Globals) (id : OvlSection) :
    RelocState → List GElfRel → List (TailStack.Event Word)
  | _, [] => []
  | s, e :: es =>
    resultEvent g id e (callResult g s e) :: callEvents g id (callState g s e) es

@[simp] theorem stateAfter_nil (g : Globals) (s : RelocState) : stateAfter g s [] = s := rfl

@[simp] theorem stateAfter_cons (g : Globals) (s : RelocState) (e : GElfRel)
    (es : List GElfRel) : stateAfter g s (e :: es) = stateAfter g (callState g s e) es := rfl

theorem stateAfter_append (g : Globals) (s : RelocState) (es fs : List GElfRel) :
    stateAfter g s (es ++ fs) = stateAfter g (stateAfter g s es) fs := List.foldl_append

theorem callEvents_append (g : Globals) (id : OvlSection) (s : RelocState)
    (es fs : List GElfRel) :
    callEvents g id s (es ++ fs) =
      callEvents g id s es ++ callEvents g id (stateAfter g s es) fs := by
  induction es generalizing s with
  | nil => rfl
  | cons e es ih => simp [callEvents, ih]

theorem callEvents_take (g : Globals) (id : OvlSection) (s : RelocState) (es : List GElfRel)
    (n : ℕ) : callEvents g id s (es.take n) = (callEvents g id s es).take n := by
  induction es generalizing s n with
  | nil => simp [callEvents]
  | cons e es ih =>
      cases n with
      | zero => rfl
      | succ n => simp [callEvents, ih]

/-- A call that reads inside `memory` decides by the word it finds. -/
theorem callResult_eq {g : Globals} {s : RelocState} {e : GElfRel}
    (hin : relOff g e + 4 ≤ memorySize) :
    callResult g s e = relocResult g e.type (loadWord s.memory (relOff g e)) s.hilo ∧
      (callState g s e).hilo =
        relocHilo e.type (relOff g e) (loadWord s.memory (relOff g e)) s.hilo := by
  obtain ⟨m', hdo⟩ := novlRelocDo_decides g e.type (relOff g e) s.memory s.hilo hin
  rw [callResult, callState, hdo]
  exact ⟨rfl, rfl⟩

/-! ### Runs of entries -/

theorem realEntry_call {g : Globals} {id : OvlSection} {st st' : RealState} {e : GElfRel}
    {prior blk : List Word} (hbk : Bookkeeping prior blk st)
    (hstep : realEntry g id st e = .ok st') :
    Handled g e ∧ callResult g st.reloc e ≠ .error ∧ st'.reloc = callState g st.reloc e ∧
      Bookkeeping prior
        (TailStack.step blk (resultEvent g id e (callResult g st.reloc e))) st' := by
  obtain ⟨v, hdo, hv, hbk'⟩ := realEntry_step hbk hstep
  have hresult : callResult g st.reloc e = v := by rw [callResult, hdo]
  have hstate : callState g st.reloc e = st'.reloc := by rw [callState, hdo]
  rw [hresult, hstate]
  exact ⟨handled_of_novlRelocDo hdo hv, hv, rfl, hbk'⟩

/-- A run of entries that comes to its end. -/
theorem realEntries_calls {g : Globals} {id : OvlSection} {es : List GElfRel}
    {st st' : RealState} {prior blk : List Word} (hbk : Bookkeeping prior blk st)
    (hrun : es.foldlM (realEntry g id) st = .ok st') :
    (∀ e ∈ es, Handled g e) ∧ (∀ v ∈ callResults g st.reloc es, v ≠ .error) ∧
      st'.reloc = stateAfter g st.reloc es ∧
      Bookkeeping prior (TailStack.run blk (callEvents g id st.reloc es)) st' := by
  induction es generalizing st blk with
  | nil =>
      cases hrun
      exact ⟨by simp, by simp [callResults], rfl, hbk⟩
  | cons e es ih =>
      rw [List.foldlM_cons] at hrun
      obtain ⟨st₁, hstep, hrest⟩ := exists_of_bind_eq_ok hrun
      obtain ⟨hhandled, hresult, hreloc, hbk₁⟩ := realEntry_call hbk hstep
      obtain ⟨hall, hresults, hafter, hbk'⟩ := ih hbk₁ hrest
      rw [hreloc] at hresults hafter hbk'
      exact ⟨List.forall_mem_cons.mpr ⟨hhandled, hall⟩,
        List.forall_mem_cons.mpr ⟨hresult, hresults⟩, hafter, hbk'⟩

/-- The rows hold positions of the entries so far, or what they held before. -/
theorem remembers_stateAfter {g : Globals} {s : RelocState} {es : List GElfRel}
    (hin : ∀ e ∈ es, relOff g e + 4 ≤ memorySize) {p : ℕ}
    (hp : Remembers (stateAfter g s es).hilo p) :
    (∃ e ∈ es, p = relOff g e) ∨ Remembers s.hilo p := by
  induction es generalizing s with
  | nil => exact Or.inr hp
  | cons e es ih =>
      obtain ⟨he, hes⟩ := List.forall_mem_cons.mp hin
      rcases ih hes hp with ⟨x, hx, hpos⟩ | hrem
      · exact Or.inl ⟨x, List.mem_cons_of_mem _ hx, hpos⟩
      · rw [(callResult_eq he).2] at hrem
        rcases remembers_relocHilo hrem with ⟨hpos, -⟩ | hrem
        · exact Or.inl ⟨e, List.mem_cons_self, hpos⟩
        · exact Or.inr hrem

/-- Each block starts with empty rows. -/
theorem remembers_realBefore {g : Globals} {m : Memory} {before : List RelBlock}
    {id : OvlSection} {pre : List GElfRel} {st : RealState} {p : ℕ}
    (hst : realBefore g m before id pre = .ok st) (hp : Remembers st.reloc.hilo p) :
    ∃ e ∈ pre, Handled g e ∧ p = relOff g e := by
  obtain ⟨st₀, hblocks, hentries⟩ := exists_of_bind_eq_ok hst
  have hcount := (realBlocks_bookkeeping rfl hblocks).1
  obtain ⟨hhandled, -, hreloc, -⟩ :=
    realEntries_calls (Bookkeeping.start rfl hcount) hentries
  rw [hreloc] at hp
  rcases remembers_stateAfter (fun e he => (hhandled e he).1) hp with ⟨e, he, hpos⟩ | hinit
  · exact ⟨e, he, hhandled e he, hpos⟩
  · exact absurd hinit (not_remembers_init p)

theorem exists_realBefore_of_append {g : Globals} {m : Memory} {before : List RelBlock}
    {id : OvlSection} {pre es : List GElfRel} {st : RealState}
    (hst : realBefore g m before id (pre ++ es) = .ok st) :
    ∃ st₀, realBefore g m before id pre = .ok st₀ ∧ es.foldlM (realEntry g id) st₀ = .ok st := by
  obtain ⟨st₁, hblocks, hentries⟩ := exists_of_bind_eq_ok hst
  rw [List.foldlM_append] at hentries
  obtain ⟨st₀, hpre, hes⟩ := exists_of_bind_eq_ok hentries
  refine ⟨st₀, ?_, hes⟩
  rw [realBefore, hblocks]
  exact hpre

theorem realBefore_append {g : Globals} {m : Memory} {before : List RelBlock}
    {id : OvlSection} {pre es : List GElfRel} {st : RealState}
    (hst : realBefore g m before id pre = .ok st) :
    realBefore g m before id (pre ++ es) = es.foldlM (realEntry g id) st := by
  obtain ⟨st₀, hblocks, hentries⟩ := exists_of_bind_eq_ok hst
  rw [realBefore, hblocks]
  change (pre ++ es).foldlM (realEntry g id) _ = _
  rw [List.foldlM_append, hentries]
  rfl

/-- A pass that comes to its end goes on from any point inside a block:
the rest of the block, and the blocks after it. -/
theorem realPass_rest {g : Globals} {m : Memory} {before after : List RelBlock} {b : RelBlock}
    {pre post : List GElfRel} {real st : RealState}
    (hreal : realPass g m (before ++ b :: after) = .ok real)
    (hsplit : relList b.rels = pre ++ post)
    (hst : realBefore g m before b.id pre = .ok st) :
    ∃ st', post.foldlM (realEntry g b.id) st = .ok st' ∧
      after.foldlM (realBlock g) st' = .ok real := by
  obtain ⟨st₀, hblocks, hentries⟩ := exists_of_bind_eq_ok hst
  rw [realPass, List.foldlM_append, hblocks] at hreal
  change (b :: after).foldlM (realBlock g) st₀ = .ok real at hreal
  rw [List.foldlM_cons] at hreal
  obtain ⟨st', hblock, hafter⟩ := exists_of_bind_eq_ok hreal
  rw [realBlock, hsplit, List.foldlM_append, hentries] at hblock
  exact ⟨st', hblock, hafter⟩

/-! ### Words that stay in the table -/

/-- What is in the table after the entries `done` of a block stays there:
every later table, over the entries `rest` of the block and at the end of
the pass, begins with it. -/
def StaysInTable (g : Globals) (m : Memory) (before : List RelBlock) (b : RelBlock)
    (done rest : List GElfRel) (real : RealState) : Prop :=
  ∃ st, realBefore g m before b.id done = .ok st ∧
    (∀ q st', q <+: rest → realBefore g m before b.id (done ++ q) = .ok st' →
      st.nintyRelocs <+: st'.nintyRelocs) ∧
    st.nintyRelocs <+: real.nintyRelocs

section Table

variable {g : Globals} {m : Memory} {before after : List RelBlock} {b : RelBlock}
  {pre post : List GElfRel} {h : GElfRel} {real st : RealState}

/-- An entry that succeeds is the last of its block's words. -/
theorem bookkeeping_after_success {st₀ : RealState} {prior blk : List Word}
    (hst₀ : realBefore g m before b.id pre = .ok st₀) (hbk : Bookkeeping prior blk st₀)
    (hst : realBefore g m before b.id (pre ++ [h]) = .ok st)
    (hsuccess : callResult g st₀.reloc h = .success) :
    Bookkeeping prior (blk ++ [nintyReloc g b.id h]) st := by
  rw [realBefore_append hst₀, List.foldlM_cons] at hst
  obtain ⟨st₁, hstep, hnil⟩ := exists_of_bind_eq_ok hst
  cases hnil
  have hbk' := (realEntry_call hbk hstep).2.2.2
  rwa [hsuccess] at hbk'

/-- What a block has in the table stays exactly when the rest of the block
takes away only what it has added itself. -/
theorem staysInTable_iff {prior blk : List Word}
    (hreal : realPass g m (before ++ b :: after) = .ok real)
    (hsplit : relList b.rels = pre ++ post)
    (hst : realBefore g m before b.id pre = .ok st) (hbk : Bookkeeping prior blk st)
    (hne : blk ≠ []) :
    StaysInTable g m before b pre post real ↔
      TailStack.Covered (callEvents g b.id st.reloc post) := by
  obtain ⟨st', hpost, hafter⟩ := realPass_rest hreal hsplit hst
  obtain ⟨-, -, -, hbk'⟩ := realEntries_calls hbk hpost
  obtain ⟨-, later, hlater, -⟩ := realBlocks_bookkeeping hbk'.count hafter
  -- Every later table is that of the earlier blocks and a stack on top.
  have htable {q : List GElfRel} {u : RealState}
      (hu : realBefore g m before b.id (pre ++ q) = .ok u) :
      u.nintyRelocs = prior ++ TailStack.run blk (callEvents g b.id st.reloc q) := by
    rw [realBefore_append hst] at hu
    exact (realEntries_calls hbk hu).2.2.2.relocs
  have hstack : TailStack.Covered (callEvents g b.id st.reloc post) ↔
      ∀ q, q <+: post → blk <+: TailStack.run blk (callEvents g b.id st.reloc q) := by
    have hiff : (∀ p, p <+: callEvents g b.id st.reloc post → blk <+: TailStack.run (blk ++ []) p) ↔
        TailStack.Covered (callEvents g b.id st.reloc post) :=
      TailStack.forall_prefix_run_iff hne
    rw [← hiff, List.append_nil]
    constructor
    · intro hall q hq
      apply hall
      rw [List.prefix_iff_eq_take.mp hq, callEvents_take]
      exact List.take_prefix _ _
    · intro hall p hp
      rw [List.prefix_iff_eq_take.mp hp, ← callEvents_take]
      exact hall _ (List.take_prefix _ _)
  rw [hstack]
  constructor
  · rintro ⟨st₁, hst₁, hprefixes, -⟩ q hq
    obtain rfl : st = st₁ := Except.ok.inj (hst.symm.trans hst₁)
    obtain ⟨rest, rfl⟩ := hq
    rw [List.foldlM_append] at hpost
    obtain ⟨u, hu, -⟩ := exists_of_bind_eq_ok hpost
    rw [← realBefore_append hst] at hu
    have hprefix := hprefixes q u (List.prefix_append _ _) hu
    rwa [htable hu, hbk.relocs, List.prefix_append_right_inj] at hprefix
  · intro hall
    refine ⟨st, hst, fun q u hq hu => ?_, ?_⟩
    · rw [htable hu, hbk.relocs, List.prefix_append_right_inj]
      exact hall q hq
    · rw [hlater, hbk.relocs, hbk'.relocs, List.append_assoc, List.prefix_append_right_inj]
      exact (hall post (List.prefix_refl _)).trans (List.prefix_append _ _)

/-- Every word of the table comes from an entry processed so far. -/
theorem mem_realBefore {id : OvlSection} {w : Word} (hst : realBefore g m before id pre = .ok st)
    (hw : w ∈ st.nintyRelocs) :
    (∃ b ∈ before, ∃ e ∈ b.rels, w = nintyReloc g b.id e) ∨ ∃ e ∈ pre, w = nintyReloc g id e := by
  obtain ⟨st₀, hblocks, hentries⟩ := exists_of_bind_eq_ok hst
  obtain ⟨hcount, added, hadded, hfrom⟩ := realBlocks_bookkeeping rfl hblocks
  obtain ⟨blk, hbk, hblk⟩ := realEntries_keeps (Bookkeeping.start rfl hcount) hentries
  rw [hbk.relocs, hadded, List.nil_append] at hw
  rcases List.mem_append.mp hw with hw | hw
  · obtain ⟨b, hb, e, he, -, rfl⟩ := hfrom w hw
    exact Or.inl ⟨b, hb, e, he, rfl⟩
  · rcases hblk w hw with hnil | ⟨e, he, -, rfl⟩
    · exact absurd hnil (by simp)
    · exact Or.inr ⟨e, he, rfl⟩

theorem mem_callEvents {id : OvlSection} {s : RelocState} {es : List GElfRel} {w : Word}
    (hw : .push w ∈ callEvents g id s es) : ∃ e ∈ es, w = nintyReloc g id e := by
  induction es generalizing s with
  | nil => exact absurd hw (by simp [callEvents])
  | cons e es ih =>
      rcases List.mem_cons.mp hw with hhead | htail
      · exact ⟨e, List.mem_cons_self, (resultEvent_push hhead.symm).2⟩
      · obtain ⟨x, hx, hword⟩ := ih htail
        exact ⟨x, List.mem_cons_of_mem _ hx, hword⟩

/-- If no other entry of the pass has the same word, that of an entry stays
in the table just when it is there at the end. -/
theorem staysInTable_iff_mem {st₀ : RealState}
    (hreal : realPass g m (before ++ b :: after) = .ok real)
    (hsplit : relList b.rels = pre ++ h :: post)
    (hst₀ : realBefore g m before b.id pre = .ok st₀)
    (hst : realBefore g m before b.id (pre ++ [h]) = .ok st)
    (hsuccess : callResult g st₀.reloc h = .success)
    (hentries : ∀ e ∈ pre ++ post, nintyReloc g b.id h ≠ nintyReloc g b.id e)
    (hblocks : ∀ c ∈ before ++ after, ∀ e ∈ c.rels, nintyReloc g b.id h ≠ nintyReloc g c.id e) :
    StaysInTable g m before b (pre ++ [h]) post real ↔
      nintyReloc g b.id h ∈ real.nintyRelocs := by
  have hsplit' : relList b.rels = (pre ++ [h]) ++ post := by
    rw [hsplit, List.append_cons]
  obtain ⟨prior, blk, hbk⟩ := exists_bookkeeping_realBefore hst₀
  have hnew : nintyReloc g b.id h ∉ prior ++ blk := by
    rw [← hbk.relocs]
    intro hmem
    rcases mem_realBefore hst₀ hmem with ⟨c, hc, e, he, heq⟩ | ⟨e, he, heq⟩
    · exact hblocks c (List.mem_append_left _ hc) e he heq
    · exact hentries e (List.mem_append_left _ he) heq
  have hbk₁ := bookkeeping_after_success hst₀ hbk hst hsuccess
  obtain ⟨st', hpost, hafter⟩ := realPass_rest hreal hsplit' hst
  obtain ⟨-, -, -, hbk'⟩ := realEntries_calls hbk₁ hpost
  obtain ⟨-, later, hlater, hfrom⟩ := realBlocks_bookkeeping hbk'.count hafter
  have hnotLater : nintyReloc g b.id h ∉ later := by
    intro hmem
    obtain ⟨c, hc, e, he, -, heq⟩ := hfrom _ hmem
    exact hblocks c (List.mem_append_right _ hc) e he heq
  have hnotPushed : .push (nintyReloc g b.id h) ∉ callEvents g b.id st.reloc post := by
    intro hmem
    obtain ⟨e, he, heq⟩ := mem_callEvents hmem
    exact hentries e (List.mem_append_right _ he) heq
  rw [List.mem_append, not_or] at hnew
  rw [staysInTable_iff hreal hsplit' hst hbk₁ (by simp), hlater, hbk'.relocs, List.mem_append,
    List.mem_append, or_iff_left hnotLater, or_iff_right hnew.1]
  have hrun : nintyReloc g b.id h ∈ TailStack.run blk ([] ++ .push (nintyReloc g b.id h) ::
      callEvents g b.id st.reloc post) ↔ TailStack.Covered (callEvents g b.id st.reloc post) :=
    TailStack.mem_run_iff_covered hnew.2 List.not_mem_nil hnotPushed
  exact hrun.symm

end Table

end Novl
