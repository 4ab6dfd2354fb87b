import Novl.Calls

/-!
Which HI16s stay in the table, and which of those are relocated.

A HI16 is put in the table at once, before it is known whether a LO16 will
use it. The first LO16 on its register takes its word away again if it
resolves to no section, and any later one leaves the table alone then,
because the row says that the HI16 was used. It says so after a failure,
too; so of a group of LO16s only the first decides, and one that resolves
later is in the table without its HI16. A HI16 that no LO16 follows stays
as it is, in the table and in the image.
-/

namespace Novl

open ByteMemory FallibleRun SplitWord

/-! ### A group of LO16s -/

/-- The entries are LO16s on register `r`, each when its turn comes. -/
def OnRegister (g : Globals) (r : Reg) : RelocState → List GElfRel → Prop
  | _, [] => True
  | s, l :: ls =>
    l.type = rMipsLo16 ∧ loReg (loadWord s.memory (relOff g l)) = r ∧
      OnRegister g r (callState g s l) ls

section Group

variable {g : Globals} {id : OvlSection} {r : Reg} {s : RelocState} {l : GElfRel} {p : ℕ}
  {v : Word}

/-- A LO16 on register `r` leaves the HI16 of the row in use. -/
theorem callState_row_lo16 (hin : relOff g l + 4 ≤ memorySize) (htype : l.type = rMipsLo16)
    (hreg : loReg (loadWord s.memory (relOff g l)) = r) (hrow : (s.hilo r).Holds p v) :
    (callState g s l).hilo r = .used p v := by
  have hjt : novlRelocJt l.type = some .lo16 := by
    rw [htype]
    exact novlRelocJt_rMipsLo16
  rw [(callResult_eq hin).2, relocHilo_lo16 hjt, if_pos hreg.symm, hrow.use_eq]

/-- Where the HI16 was used before, a LO16 takes nothing away. -/
theorem callResult_used (hin : relOff g l + 4 ≤ memorySize) (htype : l.type = rMipsLo16)
    (hreg : loReg (loadWord s.memory (relOff g l)) = r) (hrow : s.hilo r = .used p v) :
    callResult g s l = .success ∨ callResult g s l = .failDontDeleteHi := by
  rw [(callResult_eq hin).1, htype, relocResult, novlRelocJt_rMipsLo16]
  simp only [hreg, hrow]
  cases getTargetSection g (v + loImmediate (loadWord s.memory (relOff g l))) with
  | none => exact Or.inr rfl
  | some id => exact Or.inl rfl

/-- The first LO16 of a HI16 resolves, or takes a word away. -/
theorem callResult_valid (hin : relOff g l + 4 ≤ memorySize) (htype : l.type = rMipsLo16)
    (hreg : loReg (loadWord s.memory (relOff g l)) = r) (hrow : s.hilo r = .valid p v) :
    callResult g s l = .success ∨ callResult g s l = .fail := by
  rw [(callResult_eq hin).1, htype, relocResult, novlRelocJt_rMipsLo16]
  simp only [hreg, hrow]
  cases getTargetSection g (v + loImmediate (loadWord s.memory (relOff g l))) with
  | none => exact Or.inr rfl
  | some id => exact Or.inl rfl

/-- After the first one a group only adds: a word for each LO16 that
resolves. -/
theorem coveredBy_group_used {ls : List GElfRel} {rest : List (TailStack.Event Word)} {n : ℕ}
    (hin : ∀ l ∈ ls, relOff g l + 4 ≤ memorySize) (hrow : s.hilo r = .used p v)
    (hon : OnRegister g r s ls) :
    TailStack.CoveredBy n (callEvents g id s ls ++ rest) ↔
      TailStack.CoveredBy (n + (callResults g s ls).count .success) rest := by
  induction ls generalizing s n with
  | nil => exact Iff.rfl
  | cons l ls ih =>
      obtain ⟨htype, hreg, htail⟩ := hon
      obtain ⟨hl, hls⟩ := List.forall_mem_cons.mp hin
      have hnext := callState_row_lo16 hl htype hreg (Or.inr hrow)
      rw [callEvents, callResults, List.cons_append]
      rcases callResult_used hl htype hreg hrow with hsuccess | hfail
      · rw [hsuccess, resultEvent, TailStack.coveredBy_push, ih hls hnext htail,
          List.count_cons_self, Nat.add_assoc, Nat.add_comm 1]
      · rw [hfail, resultEvent, TailStack.coveredBy_skip, ih hls hnext htail,
          List.count_cons_of_ne (by decide)]

/-- The word in front of a group stays in the table exactly when the first
LO16 resolves, and what follows the group takes away no more than the group
and itself have added. -/
theorem covered_group_iff {ls : List GElfRel} {rest : List (TailStack.Event Word)}
    (hin : ∀ l ∈ ls, relOff g l + 4 ≤ memorySize) (hrow : s.hilo r = .valid p v)
    (hon : OnRegister g r s ls) (hne : ls ≠ []) :
    TailStack.Covered (callEvents g id s ls ++ rest) ↔
      (callResults g s ls).head? = some .success ∧
        TailStack.CoveredBy ((callResults g s ls).count .success) rest := by
  obtain ⟨l, ls, rfl⟩ := List.exists_cons_of_ne_nil hne
  obtain ⟨htype, hreg, htail⟩ := hon
  obtain ⟨hl, hls⟩ := List.forall_mem_cons.mp hin
  have hnext := callState_row_lo16 hl htype hreg (Or.inl hrow)
  rw [callEvents, callResults, List.cons_append, List.head?_cons, Option.some.injEq]
  rcases callResult_valid hl htype hreg hrow with hsuccess | hfail
  · rw [hsuccess, resultEvent, TailStack.Covered, TailStack.coveredBy_push,
      coveredBy_group_used hls hnext htail, List.count_cons_self, Nat.zero_add, Nat.add_comm 1]
    exact (and_iff_right rfl).symm
  · rw [hfail, resultEvent, if_pos htype]
    exact iff_of_false (TailStack.not_coveredBy_zero_pop _) (by simp)

end Group

/-! ### The row of a HI16 -/

section High

variable {g : Globals} {m : Memory} {before after : List RelBlock} {b : RelBlock}
  {pre post group : List GElfRel} {h : GElfRel} {real st : RealState}

/-- The call for a HI16 changes nothing but the row of its register. -/
theorem callState_hi16 {s : RelocState} (hin : relOff g h + 4 ≤ memorySize)
    (hhi : novlRelocJt h.type = some .hi16) :
    callResult g s h = .success ∧ (callState g s h).memory = s.memory ∧
      (callState g s h).hilo (hiReg (loadWord s.memory (relOff g h))) =
        .valid (relOff g h) ((loadWord s.memory (relOff g h) &&& 0xFFFF#32) <<< 16) := by
  have hdo : novlRelocDo g (relOff g h) h.type false s =
      some (novlRelocMipsHi16 (relOff g h) s) := by
    rw [novlRelocDo, hhi]
    exact if_pos hin
  rw [callResult, callState, hdo]
  exact ⟨rfl, rfl, by simp [novlRelocMipsHi16]⟩

/-- The state behind a HI16: its row is valid and its word is last in the
table. -/
theorem after_hi16 (hhi : novlRelocJt h.type = some .hi16)
    (hst : realBefore g m before b.id (pre ++ [h]) = .ok st) :
    st.reloc.hilo (hiReg (loadWord st.reloc.memory (relOff g h))) =
        .valid (relOff g h) ((loadWord st.reloc.memory (relOff g h) &&& 0xFFFF#32) <<< 16) ∧
      ∃ prior blk, Bookkeeping prior (blk ++ [nintyReloc g b.id h]) st := by
  obtain ⟨st₁, hst₁, hlast⟩ := exists_realBefore_of_append hst
  obtain ⟨prior, blk, hbk⟩ := exists_bookkeeping_realBefore hst₁
  rw [List.foldlM_cons] at hlast
  obtain ⟨st₂, hstep, hnil⟩ := exists_of_bind_eq_ok hlast
  cases hnil
  obtain ⟨hhandled, -, hreloc, -⟩ := realEntry_call hbk hstep
  obtain ⟨hsuccess, hmem, hrow⟩ := callState_hi16 (s := st₁.reloc) hhandled.1 hhi
  refine ⟨?_, prior, blk, bookkeeping_after_success hst₁ hbk hst hsuccess⟩
  rw [hreloc, hmem]
  exact hrow

/-- A HI16 with a group of LO16s on its register directly behind it: its
word stays in the table just when some LO16 of the group resolves, if and
only if none does, or the first one does and the entries behind the group
never take away more words than the group and they themselves have added. -/
theorem realPass_high_kept_iff (hreal : realPass g m (before ++ b :: after) = .ok real)
    (hsplit : relList b.rels = pre ++ h :: (group ++ post))
    (hhi : novlRelocJt h.type = some .hi16)
    (hst : realBefore g m before b.id (pre ++ [h]) = .ok st)
    (hgroup : OnRegister g (hiReg (loadWord st.reloc.memory (relOff g h))) st.reloc group)
    (hne : group ≠ []) :
    (StaysInTable g m before b (pre ++ [h]) (group ++ post) real ↔
        .success ∈ callResults g st.reloc group) ↔
      .success ∉ callResults g st.reloc group ∨
        (callResults g st.reloc group).head? = some .success ∧
          TailStack.CoveredBy ((callResults g st.reloc group).count .success)
            (callEvents g b.id (stateAfter g st.reloc group) post) := by
  obtain ⟨hrow, prior, blk, hbk⟩ := after_hi16 hhi hst
  have hsplit' : relList b.rels = (pre ++ [h]) ++ (group ++ post) := by
    rw [hsplit, List.append_cons]
  obtain ⟨st', hrest, -⟩ := realPass_rest hreal hsplit' hst
  have hin : ∀ l ∈ group, relOff g l + 4 ≤ memorySize := by
    intro l hl
    exact ((realEntries_calls hbk hrest).1 l (List.mem_append_left _ hl)).1
  have hstays : StaysInTable g m before b (pre ++ [h]) (group ++ post) real ↔
      (callResults g st.reloc group).head? = some .success ∧
        TailStack.CoveredBy ((callResults g st.reloc group).count .success)
          (callEvents g b.id (stateAfter g st.reloc group) post) := by
    rw [staysInTable_iff hreal hsplit' hst hbk (by simp), callEvents_append,
      covered_group_iff hin hrow hgroup hne]
  have hfirst : (callResults g st.reloc group).head? = some .success →
      .success ∈ callResults g st.reloc group := List.mem_of_head?
  rw [hstays]
  tauto

theorem crossingBlock_high_kept :
    ∃ real, realPass crossingGlobals crossingMemory [crossingBlock] = .ok real ∧
      StaysInTable crossingGlobals crossingMemory [] crossingBlock [⟨0x80000000, 5⟩]
        [⟨0x80000004, 6⟩, ⟨0x80000008, 6⟩] real := by
  obtain ⟨real, hreal, -⟩ := exists_ok_of_map
    (x := realPass crossingGlobals crossingMemory [crossingBlock]) (fun _ => true)
    (by decide +kernel)
  obtain ⟨st, hst, hgroup⟩ := exists_ok_of_map
    (x := realBefore crossingGlobals crossingMemory [] .text [⟨0x80000000, 5⟩])
    (fun st => decide (
      (loReg (loadWord st.reloc.memory 4) = hiReg (loadWord st.reloc.memory 0) ∧
        loReg (loadWord (callState crossingGlobals st.reloc ⟨0x80000004, 6⟩).memory 8) =
          hiReg (loadWord st.reloc.memory 0)) ∧
      callResults crossingGlobals st.reloc [⟨0x80000004, 6⟩, ⟨0x80000008, 6⟩] =
        [.success, .success])) (by decide +kernel)
  obtain ⟨⟨hfirst, hsecond⟩, hresults⟩ := of_decide_eq_true hgroup
  have hreal' : realPass crossingGlobals crossingMemory ([] ++ crossingBlock :: []) =
      .ok real := hreal
  have hst' : realBefore crossingGlobals crossingMemory [] crossingBlock.id
      ([] ++ [⟨0x80000000, 5⟩]) = .ok st := hst
  have hsorted : relList crossingBlock.rels =
      [] ++ ⟨0x80000000, 5⟩ :: ([⟨0x80000004, 6⟩, ⟨0x80000008, 6⟩] ++ []) :=
    crossingBlock_sorted
  have hiff := realPass_high_kept_iff hreal' hsorted (by decide) hst'
    ⟨rfl, hfirst, rfl, hsecond, trivial⟩ (by simp)
  rw [hresults] at hiff
  exact ⟨real, hreal, (hiff.mpr (Or.inr ⟨rfl, TailStack.coveredBy_nil _⟩)).mpr (by simp)⟩

/-- A HI16 with two LO16s, of which only the second points into `.text`. -/
def lateElf : Elf :=
  sampleElf [0x3C048000, 0x8C827FF0, 0x8C830000, 0x00000000]
    [⟨0x80000000, 5⟩, ⟨0x80000004, 6⟩, ⟨0x80000008, 6⟩] []

/-- The second LO16 is in the table, the HI16 is not. -/
theorem lateElf_high_missing :
    ∃ c, convert lateElf 0x80800000 = .ok c ∧
      nintyReloc c.globals .text ⟨0x80000008, 6⟩ ∈ c.nintyRelocs ∧
      nintyReloc c.globals .text ⟨0x80000000, 5⟩ ∉ c.nintyRelocs := by
  obtain ⟨c, hconvert, hc⟩ := exists_ok_of_map (x := convert lateElf 0x80800000)
    (fun c => decide (nintyReloc c.globals .text ⟨0x80000008, 6⟩ ∈ c.nintyRelocs ∧
      nintyReloc c.globals .text ⟨0x80000000, 5⟩ ∉ c.nintyRelocs)) (by decide +kernel)
  exact ⟨c, hconvert, of_decide_eq_true hc⟩

end High

/-! ### The instruction of a HI16 -/

/-- The LO16 `l` resolves with the HI16 at position `p`, and their address
becomes `a`. -/
def ResolvesWith (g : Globals) (s : RelocState) (p : ℕ) (l : GElfRel) (a : Word) : Prop :=
  novlRelocJt l.type = some .lo16 ∧
    ∃ v, (s.hilo (loReg (loadWord s.memory (relOff g l)))).Holds p v ∧
      relocated g (v + loImmediate (loadWord s.memory (relOff g l))) = some a

theorem ResolvesWith.remembers {g : Globals} {s : RelocState} {p : ℕ} {l : GElfRel} {a : Word}
    (h : ResolvesWith g s p l a) : Remembers s.hilo p := by
  obtain ⟨-, v, hrow, -⟩ := h
  exact ⟨_, hrow.ptr?⟩

section Memory

variable {g : Globals} {s : RelocState} {e : GElfRel} {p : ℕ}

/-- A LO16 that resolves updates its own word and the one of its HI16. -/
theorem callState_resolvesWith {a : Word} (hin : relOff g e + 4 ≤ memorySize)
    (h : ResolvesWith g s p e a) :
    (callState g s e).memory = updatePair s.memory p (relOff g e) a := by
  obtain ⟨hjt, v, hrow, ha⟩ := h
  obtain ⟨id, hid, rfl⟩ := Option.map_eq_some_iff.mp ha
  simp only [callState, novlRelocDo, hjt, if_pos hin, novlRelocMipsLo16, adjustAddress_real,
    show rMipsLo16 ≠ rMips26 by decide]
  rcases hrow with hrow | hrow
  · simp [hrow, hid]
  · simp [hrow, hid]

theorem immediate_callState {a : Word} (hin : relOff g e + 4 ≤ memorySize)
    (h : ResolvesWith g s p e a) :
    immediate (loadWord (callState g s e).memory p) = highHalf a := by
  rw [callState_resolvesWith hin h, updatePair, loadWord_storeWord_self]
  exact immediate_withHigh a _

/-- A LO16 that resolves with no HI16 changes no word. -/
theorem callState_lo16_memory (hjt : novlRelocJt e.type = some .lo16)
    (hin : relOff g e + 4 ≤ memorySize) (hnot : ∀ q a, ¬ ResolvesWith g s q e a) :
    (callState g s e).memory = s.memory := by
  have hunresolved {q : ℕ} {v : Word}
      (hrow : (s.hilo (loReg (loadWord s.memory (relOff g e)))).Holds q v) :
      getTargetSection g (v + loImmediate (loadWord s.memory (relOff g e))) = none := by
    rw [← Option.map_eq_none_iff, ← relocated, Option.eq_none_iff_forall_ne_some]
    intro a ha
    exact hnot q a ⟨hjt, v, hrow, ha⟩
  simp only [callState, novlRelocDo, hjt, if_pos hin, novlRelocMipsLo16, adjustAddress_real,
    show rMipsLo16 ≠ rMips26 by decide]
  cases hrow : s.hilo (loReg (loadWord s.memory (relOff g e))) with
  | invalid => rfl
  | valid q v => simp [hunresolved (Or.inl hrow)]
  | used q v => simp [hunresolved (Or.inr hrow)]

/-- A call changes its own word, and a LO16 the word of its HI16; any word
apart from these is as before. -/
theorem loadWord_callState (hhandled : Handled g e) (hapart : Apart (relOff g e) p)
    (hresolves : ∀ q a, ResolvesWith g s q e a → Apart q p) :
    loadWord (callState g s e).memory p = loadWord s.memory p := by
  obtain ⟨hin, hjt⟩ := hhandled
  obtain ⟨handler, hjt⟩ := Option.ne_none_iff_exists'.mp hjt
  cases handler with
  | mips32 =>
      simp only [callState, novlRelocDo, hjt, if_pos hin, novlRelocMips32, adjustAddress_real,
        show rMips32 ≠ rMips26 by decide]
      cases getTargetSection g (loadWord s.memory (relOff g e)) with
      | none => rfl
      | some id => simp [loadWord_storeWord_apart _ _ hapart]
  | mips26 =>
      simp only [callState, novlRelocDo, hjt, if_pos hin, novlRelocMips26, adjustAddress_real]
      cases getTargetSection g (jumpTarget (loadWord s.memory (relOff g e))) with
      | none => rfl
      | some id =>
          by_cases htext : id = .text
          · simp [htext, loadWord_storeWord_apart _ _ hapart]
          · simp [htext]
  | hi16 => rw [(callState_hi16 hin hjt).2.1]
  | lo16 =>
      by_cases hsome : ∃ q a, ResolvesWith g s q e a
      · obtain ⟨q, a, hqa⟩ := hsome
        rw [callState_resolvesWith hin hqa, updatePair,
          loadWord_storeWord_apart _ _ (hresolves q a hqa), loadWord_storeWord_apart _ _ hapart]
      · rw [callState_lo16_memory hjt hin fun q a hqa => hsome ⟨q, a, hqa⟩]

/-- Among entries apart from it, the word at `p` is only changed by the
LO16s that resolve with a HI16 there, and shows the last one of them. -/
theorem stateAfter_high {es : List GElfRel} (hhandled : ∀ e ∈ es, Handled g e)
    (hapart : ∀ e ∈ es, Apart (relOff g e) p)
    (hrem : ∀ q, Remembers s.hilo q → q = p ∨ Apart q p) :
    (∃ q l rest a, es = q ++ l :: rest ∧ ResolvesWith g (stateAfter g s q) p l a ∧
      immediate (loadWord (stateAfter g s es).memory p) = highHalf a) ∨
    (∀ q l rest a, es = q ++ l :: rest → ¬ ResolvesWith g (stateAfter g s q) p l a) ∧
      loadWord (stateAfter g s es).memory p = loadWord s.memory p := by
  induction es using List.reverseRecOn with
  | nil =>
      refine Or.inr ⟨fun q l rest a hsplit => ?_, rfl⟩
      exact absurd hsplit (by simp)
  | append_singleton es e ih =>
      have hes : ∀ x ∈ es, Handled g x := fun x hx => hhandled x (List.mem_append_left _ hx)
      have he : Handled g e := hhandled e (List.mem_append_right _ List.mem_cons_self)
      have heapart := hapart e (List.mem_append_right _ List.mem_cons_self)
      rw [stateAfter_append, stateAfter_cons, stateAfter_nil]
      by_cases hlast : ∃ a, ResolvesWith g (stateAfter g s es) p e a
      · obtain ⟨a, ha⟩ := hlast
        exact Or.inl ⟨es, e, [], a, rfl, ha, immediate_callState he.1 ha⟩
      · have hword : loadWord (callState g (stateAfter g s es) e).memory p =
            loadWord (stateAfter g s es).memory p := by
          refine loadWord_callState he heapart fun q a hqa => ?_
          rcases remembers_stateAfter (fun x hx => (hes x hx).1) hqa.remembers with
            ⟨x, hx, rfl⟩ | hq
          · exact hapart x (List.mem_append_left _ hx)
          · rcases hrem q hq with rfl | hq
            · exact absurd ⟨a, hqa⟩ hlast
            · exact hq
        rw [hword]
        rcases ih hes fun x hx => hapart x (List.mem_append_left _ hx) with
          ⟨q, l, rest, a, hsplit, hres, himm⟩ | ⟨hnone, hsame⟩
        · refine Or.inl ⟨q, l, rest ++ [e], a, ?_, hres, himm⟩
          rw [hsplit, List.append_assoc, List.cons_append]
        · refine Or.inr ⟨fun q l rest a hsplit hres => ?_, hsame⟩
          rcases List.eq_nil_or_concat rest with rfl | ⟨rest', x, rfl⟩
          · obtain ⟨rfl, hl⟩ := List.append_inj' hsplit rfl
            cases hl
            exact hlast ⟨a, hres⟩
          · rw [List.concat_eq_append, ← List.cons_append, ← List.append_assoc] at hsplit
            exact hnone q l rest' a (List.append_inj' hsplit rfl).1 hres

/-- Blocks whose entries are all apart from a word leave it alone. -/
theorem loadWord_realBlocks {bs : List RelBlock} {st st' : RealState}
    (hcount : st.nintyCountReal = st.nintyRelocs.length)
    (hapart : ∀ e ∈ visited bs, Apart (relOff g e) p)
    (hrun : bs.foldlM (realBlock g) st = .ok st') :
    loadWord st'.reloc.memory p = loadWord st.reloc.memory p := by
  induction bs generalizing st with
  | nil =>
      cases hrun
      rfl
  | cons b bs ih =>
      rw [visited_cons] at hapart
      rw [List.foldlM_cons] at hrun
      obtain ⟨st₁, hblock, hrest⟩ := exists_of_bind_eq_ok hrun
      obtain ⟨hhandled, -, hreloc, hbk⟩ :=
        realEntries_calls (Bookkeeping.start rfl hcount) hblock
      rw [ih hbk.count (fun e he => hapart e (List.mem_append_right _ he)) hrest, hreloc]
      have hblockApart : ∀ e ∈ relList b.rels, Apart (relOff g e) p :=
        fun e he => hapart e (List.mem_append_left _ he)
      have hinit : ∀ q, Remembers novlRelocInit q → q = p ∨ Apart q p :=
        fun q hq => absurd hq (not_remembers_init q)
      rcases stateAfter_high (s := { st.reloc with hilo := novlRelocInit }) hhandled
        hblockApart hinit with
        ⟨q, l, rest, a, hsplit, hres, -⟩ | ⟨-, hsame⟩
      · -- The position would have to be that of an entry of the block.
        have hq : ∀ e ∈ q, e ∈ relList b.rels := by
          intro e he
          rw [hsplit]
          exact List.mem_append_left _ he
        rcases remembers_stateAfter (fun e he => (hhandled e (hq e he)).1) hres.remembers with
          ⟨x, hx, rfl⟩ | hinit
        · exact absurd rfl (hblockApart x (hq x hx)).ne
        · exact absurd hinit (not_remembers_init _)
      · exact hsame

end Memory

section Relocated

variable {g : Globals} {m : Memory} {before after : List RelBlock} {b : RelBlock}
  {pre post : List GElfRel} {h : GElfRel} {real st : RealState}

/-- From the state `s` on nothing overlaps with the word at `p` but the
LO16s that use a HI16 there: no entry, and no position in a row. -/
structure Undisturbed (g : Globals) (s : RelocState) (es : List GElfRel) (p : ℕ) : Prop where
  entries : ∀ e ∈ es, Apart (relOff g e) p
  rows : ∀ q, Remembers s.hilo q → q = p ∨ Apart q p

/-- Behind a LO16 that resolves with it and is not disturbed, a HI16 shows
at the end of the pass what the last such LO16 has put there. -/
theorem realPass_high_shown (hreal : realPass g m (before ++ b :: after) = .ok real)
    (hsplit : relList b.rels = pre ++ h :: post)
    (hst : realBefore g m before b.id (pre ++ [h]) = .ok st) {q rest : List GElfRel}
    {l : GElfRel} {a : Word} (hpost : post = q ++ l :: rest)
    (hres : ResolvesWith g (stateAfter g st.reloc q) (relOff g h) l a)
    (hund : Undisturbed g (stateAfter g st.reloc (q ++ [l])) (rest ++ visited after)
      (relOff g h)) :
    ∃ q l rest a, post = q ++ l :: rest ∧
      ResolvesWith g (stateAfter g st.reloc q) (relOff g h) l a ∧
      immediate (loadWord real.reloc.memory (relOff g h)) = highHalf a := by
  have hsplit' : relList b.rels = (pre ++ [h]) ++ post := by
    rw [hsplit, List.append_cons]
  have hcons : post = (q ++ [l]) ++ rest := by
    rw [hpost, List.append_cons]
  obtain ⟨prior, blk, hbk⟩ := exists_bookkeeping_realBefore hst
  obtain ⟨st', hrun, hafter⟩ := realPass_rest hreal hsplit' hst
  obtain ⟨hhandled, -, hreloc, hbk'⟩ := realEntries_calls hbk hrun
  have hlater : loadWord real.reloc.memory (relOff g h) =
      loadWord st'.reloc.memory (relOff g h) :=
    loadWord_realBlocks hbk'.count
      (fun x hx => hund.entries x (List.mem_append_right _ hx)) hafter
  have hput : immediate (loadWord (stateAfter g st.reloc (q ++ [l])).memory (relOff g h)) =
      highHalf a := by
    have hl : l ∈ post := by simp [hpost]
    rw [stateAfter_append, stateAfter_cons, stateAfter_nil]
    exact immediate_callState (hhandled l hl).1 hres
  have hresthandled : ∀ x ∈ rest, Handled g x := by
    intro x hx
    rw [hcons] at hhandled
    exact hhandled x (List.mem_append_right _ hx)
  rw [hlater, hreloc, hcons, stateAfter_append]
  rcases stateAfter_high hresthandled
    (fun x hx => hund.entries x (List.mem_append_left _ hx)) hund.rows with
    ⟨q', l', rest', a', heq, hres', hshown⟩ | ⟨-, hsame⟩
  · refine ⟨q ++ [l] ++ q', l', rest', a', ?_, ?_, hshown⟩
    · rw [heq, List.append_assoc (q ++ [l])]
    · rwa [stateAfter_append]
  · exact ⟨q, l, rest, a, (List.append_cons ..).symm, hres, by rw [hsame, hput]⟩

/-- Where no other entry's word overlaps with that of a HI16, no LO16 that
resolves with it is disturbed. -/
theorem undisturbed_of_apart (hst : realBefore g m before b.id (pre ++ [h]) = .ok st)
    {q rest : List GElfRel} {l : GElfRel}
    (hhandled : ∀ x ∈ q ++ [l], Handled g x)
    (hapart : ∀ x ∈ pre ++ (q ++ l :: rest ++ visited after), Apart (relOff g x) (relOff g h)) :
    Undisturbed g (stateAfter g st.reloc (q ++ [l])) (rest ++ visited after) (relOff g h) := by
  refine ⟨fun x hx => hapart x ?_, fun p hp => ?_⟩
  · rcases List.mem_append.mp hx with hx | hx
    · simp [hx]
    · simp [hx]
  · rcases remembers_stateAfter (fun x hx => (hhandled x hx).1) hp with ⟨x, hx, rfl⟩ | hp
    · refine Or.inr (hapart x ?_)
      rcases List.mem_append.mp hx with hx | hx
      · simp [hx]
      · simp [List.mem_singleton.mp hx]
    · -- The rows behind `h` hold positions of this block's entries.
      obtain ⟨x, hx, -, rfl⟩ := remembers_realBefore hst hp
      rcases List.mem_append.mp hx with hx | hx
      · exact Or.inr (hapart x (List.mem_append_left _ hx))
      · rw [List.mem_singleton.mp hx]
        exact Or.inl rfl

/-- What stays in the table has been relocated. For any entries this is so
if the word of the HI16 goes again, or some LO16 behind it resolves with it
and is not disturbed. Where no other entry's word overlaps with that of the
HI16, it is so exactly when its word goes again, or some LO16 resolves with
it. -/
theorem realPass_high_relocated_iff (hreal : realPass g m (before ++ b :: after) = .ok real)
    (hsplit : relList b.rels = pre ++ h :: post) (hhi : novlRelocJt h.type = some .hi16)
    (hst : realBefore g m before b.id (pre ++ [h]) = .ok st) :
    ((TailStack.Covered (callEvents g b.id st.reloc post) →
        ∃ q l rest a, post = q ++ l :: rest ∧
          ResolvesWith g (stateAfter g st.reloc q) (relOff g h) l a ∧
          Undisturbed g (stateAfter g st.reloc (q ++ [l])) (rest ++ visited after)
            (relOff g h)) →
      StaysInTable g m before b (pre ++ [h]) post real →
        ∃ q l rest a, post = q ++ l :: rest ∧
          ResolvesWith g (stateAfter g st.reloc q) (relOff g h) l a ∧
          immediate (loadWord real.reloc.memory (relOff g h)) = highHalf a) ∧
    ((∀ x ∈ pre ++ (post ++ visited after), Apart (relOff g x) (relOff g h)) →
      ((StaysInTable g m before b (pre ++ [h]) post real →
          ∃ q l rest a, post = q ++ l :: rest ∧
            ResolvesWith g (stateAfter g st.reloc q) (relOff g h) l a ∧
            immediate (loadWord real.reloc.memory (relOff g h)) = highHalf a) ↔
        (TailStack.Covered (callEvents g b.id st.reloc post) →
          ∃ q l rest a, post = q ++ l :: rest ∧
            ResolvesWith g (stateAfter g st.reloc q) (relOff g h) l a))) := by
  have hsplit' : relList b.rels = (pre ++ [h]) ++ post := by
    rw [hsplit, List.append_cons]
  obtain ⟨-, prior, blk, hbk⟩ := after_hi16 hhi hst
  obtain ⟨st', hpost, -⟩ := realPass_rest hreal hsplit' hst
  have hhandled := (realEntries_calls hbk hpost).1
  rw [staysInTable_iff hreal hsplit' hst hbk (by simp)]
  constructor
  · intro hcond hcovered
    obtain ⟨q, l, rest, a, heq, hres, hund⟩ := hcond hcovered
    exact realPass_high_shown hreal hsplit hst heq hres hund
  · intro hapart
    refine imp_congr_right fun _ => ⟨?_, ?_⟩
    · rintro ⟨q, l, rest, a, heq, hres, -⟩
      exact ⟨q, l, rest, a, heq, hres⟩
    · rintro ⟨q, l, rest, a, heq, hres⟩
      have hql : ∀ x ∈ q ++ [l], Handled g x := by
        intro x hx
        rw [heq, List.append_cons] at hhandled
        exact hhandled x (List.mem_append_left _ hx)
      exact realPass_high_shown hreal hsplit hst heq hres
        (undisturbed_of_apart hst hql (heq ▸ hapart))

def crossingStarts : OvlSection → Word := overlayStarts 0x80800000 crossingGlobals.sizes 3

theorem crossingBlock_high_relocated :
    ∃ real st, realPass { crossingGlobals with ovlStarts := crossingStarts } crossingMemory
        [crossingBlock] = .ok real ∧
      ∃ q l rest a, [⟨0x80000004, 6⟩, ⟨0x80000008, 6⟩] = q ++ l :: rest ∧
        ResolvesWith { crossingGlobals with ovlStarts := crossingStarts }
          (stateAfter { crossingGlobals with ovlStarts := crossingStarts } st q) 0 l a ∧
        immediate (loadWord real.reloc.memory 0) = highHalf a := by
  obtain ⟨real, hreal, -⟩ := exists_ok_of_map
    (x := realPass { crossingGlobals with ovlStarts := crossingStarts } crossingMemory
      [crossingBlock]) (fun _ => true) (by decide +kernel)
  obtain ⟨st, hst, hfirst⟩ := exists_ok_of_map
    (x := realBefore { crossingGlobals with ovlStarts := crossingStarts } crossingMemory []
      .text [⟨0x80000000, 5⟩])
    (fun st => decide (
      (st.reloc.hilo (loReg (loadWord st.reloc.memory 4)) = .valid 0 0x80000000#32 ∧
        relocated { crossingGlobals with ovlStarts := crossingStarts }
          (0x80000000#32 + loImmediate (loadWord st.reloc.memory 4)) = some 0x80800040#32) ∧
      callEvents { crossingGlobals with ovlStarts := crossingStarts } .text st.reloc
        [⟨0x80000004, 6⟩, ⟨0x80000008, 6⟩] = [.push 0x46000004#32, .push 0x46000008#32]))
    (by decide +kernel)
  obtain ⟨⟨hrow, hmoved⟩, hevents⟩ := of_decide_eq_true hfirst
  have hreal' : realPass { crossingGlobals with ovlStarts := crossingStarts } crossingMemory
      ([] ++ crossingBlock :: []) = .ok real := hreal
  have hst' : realBefore { crossingGlobals with ovlStarts := crossingStarts } crossingMemory []
      crossingBlock.id ([] ++ [⟨0x80000000, 5⟩]) = .ok st := hst
  have hsorted : relList crossingBlock.rels =
      [] ++ ⟨0x80000000, 5⟩ :: [⟨0x80000004, 6⟩, ⟨0x80000008, 6⟩] := crossingBlock_sorted
  have hiff := realPass_high_relocated_iff hreal' hsorted (by decide) hst'
  have hresolves : ResolvesWith { crossingGlobals with ovlStarts := crossingStarts } st.reloc 0
      ⟨0x80000004, 6⟩ 0x80800040#32 := ⟨by decide, _, Or.inl hrow, hmoved⟩
  refine ⟨real, st.reloc, hreal, (hiff.2 (by decide +kernel)).mpr (fun _ => ?_) ?_⟩
  · exact ⟨[], ⟨0x80000004, 6⟩, [⟨0x80000008, 6⟩], _, rfl, hresolves⟩
  · obtain ⟨-, prior, blk, hbk⟩ := after_hi16 (by decide) hst'
    have hsplit : relList crossingBlock.rels =
        ([] ++ [⟨0x80000000, 5⟩]) ++ [⟨0x80000004, 6⟩, ⟨0x80000008, 6⟩] := hsorted
    refine (staysInTable_iff hreal' hsplit hst' hbk (by simp)).mpr ?_
    rw [show crossingBlock.id = .text from rfl, hevents]
    exact TailStack.coveredBy_push.mpr
      (TailStack.coveredBy_push.mpr (TailStack.coveredBy_nil _))

/-- Two HI16s on the same register in front of one LO16. -/
def overwrittenElf : Elf :=
  sampleElf [0x3C048000, 0x3C048000, 0x2484000C, 0x00000000]
    [⟨0x80000000, 5⟩, ⟨0x80000004, 5⟩, ⟨0x80000008, 6⟩] []

/-- The first HI16 is in the table with its old high half. -/
theorem overwrittenElf_high_stale :
    ∃ c, convert overwrittenElf 0x80800000 = .ok c ∧
      nintyReloc c.globals .text ⟨0x80000000, 5⟩ ∈ c.nintyRelocs ∧
      relocated c.globals (pairAddress (loadWord c.loaded 0) (loadWord c.loaded 8)) =
        some 0x8080000C#32 ∧
      immediate (loadWord c.memory 0) ≠ highHalf 0x8080000C#32 := by
  obtain ⟨c, hconvert, hc⟩ := exists_ok_of_map (x := convert overwrittenElf 0x80800000)
    (fun c => decide (nintyReloc c.globals .text ⟨0x80000000, 5⟩ ∈ c.nintyRelocs ∧
      relocated c.globals (pairAddress (loadWord c.loaded 0) (loadWord c.loaded 8)) =
        some 0x8080000C#32 ∧
      immediate (loadWord c.memory 0) ≠ highHalf 0x8080000C#32)) (by decide +kernel)
  exact ⟨c, hconvert, of_decide_eq_true hc⟩

end Relocated

end Novl
