import Mathlib.Data.Set.Card
import Novl.Overlay
import Novl.Pairing

/-!
Which entries are in the final table of overlay relocations.

A section of the input puts one word in the table for each entry that
succeeds, and a LO16 that fails with its HI16 unused takes the table's
last word away, whichever entry made it. So an entry is still there at the
end exactly when, in the rest of its section, the deletions never
outnumber the words added before them.
-/

namespace Novl

open ByteMemory FallibleRun

/-! ### Overlay relocations of different entries -/

theorem ovlRelocGetSec_injective {id id' : OvlSection}
    (h : (BitVec.ofNat 32 (id.index + 1) &&& 3#32) - 1#32 =
      (BitVec.ofNat 32 (id'.index + 1) &&& 3#32) - 1#32) : id = id' := by
  cases id <;> cases id' <;> first | rfl | exact absurd h (by decide)

/-- Of entries inside `memory`, different ones of a section and those of
different sections have different overlay relocations. -/
theorem nintyReloc_inj {g : Globals} {id id' : OvlSection} {e e' : GElfRel}
    (he : relOff g e + 4 ≤ memorySize) (he' : relOff g e' + 4 ≤ memorySize)
    (heq : nintyReloc g id e = nintyReloc g id' e') : id = id' ∧ e.addr = e'.addr := by
  have hid : id = id' := by
    have hsec := congrArg ovlRelocGetSec heq
    rw [nintyReloc, nintyReloc, ovlRelocGetSec_mk, ovlRelocGetSec_mk] at hsec
    exact ovlRelocGetSec_injective hsec
  subst hid
  refine ⟨rfl, ?_⟩
  have haddr := congrArg (fun r => (ovlRelocGetAddr r).toNat) heq
  have hmask (x : Word) : (x &&& 0x00FFFFFF#32).toNat = x.toNat % 2 ^ 24 :=
    LowMask.toNat_and_mask (n := 24) (by omega) x
  simp only [nintyReloc, ovlRelocGetAddr_mk, hmask] at haddr
  apply BitVec.eq_of_toNat_eq
  simp only [relOff, memorySize, BitVec.toNat_sub] at he he' haddr
  have h₁ := e.addr.isLt
  have h₂ := e'.addr.isLt
  have h₃ := g.elfEp.isLt
  have h₄ := (g.elfStarts id).isLt
  omega

/-! ### A real pass that has come to an end -/

/-- Entries that were processed lie in `memory`, and none of them is an
error of the plan. -/
theorem planError_of_realEntries {g : Globals} {id : OvlSection} {m mem : Memory}
    {h : HiLoTable} {es : List GElfRel} (st : RealState) {st' : RealState}
    (hreloc : st.reloc = ⟨mem, h⟩)
    (hapart : es.Pairwise fun a b => Apart (relOff g a) (relOff g b))
    (hsame : SameWords g mem m es) (hrem : ∀ p, Remembers h p → ∀ e ∈ es, Apart (relOff g e) p)
    (hrun : es.foldlM (realEntry g id) st = .ok st') :
    (∀ e ∈ es, relOff g e + 4 ≤ memorySize) ∧ planError g m h es = false := by
  induction es generalizing mem h st with
  | nil => exact ⟨by simp, rfl⟩
  | cons e es ih =>
      rw [List.foldlM_cons] at hrun
      obtain ⟨st₁, hstep, hrest⟩ := exists_of_bind_eq_ok hrun
      obtain ⟨hhead, htail⟩ := List.pairwise_cons.mp hapart
      have hremTail : ∀ p, Remembers h p → ∀ x ∈ es, Apart (relOff g x) p :=
        fun p hp x hx => hrem p hp x (List.mem_cons_of_mem _ hx)
      obtain ⟨v, hdo, hv⟩ := realEntry_ok hstep
      have hin := (handled_of_novlRelocDo hdo hv).1
      have heffect := novlRelocDo_real g e.type (relOff g e) mem h hin
        (fun r p hp => hrem p ⟨r, hp⟩ e List.mem_cons_self)
      rw [hsame e List.mem_cons_self, ← hreloc, hdo, Option.some.injEq, Prod.mk.injEq]
        at heffect
      have hreloc₁ : st₁.reloc =
          ⟨applyPatches mem (entryPatches g m h e), entryHilo g m h e⟩ := heffect.2
      obtain ⟨hall, herr⟩ := ih st₁ hreloc₁ htail (hsame.tail.applyEntryPatches hhead hremTail)
        (fun p => apart_of_remembers_entryHilo hhead hremTail) hrest
      refine ⟨List.forall_mem_cons.mpr ⟨hin, hall⟩, ?_⟩
      rw [planError, herr, Bool.or_false, beq_eq_false_iff_ne, entryResult, ← heffect.1]
      exact hv

/-- The entries of each section have word-aligned addresses, no two of
them the same. Two sections may share addresses. -/
structure Spread (bs : List RelBlock) : Prop where
  aligned : ∀ b ∈ bs, ∀ e ∈ b.rels, e.addr.toNat % 4 = 0
  distinct : ∀ b ∈ bs, b.rels.Pairwise fun a c => a.addr ≠ c.addr

theorem WellPlaced.spread {elfEp : Word} {bs : List RelBlock} (h : WellPlaced elfEp bs) :
    Spread bs :=
  ⟨h.aligned, (List.pairwise_flatMap.mp h.distinct).1⟩

theorem Spread.distinct_relList {bs : List RelBlock} (h : Spread bs) {b : RelBlock}
    (hb : b ∈ bs) : (relList b.rels).Pairwise fun a c => a.addr ≠ c.addr :=
  (List.Perm.pairwise_iff (fun hac => Ne.symm hac) (InsertionSort.sort_perm _ _)).mpr
    (h.distinct b hb)

theorem Spread.apart {g : Globals} {bs : List RelBlock} (h : Spread bs) {b : RelBlock}
    (hb : b ∈ bs) : (relList b.rels).Pairwise fun a c => Apart (relOff g a) (relOff g c) :=
  (h.distinct_relList hb).imp_of_mem fun ha hc hne =>
    apart_of_aligned (h.aligned b hb _ (mem_relList.mp ha)) (h.aligned b hb _ (mem_relList.mp hc))
      hne

theorem push_mem_planEvents {g : Globals} {id : OvlSection} {m : Memory} {h : HiLoTable}
    {es : List GElfRel} {w : Word} (hw : .push w ∈ planEvents g id m h es) :
    ∃ e ∈ es, w = nintyReloc g id e := by
  induction es generalizing h with
  | nil => simp [planEvents] at hw
  | cons e es ih =>
      rcases List.mem_cons.mp hw with hhead | htail
      · exact ⟨e, List.mem_cons_self, (resultEvent_push hhead.symm).2⟩
      · obtain ⟨x, hx, rfl⟩ := ih htail
        exact ⟨x, List.mem_cons_of_mem _ hx, rfl⟩

/-- A section that was processed adds its planned table. -/
theorem realBlock_ok {g : Globals} {b : RelBlock} {st st' : RealState}
    (hcount : st.nintyCountReal = st.nintyRelocs.length)
    (hapart : (relList b.rels).Pairwise fun a c => Apart (relOff g a) (relOff g c))
    (hrun : realBlock g st b = .ok st') :
    Placed g (relList b.rels) ∧ blockError g st.reloc.memory b = false ∧
      st'.nintyRelocs = st.nintyRelocs ++ blockTable g st.reloc.memory b ∧
      st'.nintyCountReal = st'.nintyRelocs.length := by
  obtain ⟨hin, hok⟩ := planError_of_realEntries (m := st.reloc.memory) (h := novlRelocInit)
    { st with last := none, reloc.hilo := novlRelocInit } rfl hapart (fun _ _ => rfl)
    (fun p hp => absurd hp (not_remembers_init p)) hrun
  obtain ⟨st₁, hrun₁, -, -, hrelocs, hlen⟩ := realBlock_eq (m := st.reloc.memory) rfl hcount
    ⟨hin, hapart⟩ (fun _ _ => rfl) hok
  obtain rfl : st₁ = st' := Except.ok.inj (hrun₁.symm.trans hrun)
  exact ⟨⟨hin, hapart⟩, hok, hrelocs, hlen⟩

/-! ### The register table, read off the entries before -/

/-- The last HI16 on register `r` in a list of entries. -/
def lastHi (g : Globals) (m : Memory) (r : Reg) (es : List GElfRel) : Option GElfRel :=
  es.reverse.find? fun x => SetsHi g m r x

/-- No LO16 on register `r` comes after the last HI16 on it. -/
def hiUnused (g : Globals) (m : Memory) (r : Reg) (es : List GElfRel) : Bool :=
  (es.reverse.takeWhile fun x => ¬ SetsHi g m r x).all fun x => ¬ UsesLo g m r x

theorem hiloAfter_init (g : Globals) (m : Memory) (r : Reg) (es : List GElfRel) :
    hiloAfter g m novlRelocInit es r =
      match lastHi g m r es with
      | none => .invalid
      | some h =>
        if hiUnused g m r es then .valid (relOff g h) ((entryWord g m h &&& 0xFFFF#32) <<< 16)
        else .used (relOff g h) ((entryWord g m h &&& 0xFFFF#32) <<< 16) := by
  -- The row depends on the last entries of the register.
  induction es using List.reverseRecOn with
  | nil => rfl
  | append_singleton es e ih =>
      rw [hiloAfter_append, hiloAfter_cons, hiloAfter_nil]
      by_cases hhi : SetsHi g m r e
      · rw [entryHilo_of_setsHi hhi]
        simp [lastHi, hiUnused, hhi]
      · have hlast : lastHi g m r (es ++ [e]) = lastHi g m r es := by
          simp [lastHi, hhi]
        rw [hlast]
        by_cases hlo : UsesLo g m r e
        · have hused : hiUnused g m r (es ++ [e]) = false := by
            simp [hiUnused, hhi, hlo]
          rw [entryHilo_of_usesLo hlo, ih, hused]
          cases lastHi g m r es with
          | none => rfl
          | some h => cases hiUnused g m r es <;> rfl
        · have hunused : hiUnused g m r (es ++ [e]) = hiUnused g m r es := by
            simp [hiUnused, hhi, hlo]
          rw [entryHilo_of_neither hhi hlo, ih, hunused]

/-- The entry, with the entries `before` it in its section, succeeds: it
has a handler, and the address it stands for lies in a section, for a
jump in `.text`. -/
def resolves (g : Globals) (m : Memory) (before : List GElfRel) (e : GElfRel) : Bool :=
  match novlRelocJt e.type with
  | none => false
  | some .mips32 => (getTargetSection g (entryWord g m e)).isSome
  | some .mips26 => getTargetSection g (jumpTarget (entryWord g m e)) = some .text
  | some .hi16 => true
  | some .lo16 =>
    match lastHi g m (loReg (entryWord g m e)) before with
    | none => false
    | some h => (getTargetSection g (pairAddress (entryWord g m h) (entryWord g m e))).isSome

/-- The entry is a LO16, the first to use its HI16, and their address
lies in no section. -/
def deletes (g : Globals) (m : Memory) (before : List GElfRel) (e : GElfRel) : Bool :=
  e.type = rMipsLo16 &&
    match lastHi g m (loReg (entryWord g m e)) before with
    | none => false
    | some h =>
      hiUnused g m (loReg (entryWord g m e)) before &&
        (getTargetSection g (pairAddress (entryWord g m h) (entryWord g m e))).isNone

theorem type_ne_rMipsLo16 {e : GElfRel} (hjt : novlRelocJt e.type ≠ some .lo16) :
    e.type ≠ rMipsLo16 := by
  intro htype
  rw [htype] at hjt
  exact hjt novlRelocJt_rMipsLo16

theorem deletes_eq_false_of_resolves {g : Globals} {m : Memory} {before : List GElfRel}
    {e : GElfRel} (hres : resolves g m before e = true) : deletes g m before e = false := by
  by_cases htype : e.type = rMipsLo16
  · rw [resolves, htype, novlRelocJt_rMipsLo16] at hres
    rw [deletes]
    cases hlast : lastHi g m (loReg (entryWord g m e)) before with
    | none => simp
    | some h =>
        simp only [hlast] at hres
        simp [hres]
  · simp [deletes, htype]

/-- What an entry does to the table, in terms of the entries before it. -/
theorem entryEvent_eq (g : Globals) (id : OvlSection) (m : Memory) (before : List GElfRel)
    (e : GElfRel) :
    entryEvent g id m (hiloAfter g m novlRelocInit before) e =
      if resolves g m before e then .push (nintyReloc g id e)
      else if deletes g m before e then .pop else .skip := by
  rw [entryEvent, entryResult, ← entryWord]
  cases hjt : novlRelocJt e.type with
  | none =>
      have htype : e.type ≠ rMipsLo16 := type_ne_rMipsLo16 (by simp [hjt])
      simp [relocResult, resolves, deletes, hjt, htype, resultEvent]
  | some handler =>
      cases handler with
      | mips32 =>
          have htype : e.type ≠ rMipsLo16 := type_ne_rMipsLo16 (by simp [hjt])
          cases hs : getTargetSection g (entryWord g m e) with
          | none => simp [relocResult, resolves, deletes, hjt, htype, hs, resultEvent]
          | some s => simp [relocResult, resolves, hjt, hs, resultEvent]
      | mips26 =>
          have htype : e.type ≠ rMipsLo16 := type_ne_rMipsLo16 (by simp [hjt])
          cases hs : getTargetSection g (jumpTarget (entryWord g m e)) with
          | none => simp [relocResult, resolves, deletes, hjt, htype, hs, resultEvent]
          | some s =>
              by_cases htext : s = .text
              · simp [relocResult, resolves, hjt, hs, htext, resultEvent]
              · simp [relocResult, resolves, deletes, hjt, hs, htype, htext, resultEvent]
      | hi16 => simp [relocResult, resolves, hjt, resultEvent]
      | lo16 =>
          have hrow := hiloAfter_init g m (loReg (entryWord g m e)) before
          cases hlast : lastHi g m (loReg (entryWord g m e)) before with
          | none =>
              rw [hlast] at hrow
              simp [relocResult, resolves, deletes, hjt, hrow, hlast, resultEvent]
          | some h =>
              rw [hlast] at hrow
              have haddr : (entryWord g m h &&& 0xFFFF#32) <<< 16 + loImmediate (entryWord g m e) =
                  pairAddress (entryWord g m h) (entryWord g m e) := rfl
              -- `RELOC_FAIL` comes from a VALID row only; a USED row never deletes.
              cases hunused : hiUnused g m (loReg (entryWord g m e)) before <;>
                cases hs : getTargetSection g (pairAddress (entryWord g m h) (entryWord g m e)) <;>
                simp [relocResult, resolves, deletes, hjt, hrow, hlast, hunused, haddr, hs,
                  resultEvent]

/-- How many of the entries `es`, coming after `before` in their section,
have a property that depends on the entries before them. -/
def countAlong (f : List GElfRel → GElfRel → Bool) : List GElfRel → List GElfRel → ℕ
  | _, [] => 0
  | before, e :: es => (f before e).toNat + countAlong f (before ++ [e]) es

/-- At no moment have more of the entries `es` asked for a deletion than
have been put in the table. -/
def DeletionsCovered (g : Globals) (m : Memory) (before es : List GElfRel) : Prop :=
  ∀ p, p <+: es → countAlong (deletes g m) before p ≤ countAlong (resolves g m) before p

theorem pushes_pops_planEvents (g : Globals) (id : OvlSection) (m : Memory)
    (before es : List GElfRel) :
    TailStack.pushes (planEvents g id m (hiloAfter g m novlRelocInit before) es) =
        countAlong (resolves g m) before es ∧
      TailStack.pops (planEvents g id m (hiloAfter g m novlRelocInit before) es) =
        countAlong (deletes g m) before es := by
  induction es generalizing before with
  | nil => exact ⟨rfl, rfl⟩
  | cons e es ih =>
      obtain ⟨hpushes, hpops⟩ := ih (before ++ [e])
      rw [hiloAfter_append, hiloAfter_cons, hiloAfter_nil] at hpushes hpops
      rw [planEvents, entryEvent_eq, countAlong, countAlong, ← hpushes, ← hpops]
      cases hres : resolves g m before e with
      | true =>
          rw [deletes_eq_false_of_resolves hres]
          exact ⟨Nat.add_comm _ _, (Nat.zero_add _).symm⟩
      | false =>
          cases hdel : deletes g m before e with
          | true => exact ⟨(Nat.zero_add _).symm, Nat.add_comm _ _⟩
          | false => exact ⟨(Nat.zero_add _).symm, (Nat.zero_add _).symm⟩

theorem planEvents_take (g : Globals) (id : OvlSection) (m : Memory) (h : HiLoTable)
    (es : List GElfRel) (n : ℕ) :
    planEvents g id m h (es.take n) = (planEvents g id m h es).take n := by
  induction es generalizing h n with
  | nil => simp [planEvents]
  | cons e es ih =>
      cases n with
      | zero => rfl
      | succ n => simp [planEvents, ih]

theorem covered_planEvents_iff (g : Globals) (id : OvlSection) (m : Memory)
    (before es : List GElfRel) :
    TailStack.Covered (planEvents g id m (hiloAfter g m novlRelocInit before) es) ↔
      DeletionsCovered g m before es := by
  constructor
  · intro hcov p hp
    obtain ⟨q, rfl⟩ := hp
    have hprefix := hcov (planEvents g id m (hiloAfter g m novlRelocInit before) p)
      (by rw [planEvents_append]; exact List.prefix_append _ _)
    obtain ⟨hpushes, hpops⟩ := pushes_pops_planEvents g id m before p
    omega
  · intro hcov p hp
    obtain ⟨hpushes, hpops⟩ := pushes_pops_planEvents g id m before (es.take p.length)
    rw [planEvents_take, ← List.prefix_iff_eq_take.mp hp] at hpushes hpops
    have hle := hcov (es.take p.length) (List.take_prefix _ _)
    omega

theorem push_mem_planEvents_split {g : Globals} {id : OvlSection} {m : Memory}
    {before es : List GElfRel} {w : Word}
    (hw : .push w ∈ planEvents g id m (hiloAfter g m novlRelocInit before) es) :
    ∃ pre e post, es = pre ++ e :: post ∧ resolves g m (before ++ pre) e = true ∧
      w = nintyReloc g id e := by
  induction es generalizing before with
  | nil => simp [planEvents] at hw
  | cons e es ih =>
      rcases List.mem_cons.mp hw with hhead | htail
      · rw [entryEvent_eq] at hhead
        by_cases hres : resolves g m before e = true
        · rw [if_pos hres] at hhead
          exact ⟨[], e, es, rfl, by rwa [List.append_nil], TailStack.Event.push.inj hhead⟩
        · rw [if_neg hres] at hhead
          split at hhead <;> cases hhead
      · have hafter : hiloAfter g m novlRelocInit (before ++ [e]) =
            entryHilo g m (hiloAfter g m novlRelocInit before) e := hiloAfter_append ..
        rw [← hafter] at htail
        obtain ⟨pre, x, post, rfl, hres, rfl⟩ := ih htail
        refine ⟨e :: pre, x, post, rfl, ?_, rfl⟩
        rwa [List.append_assoc, List.singleton_append] at hres

/-! ### The final table -/

theorem resolves_of_entryResult {g : Globals} {m : Memory} {before : List GElfRel}
    {e : GElfRel}
    (hresult : entryResult g m (hiloAfter g m novlRelocInit before) e = .success) :
    resolves g m before e = true := by
  have hevent := entryEvent_eq g .text m before e
  rw [entryEvent, hresult, resultEvent] at hevent
  by_contra hres
  rw [if_neg hres] at hevent
  split at hevent <;> cases hevent

/-- Where an entry that resolves puts its word in the table, and what comes
before and after it. -/
theorem blockEvents_split {g : Globals} {m : Memory} {b : RelBlock}
    {pre post : List GElfRel} {e : GElfRel} (hplaced : Placed g (relList b.rels))
    (hdistinct : (relList b.rels).Pairwise fun a c => a.addr ≠ c.addr)
    (hsplit : relList b.rels = pre ++ e :: post) (hres : resolves g m pre e = true) :
    ∃ ps qs, blockEvents g m b = ps ++ .push (nintyReloc g b.id e) :: qs ∧
      .push (nintyReloc g b.id e) ∉ ps ∧ .push (nintyReloc g b.id e) ∉ qs ∧
      (TailStack.Covered qs ↔ DeletionsCovered g m (pre ++ [e]) post) := by
  rw [hsplit] at hplaced hdistinct
  have hin : relOff g e + 4 ≤ memorySize :=
    hplaced.inImage e (List.mem_append_right _ List.mem_cons_self)
  obtain ⟨-, htail, hcross⟩ := List.pairwise_append.mp hdistinct
  refine ⟨planEvents g b.id m novlRelocInit pre,
    planEvents g b.id m (hiloAfter g m novlRelocInit (pre ++ [e])) post, ?_, ?_, ?_,
    covered_planEvents_iff g b.id m (pre ++ [e]) post⟩
  · rw [blockEvents, hsplit, planEvents_append, planEvents, entryEvent_eq, if_pos hres,
      hiloAfter_append, hiloAfter_cons, hiloAfter_nil]
  · intro hpush
    obtain ⟨x, hx, heq⟩ := push_mem_planEvents hpush
    exact hcross x hx e List.mem_cons_self
      (nintyReloc_inj hin (hplaced.inImage x (List.mem_append_left _ hx)) heq).2.symm
  · intro hpush
    obtain ⟨x, hx, heq⟩ := push_mem_planEvents hpush
    have hxin := hplaced.inImage x (List.mem_append_right _ (List.mem_cons_of_mem _ hx))
    exact (List.pairwise_cons.mp htail).1 x hx (nintyReloc_inj hin hxin heq).2

theorem count_blockTable_eq_one_iff {g : Globals} {m : Memory} {b : RelBlock}
    {pre post : List GElfRel} {e : GElfRel} (hplaced : Placed g (relList b.rels))
    (hdistinct : (relList b.rels).Pairwise fun a c => a.addr ≠ c.addr)
    (hsplit : relList b.rels = pre ++ e :: post) (hres : resolves g m pre e = true) :
    (blockTable g m b).count (nintyReloc g b.id e) = 1 ↔
      DeletionsCovered g m (pre ++ [e]) post := by
  obtain ⟨ps, qs, hevents, hps, hqs, hcovered⟩ :=
    blockEvents_split hplaced hdistinct hsplit hres
  rw [blockTable, hevents, TailStack.count_run_eq_one_iff (by simp) hps hqs, hcovered]

/-- The part of a section in the table: the words of the entries that
resolve and are not deleted. -/
theorem mem_blockTable_iff {g : Globals} {m : Memory} {b : RelBlock} {w : Word}
    (hplaced : Placed g (relList b.rels))
    (hdistinct : (relList b.rels).Pairwise fun a c => a.addr ≠ c.addr) :
    w ∈ blockTable g m b ↔ ∃ pre e post, relList b.rels = pre ++ e :: post ∧
      resolves g m pre e = true ∧ DeletionsCovered g m (pre ++ [e]) post ∧
      w = nintyReloc g b.id e := by
  constructor
  · intro hw
    have hpush : .push w ∈
        planEvents g b.id m (hiloAfter g m novlRelocInit []) (relList b.rels) :=
      (TailStack.mem_run hw).resolve_left (by simp)
    obtain ⟨pre, e, post, hsplit, hres, rfl⟩ := push_mem_planEvents_split hpush
    rw [List.nil_append] at hres
    obtain ⟨ps, qs, hevents, hps, hqs, hcovered⟩ :=
      blockEvents_split hplaced hdistinct hsplit hres
    rw [blockTable, hevents, TailStack.mem_run_iff_covered (by simp) hps hqs, hcovered] at hw
    exact ⟨pre, e, post, hsplit, hres, hw, rfl⟩
  · rintro ⟨pre, e, post, hsplit, hres, hcov, rfl⟩
    obtain ⟨ps, qs, hevents, hps, hqs, hcovered⟩ :=
      blockEvents_split hplaced hdistinct hsplit hres
    rwa [blockTable, hevents, TailStack.mem_run_iff_covered (by simp) hps hqs, hcovered]

theorem count_blockTable_of_mem {g : Globals} {m : Memory} {b : RelBlock} {w : Word}
    (hplaced : Placed g (relList b.rels))
    (hdistinct : (relList b.rels).Pairwise fun a c => a.addr ≠ c.addr)
    (hw : w ∈ blockTable g m b) : (blockTable g m b).count w = 1 := by
  obtain ⟨pre, e, post, hsplit, hres, hcov, rfl⟩ := (mem_blockTable_iff hplaced hdistinct).mp hw
  exact (count_blockTable_eq_one_iff hplaced hdistinct hsplit hres).mpr hcov

theorem mem_blockTable_iff_covered {g : Globals} {m : Memory} {b : RelBlock}
    {pre post : List GElfRel} {e : GElfRel} (hplaced : Placed g (relList b.rels))
    (hdistinct : (relList b.rels).Pairwise fun a c => a.addr ≠ c.addr)
    (hsplit : relList b.rels = pre ++ e :: post) (hres : resolves g m pre e = true) :
    nintyReloc g b.id e ∈ blockTable g m b ↔ DeletionsCovered g m (pre ++ [e]) post := by
  rw [← count_blockTable_eq_one_iff hplaced hdistinct hsplit hres]
  constructor
  · exact count_blockTable_of_mem hplaced hdistinct
  · intro hcount
    exact List.count_pos_iff.mp (by omega)

/-- The section that comes after `before` leaves the word in the table: an
entry of it puts the word there, and no deletion in the rest of the section
comes across it. Words are read as the section finds them when its turn
comes. -/
def KeptBy (g : Globals) (m : Memory) (before : List RelBlock) (b : RelBlock) (w : Word) :
    Prop :=
  ∃ start pre e post, realBefore g m before b.id [] = .ok start ∧
    relList b.rels = pre ++ e :: post ∧ resolves g start.reloc.memory pre e = true ∧
    DeletionsCovered g start.reloc.memory (pre ++ [e]) post ∧ w = nintyReloc g b.id e

/-- The positions of the sections that leave the word in the table. -/
def keepers (g : Globals) (m : Memory) (bs : List RelBlock) (w : Word) : Set ℕ :=
  {n | ∃ before b after, bs = before ++ b :: after ∧ before.length = n ∧ KeptBy g m before b w}

theorem keepers_lt {g : Globals} {m : Memory} {bs : List RelBlock} {w : Word} {n : ℕ}
    (hn : n ∈ keepers g m bs w) : n < bs.length := by
  obtain ⟨before, b, after, rfl, rfl, -⟩ := hn
  rw [List.length_append, List.length_cons]
  omega

theorem mem_keepers_iff {g : Globals} {m : Memory} {before after : List RelBlock} {b : RelBlock}
    {w : Word} :
    before.length ∈ keepers g m (before ++ b :: after) w ↔ KeptBy g m before b w := by
  constructor
  · rintro ⟨before', b', after', hsplit, hlen, hkept⟩
    obtain ⟨rfl, hrest⟩ := List.append_inj hsplit hlen.symm
    obtain ⟨rfl, -⟩ := List.cons.inj hrest
    exact hkept
  · intro hkept
    exact ⟨before, b, after, rfl, rfl, hkept⟩

theorem keepers_append_singleton {g : Globals} {m : Memory} {bs : List RelBlock}
    {b : RelBlock} {w : Word} {n : ℕ} :
    n ∈ keepers g m (bs ++ [b]) w ↔
      n ∈ keepers g m bs w ∨ n = bs.length ∧ KeptBy g m bs b w := by
  constructor
  · rintro ⟨before, c, after, hsplit, rfl, hkept⟩
    rcases after.eq_nil_or_concat with rfl | ⟨after, d, rfl⟩
    · obtain ⟨rfl, hlast⟩ := List.append_inj' hsplit rfl
      obtain ⟨rfl, -⟩ := List.cons.inj hlast
      exact Or.inr ⟨rfl, hkept⟩
    · rw [List.concat_eq_append, ← List.cons_append, ← List.append_assoc] at hsplit
      obtain ⟨rfl, -⟩ := List.append_inj' hsplit rfl
      exact Or.inl ⟨before, c, after, rfl, rfl, hkept⟩
  · rintro (⟨before, c, after, rfl, rfl, hkept⟩ | ⟨rfl, hkept⟩)
    · exact ⟨before, c, after ++ [b], by simp, rfl, hkept⟩
    · exact ⟨bs, b, [], rfl, rfl, hkept⟩

theorem keptBy_iff {g : Globals} {m : Memory} {before : List RelBlock} {b : RelBlock} {w : Word}
    {st : RealState} (hplaced : Placed g (relList b.rels))
    (hdistinct : (relList b.rels).Pairwise fun a c => a.addr ≠ c.addr)
    (hrun : realPass g m before = .ok st) :
    KeptBy g m before b w ↔ w ∈ blockTable g st.reloc.memory b := by
  have hstart : realBefore g m before b.id [] =
      .ok { st with last := none, reloc.hilo := novlRelocInit } := by
    rw [realPass] at hrun
    rw [realBefore, hrun]
    rfl
  rw [mem_blockTable_iff hplaced hdistinct]
  constructor
  · rintro ⟨start, pre, e, post, hstart', hsplit, hres, hcov, rfl⟩
    cases hstart.symm.trans hstart'
    exact ⟨pre, e, post, hsplit, hres, hcov, rfl⟩
  · rintro ⟨pre, e, post, hsplit, hres, hcov, rfl⟩
    exact ⟨_, pre, e, post, hstart, hsplit, hres, hcov, rfl⟩

/-- A word is in the table as often as there are sections that leave it
there. -/
theorem count_nintyRelocs {g : Globals} {m : Memory} {bs : List RelBlock} {real : RealState}
    (hspread : Spread bs) (hreal : realPass g m bs = .ok real) (w : Word) :
    real.nintyRelocs.count w = (keepers g m bs w).ncard := by
  induction bs using List.reverseRecOn generalizing real with
  | nil =>
      cases hreal
      have hnone : keepers g m [] w = ∅ :=
        Set.eq_empty_of_forall_notMem fun n hn => absurd (keepers_lt hn) (Nat.not_lt_zero n)
      rw [hnone, Set.ncard_empty]
      rfl
  | append_singleton bs b ih =>
      rw [realPass, List.foldlM_append] at hreal
      obtain ⟨st, hbs, hrest⟩ := exists_of_bind_eq_ok hreal
      rw [List.foldlM_cons] at hrest
      obtain ⟨st', hblock, hlast⟩ := exists_of_bind_eq_ok hrest
      cases hlast
      have hb : b ∈ bs ++ [b] := List.mem_append_right _ List.mem_cons_self
      have hinit : Spread bs :=
        ⟨fun c hc => hspread.aligned c (List.mem_append_left _ hc),
          fun c hc => hspread.distinct c (List.mem_append_left _ hc)⟩
      obtain ⟨hplaced, -, htable, -⟩ :=
        realBlock_ok (realBlocks_bookkeeping rfl hbs).1 (hspread.apart hb) hblock
      have hdistinct := hspread.distinct_relList hb
      have hkept := keptBy_iff (w := w) hplaced hdistinct hbs
      rw [htable, List.count_append, ih hinit hbs]
      by_cases hw : w ∈ blockTable g st.reloc.memory b
      · have hset : keepers g m (bs ++ [b]) w = insert bs.length (keepers g m bs w) := by
          ext n
          simp only [keepers_append_singleton, hkept.mpr hw, and_true, Set.mem_insert_iff]
          exact or_comm
        rw [hset, Set.ncard_insert_of_notMem (fun hn => (keepers_lt hn).ne rfl)
          ((Set.finite_lt_nat bs.length).subset fun n hn => keepers_lt hn),
          count_blockTable_of_mem hplaced hdistinct hw]
      · have hset : keepers g m (bs ++ [b]) w = keepers g m bs w := by
          ext n
          rw [keepers_append_singleton, or_iff_left fun h => hw (hkept.mp h.2)]
        rw [hset, List.count_eq_zero.mpr hw, Nat.add_zero]

/-- The section of an entry that succeeds leaves the entry's word in the
table unless a deletion in the rest of the section comes across it. -/
theorem keptBy_own_iff {g : Globals} {m : Memory} {before after : List RelBlock}
    {b : RelBlock} {pre post : List GElfRel} {e : GElfRel} {real start st : RealState}
    {reloc : RelocState} (hspread : Spread (before ++ b :: after))
    (hreal : realPass g m (before ++ b :: after) = .ok real)
    (hsplit : relList b.rels = pre ++ e :: post)
    (hstart : realBefore g m before b.id [] = .ok start)
    (hst : realBefore g m before b.id pre = .ok st)
    (hdo : novlRelocDo g (relOff g e) e.type false st.reloc = some (.success, reloc)) :
    KeptBy g m before b (nintyReloc g b.id e) ↔
      DeletionsCovered g start.reloc.memory (pre ++ [e]) post := by
  have hb : b ∈ before ++ b :: after := List.mem_append_right _ List.mem_cons_self
  rw [realPass, List.foldlM_append] at hreal
  obtain ⟨st₁, hbefore, hrest⟩ := exists_of_bind_eq_ok hreal
  rw [List.foldlM_cons] at hrest
  obtain ⟨st₂, hblock, -⟩ := exists_of_bind_eq_ok hrest
  have hcount := (realBlocks_bookkeeping rfl hbefore).1
  obtain ⟨hplaced, hok, -, -⟩ := realBlock_ok hcount (hspread.apart hb) hblock
  have hdistinct := hspread.distinct_relList hb
  -- The section starts with the memory the sections before have left.
  have hmemory : start.reloc.memory = st₁.reloc.memory := by
    rw [realBefore, hbefore] at hstart
    cases hstart
    rfl
  have hresult : entryResult g st₁.reloc.memory
      (hiloAfter g st₁.reloc.memory novlRelocInit pre) e = .success := by
    rw [blockError, hsplit, planError_append, Bool.or_eq_false_iff] at hok
    obtain ⟨st', reloc', hrun, hdo'⟩ := realEntries_before b.id (m := st₁.reloc.memory)
      { st₁ with last := none, reloc.hilo := novlRelocInit } rfl
      (Bookkeeping.start rfl hcount) (hsplit ▸ hplaced) (fun _ _ => rfl) hok.1
    rw [realBefore, hbefore] at hst
    obtain rfl : st' = st := Except.ok.inj (hrun.symm.trans hst)
    rw [hdo, Option.some.injEq, Prod.mk.injEq] at hdo'
    exact hdo'.1.symm
  rw [keptBy_iff hplaced hdistinct hbefore, hmemory]
  exact mem_blockTable_iff_covered hplaced hdistinct hsplit (resolves_of_entryResult hresult)

/-- An entry that succeeds has its overlay relocation in the final table
exactly once if and only if its own section leaves it there and no other
section leaves the same word, or its own section does not and exactly one
other does. Its own section leaves it there when, in the rest of the
section, the deletions never outnumber the entries put in the table before
them. -/
theorem realPass_entry_once_iff {g : Globals} {m : Memory} {before after : List RelBlock}
    {b : RelBlock} {pre post : List GElfRel} {e : GElfRel} {real start st : RealState}
    {reloc : RelocState} (hspread : Spread (before ++ b :: after))
    (hreal : realPass g m (before ++ b :: after) = .ok real)
    (hsplit : relList b.rels = pre ++ e :: post)
    (hstart : realBefore g m before b.id [] = .ok start)
    (hst : realBefore g m before b.id pre = .ok st)
    (hdo : novlRelocDo g (relOff g e) e.type false st.reloc = some (.success, reloc)) :
    real.nintyRelocs.count (nintyReloc g b.id e) = 1 ↔
      DeletionsCovered g start.reloc.memory (pre ++ [e]) post ∧
          (∀ n ∈ keepers g m (before ++ b :: after) (nintyReloc g b.id e), n = before.length) ∨
        ¬ DeletionsCovered g start.reloc.memory (pre ++ [e]) post ∧
          ∃! n, n ≠ before.length ∧
            n ∈ keepers g m (before ++ b :: after) (nintyReloc g b.id e) := by
  rw [count_nintyRelocs hspread hreal, Set.ncard_eq_one,
    ← keptBy_own_iff hspread hreal hsplit hstart hst hdo, ← mem_keepers_iff]
  constructor
  · rintro ⟨n, hn⟩
    rw [hn]
    by_cases hmem : before.length = n
    · exact Or.inl ⟨hmem, fun k hk => hk.trans hmem.symm⟩
    · exact Or.inr ⟨hmem, n, ⟨Ne.symm hmem, rfl⟩, fun _ hk => hk.2⟩
  · rintro (⟨hmem, hall⟩ | ⟨hnot, n, hn, hall⟩)
    · exact ⟨before.length, Set.eq_singleton_iff_unique_mem.mpr ⟨hmem, hall⟩⟩
    · refine ⟨n, Set.eq_singleton_iff_unique_mem.mpr ⟨hn.2, fun k hk => hall k ⟨?_, hk⟩⟩⟩
      rintro rfl
      exact hnot hk

/-! A pointer between a HI16 and its LO16, whose address is in no section. -/

def straddledText : List Word := [0x3C019000, 0x80000000, 0x8C220000, 0x00000000]

def straddledBlock : RelBlock where
  id := .text
  rels := [⟨0x80000000, 5⟩, ⟨0x80000004, 2⟩, ⟨0x80000008, 6⟩]

def straddledMemory : Memory := copyBytes (fun _ => 0) 0 (straddledText.flatMap wordBytes)

theorem straddledBlock_spread : Spread [straddledBlock] where
  aligned := by decide +kernel
  distinct := by decide +kernel

theorem straddledBlock_pointer_not_once :
    ∃ real, realPass mixedGlobals straddledMemory [straddledBlock] = .ok real ∧
      real.nintyRelocs.count (nintyReloc mixedGlobals .text ⟨0x80000004, 2⟩) ≠ 1 := by
  obtain ⟨real, hreal, -⟩ := exists_ok_of_map
    (x := realPass mixedGlobals straddledMemory [straddledBlock]) (fun _ => true)
    (by decide +kernel)
  obtain ⟨start, hstart, hcounts⟩ := exists_ok_of_map
    (x := realBefore mixedGlobals straddledMemory [] .text [])
    (fun st => countAlong (resolves mixedGlobals st.reloc.memory)
        [⟨0x80000000, 5⟩, ⟨0x80000004, 2⟩] [⟨0x80000008, 6⟩] <
      countAlong (deletes mixedGlobals st.reloc.memory)
        [⟨0x80000000, 5⟩, ⟨0x80000004, 2⟩] [⟨0x80000008, 6⟩]) (by decide +kernel)
  obtain ⟨st, hst, hsuccess⟩ := exists_ok_of_map
    (x := realBefore mixedGlobals straddledMemory [] .text [⟨0x80000000, 5⟩])
    (fun st => (novlRelocDo mixedGlobals 4 2 false st.reloc).map Prod.fst = some .success)
    (by decide +kernel)
  obtain ⟨⟨v, reloc⟩, hdo, rfl⟩ := Option.map_eq_some_iff.mp (of_decide_eq_true hsuccess)
  refine ⟨real, hreal, fun hone => ?_⟩
  have hsplit : relList straddledBlock.rels =
      [⟨0x80000000, 5⟩] ++ ⟨0x80000004, 2⟩ :: [⟨0x80000008, 6⟩] := by decide +kernel
  have hspread : Spread ([] ++ straddledBlock :: []) := straddledBlock_spread
  rcases (realPass_entry_once_iff hspread hreal hsplit hstart hst hdo).mp hone with
    ⟨hcovered, -⟩ | ⟨-, n, ⟨hother, hn⟩, -⟩
  · exact absurd (of_decide_eq_true hcounts) (hcovered _ (List.prefix_refl _)).not_gt
  · exact hother (Nat.lt_one_iff.mp (keepers_lt hn))

def straddledElf : Elf := sampleElf straddledText straddledBlock.rels []

theorem straddledElf_pointer_lost :
    ∃ c, convert straddledElf 0x80800000 = .ok c ∧
      (∃ st reloc, realBefore c.globals c.loaded [] .text [⟨0x80000000, 5⟩] = .ok st ∧
        novlRelocDo c.globals (relOff c.globals ⟨0x80000004, 2⟩) rMips32 false st.reloc =
          some (.success, reloc)) ∧
      c.nintyRelocs.count (nintyReloc c.globals .text ⟨0x80000004, 2⟩) = 0 := by
  obtain ⟨c, hconvert, hc⟩ := exists_ok_of_map (x := convert straddledElf 0x80800000)
    (fun c => decide (c.nintyRelocs.count (nintyReloc c.globals .text ⟨0x80000004, 2⟩) = 0) &&
      decide ((realBefore c.globals c.loaded [] .text [⟨0x80000000, 5⟩]).toOption.map (fun st =>
        decide ((novlRelocDo c.globals (relOff c.globals ⟨0x80000004, 2⟩) rMips32 false
          st.reloc).map Prod.fst = some .success)) = some true)) (by decide +kernel)
  obtain ⟨hcount, hbefore⟩ := Bool.and_eq_true_iff.mp hc
  obtain ⟨st, hst, hsuccess⟩ := exists_ok_of_map _ (of_decide_eq_true hbefore)
  obtain ⟨⟨v, reloc⟩, hdo, rfl⟩ := Option.map_eq_some_iff.mp (of_decide_eq_true hsuccess)
  exact ⟨c, hconvert, ⟨st, reloc, hst, hdo⟩, of_decide_eq_true hcount⟩

end Novl
