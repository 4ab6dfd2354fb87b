import Novl.Jumps
import Novl.MovingBytes
import Novl.RoundTrip

/-!
Conversions that move nothing, or everything by whole high halves.

If no section moves, relocating writes back every word as it was: a pointer
and a jump field are put together again from the address they were taken
apart into, and so are the two halves of a pair, unless the address lies so
high that its carry leaves the word. This needs nothing of the entries.
If all sections that have a size move by one multiple of `0x10000`, the low
halves stay, and all users of a HI16 ask it for the same high half.
-/

namespace Novl

open ByteMemory FallibleRun SplitWord

/-! ### Words written back -/

section Words

variable {m : Memory} {w a : Word}

theorem withLow_self (h : lowHalf a = immediate w) : withLow a w = w := by
  apply BitVec.eq_of_getLsbD_eq
  intro i hi
  rw [getLsbD_withLow a w hi]
  split
  · rename_i hlt
    rw [← getLsbD_immediate w hlt, ← h]
    exact (getLsbD_immediate a hlt).symm
  · rfl

theorem withHigh_self (h : highHalf a = immediate w) (hcarry : a.toNat + 2 ^ 15 < 2 ^ 32) :
    withHigh a w = w := by
  apply BitVec.eq_of_getLsbD_eq
  intro i hi
  rcases lt_trichotomy i 16 with hlt | rfl | hgt
  · rw [← getLsbD_immediate _ hlt, immediate_withHigh, h, getLsbD_immediate w hlt]
  · rw [getLsbD_withHigh a w le_rfl hi, getLsbD_carriedHigh_16, decide_eq_false (by omega),
      Bool.or_false]
  · rw [getLsbD_withHigh a w hgt.le hi, getLsbD_carriedHigh_of_lt a hgt, Bool.or_false]

/-- Two words that form the address already are left as they are. -/
theorem updatePair_self {ptr i : ℕ}
    (ha : a = combine (immediate (loadWord m ptr)) (immediate (loadWord m i)))
    (hcarry : a.toNat + 2 ^ 15 < 2 ^ 32) : updatePair m ptr i a = m := by
  have hlow : lowHalf a = immediate (loadWord m i) := by rw [ha, lowHalf_combine]
  have hhigh : highHalf a = immediate (loadWord m ptr) := by rw [ha, highHalf_combine]
  change storeWord (storeWord m i (withLow a (loadWord m i))) ptr
    (withHigh a (loadWord m ptr)) = m
  rw [withLow_self hlow, storeWord_loadWord, withHigh_self hhigh hcarry, storeWord_loadWord]

/-- A jump into the segment the relocator assumes is left as it is. -/
theorem withJumpTarget_self : withJumpTarget w (jumpTarget w) = w := by
  have hopcode := congrArg BitVec.toNat (withJumpTarget_opcode w (jumpTarget w))
  have hfield := toNat_withJumpTarget_field w (jumpTarget w)
  rw [BitVec.toNat_ushiftRight, BitVec.toNat_ushiftRight, Nat.shiftRight_eq_div_pow,
    Nat.shiftRight_eq_div_pow] at hopcode
  rw [toNat_jumpTarget] at hfield
  apply BitVec.eq_of_toNat_eq
  omega

end Words

/-! ### Nothing moves -/

/-- The rows of the register table hold the high halves that are in
`memory`. -/
def RowsMatch (m : Memory) (t : HiLoTable) : Prop :=
  ∀ r ptr reg, t r = .valid ptr reg ∨ t r = .used ptr reg →
    reg = (loadWord m ptr &&& 0xFFFF#32) <<< 16

/-- No section that something can lie in moves, and none reaches the last
`0x8000` bytes. -/
structure Unmoved (g : Globals) : Prop where
  starts : ∀ i, g.sizes i ≠ 0 → g.ovlStarts i = g.elfStarts i
  top : ∀ i, g.sizes i ≠ 0 → (g.elfStarts i + g.sizes i).toNat ≤ 0xFFFF8000

section Nothing

variable {g : Globals} {m : Memory}

/-- Only a section with a size has addresses in it. -/
theorem sizes_ne_zero_of_target {a : Word} {s : OvlSection}
    (hs : getTargetSection g a = some s) : g.sizes s ≠ 0 := by
  obtain ⟨hstart, hend⟩ := inExtent_iff.mp (getTargetSection_eq_some_iff.mp hs).1
  intro hzero
  have hzero' : (g.sizes s).toNat = 0 := by rw [hzero]; rfl
  omega

theorem Unmoved.of_target (h : Unmoved g) {a : Word} {s : OvlSection}
    (hs : getTargetSection g a = some s) : g.delta s = 0 ∧ a.toNat + 2 ^ 15 < 2 ^ 32 := by
  obtain ⟨hstart, hend⟩ := inExtent_iff.mp (getTargetSection_eq_some_iff.mp hs).1
  have hsize := sizes_ne_zero_of_target hs
  have htop := h.top s hsize
  rw [BitVec.toNat_add] at htop
  refine ⟨?_, by omega⟩
  rw [Globals.delta, h.starts s hsize, BitVec.sub_self]
  rfl

/-- An address is its own relocated address. -/
theorem Unmoved.adjustAddress (h : Unmoved g) (a type : Word) :
    ∃ r, Novl.adjustAddress g a type false = (r, a) ∧
      (r = .success → a.toNat + 2 ^ 15 < 2 ^ 32) := by
  rw [adjustAddress_real]
  cases hs : getTargetSection g a with
  | none => exact ⟨.fail, rfl, fun hr => by cases hr⟩
  | some s =>
      obtain ⟨hdelta, htop⟩ := h.of_target hs
      by_cases hjump : type = rMips26 ∧ s ≠ .text
      · exact ⟨.error, if_pos hjump, fun hr => by cases hr⟩
      · refine ⟨.success, ?_, fun _ => htop⟩
        simp only
        rw [if_neg hjump, hdelta]
        exact congrArg _ (BitVec.add_zero a)

theorem rowsMatch_init : RowsMatch m novlRelocInit := by
  rintro r ptr reg (h | h)
  · cases h
  · cases h

theorem RowsMatch.update {t : HiLoTable} (ht : RowsMatch m t) {r : Reg} {row : HiLoPair}
    (hrow : ∀ ptr reg, row = .valid ptr reg ∨ row = .used ptr reg →
      reg = (loadWord m ptr &&& 0xFFFF#32) <<< 16) : RowsMatch m (Function.update t r row) := by
  intro r' ptr reg h
  by_cases hr : r' = r
  · subst hr
    rw [Function.update_self] at h
    exact hrow ptr reg h
  · rw [Function.update_of_ne hr] at h
    exact ht r' ptr reg h

theorem Unmoved.novlRelocMipsLo16 (h : Unmoved g) {i : ℕ} {t : HiLoTable}
    (ht : RowsMatch m t) :
    (Novl.novlRelocMipsLo16 g i false ⟨m, t⟩).2.memory = m ∧
      RowsMatch m (Novl.novlRelocMipsLo16 g i false ⟨m, t⟩).2.hilo := by
  have hkeep {ptr : ℕ} {hi : Word} (hhi : hi = (loadWord m ptr &&& 0xFFFF#32) <<< 16) :
      RowsMatch m (Function.update t (loReg (loadWord m i)) (.used ptr hi)) := by
    refine ht.update fun ptr' reg hrow => ?_
    rcases hrow with hrow | hrow
    · cases hrow
    · cases hrow
      exact hhi
  have hpair {ptr : ℕ} {hi : Word} (hhi : hi = (loadWord m ptr &&& 0xFFFF#32) <<< 16)
      (htop : (hi + loImmediate (loadWord m i)).toNat + 2 ^ 15 < 2 ^ 32) :
      updatePair m ptr i (hi + loImmediate (loadWord m i)) = m := by
    refine updatePair_self ?_ htop
    rw [← pairAddress_eq, pairAddress, hhi]
  -- A row that is set is treated alike, used or not.
  have hset {ptr : ℕ} {hi : Word}
      (hrow : t (loReg (loadWord m i)) = .valid ptr hi ∨ t (loReg (loadWord m i)) = .used ptr hi) :
      (Novl.novlRelocMipsLo16 g i false ⟨m, t⟩).2.memory = m ∧
        RowsMatch m (Novl.novlRelocMipsLo16 g i false ⟨m, t⟩).2.hilo := by
    have hhi := ht _ ptr hi hrow
    obtain ⟨r, hr, htop⟩ := h.adjustAddress (hi + loImmediate (loadWord m i)) rMipsLo16
    rcases hrow with hrow | hrow
    all_goals
      simp only [Novl.novlRelocMipsLo16, hrow, hr]
      cases r with
      | success => exact ⟨hpair hhi (htop rfl), hkeep hhi⟩
      | _ => exact ⟨rfl, hkeep hhi⟩
  cases hrow : t (loReg (loadWord m i)) with
  | invalid =>
      simp only [Novl.novlRelocMipsLo16, hrow]
      exact ⟨trivial, ht⟩
  | valid ptr hi => exact hset (Or.inl hrow)
  | used ptr hi => exact hset (Or.inr hrow)

theorem Unmoved.novlRelocDo (h : Unmoved g) {i : ℕ} {type : Word} {t : HiLoTable}
    (ht : RowsMatch m t) {v : RelocResult} {reloc : RelocState}
    (hdo : Novl.novlRelocDo g i type false ⟨m, t⟩ = some (v, reloc)) :
    reloc.memory = m ∧ RowsMatch m reloc.hilo := by
  rw [Novl.novlRelocDo] at hdo
  split at hdo
  · cases hdo
    exact ⟨rfl, ht⟩
  · rename_i handler hjt
    split at hdo
    · have hcall := Option.some.inj hdo
      cases handler with
      | mips32 =>
          obtain ⟨r, hr, -⟩ := h.adjustAddress (loadWord m i) rMips32
          simp only [novlRelocMips32, hr] at hcall
          cases r with
          | success =>
              cases hcall
              exact ⟨storeWord_loadWord m i, ht⟩
          | _ =>
              cases hcall
              exact ⟨rfl, ht⟩
      | mips26 =>
          obtain ⟨r, hr, -⟩ := h.adjustAddress (jumpTarget (loadWord m i)) rMips26
          simp only [novlRelocMips26, hr] at hcall
          cases r with
          | success =>
              cases hcall
              refine ⟨?_, ht⟩
              change storeWord m i (withJumpTarget _ (jumpTarget _)) = m
              rw [withJumpTarget_self, storeWord_loadWord]
          | _ =>
              cases hcall
              exact ⟨rfl, ht⟩
      | hi16 =>
          cases hcall
          refine ⟨rfl, ht.update fun ptr reg hrow => ?_⟩
          rcases hrow with hrow | hrow
          · cases hrow
            rfl
          · cases hrow
      | lo16 =>
          have hlo : Novl.novlRelocMipsLo16 g i false ⟨m, t⟩ = (v, reloc) := hcall
          have hkeep := h.novlRelocMipsLo16 (i := i) ht
          rw [hlo] at hkeep
          exact hkeep
    · cases hdo

theorem Unmoved.realEntry (h : Unmoved g) {id : OvlSection} {st st' : RealState} {e : GElfRel}
    (hst : st.reloc.memory = m ∧ RowsMatch m st.reloc.hilo)
    (hstep : Novl.realEntry g id st e = .ok st') :
    st'.reloc.memory = m ∧ RowsMatch m st'.reloc.hilo := by
  obtain ⟨v, hdo, -⟩ := realEntry_ok hstep
  obtain ⟨hmemory, hrows⟩ := hst
  subst hmemory
  exact h.novlRelocDo hrows hdo

/-- A real pass after which no section has moved leaves `memory` as it
was, whatever the entries. -/
theorem realPass_unmoved (h : Unmoved g) {bs : List RelBlock} {st : RealState}
    (hreal : realPass g m bs = .ok st) : st.reloc.memory = m := by
  have hblock (st : RealState) (b : RelBlock) (st' : RealState) (hst : st.reloc.memory = m)
      (hb : realBlock g st b = .ok st') : st'.reloc.memory = m := by
    have hentries : st'.reloc.memory = m ∧ RowsMatch m st'.reloc.hilo := by
      rw [realBlock] at hb
      have hstep (s : RealState) (e : GElfRel) (s' : RealState)
          (hs : s.reloc.memory = m ∧ RowsMatch m s.reloc.hilo)
          (he : Novl.realEntry g b.id s e = .ok s') :
          s'.reloc.memory = m ∧ RowsMatch m s'.reloc.hilo := h.realEntry hs he
      refine foldlM_keeps (P := fun s : RealState => s.reloc.memory = m ∧
        RowsMatch m s.reloc.hilo) hstep ?_ hb
      exact ⟨hst, rowsMatch_init⟩
    exact hentries.1
  exact foldlM_keeps (P := fun st : RealState => st.reloc.memory = m) hblock rfl hreal

end Nothing

/-- A conversion that moves nothing, and that has no section in the last
`0x8000` bytes, writes the sections as they were loaded; and the overlay
that is read back exposes them so, if the file is shorter than 2 GB. -/
theorem convert_unmoved {elf : Elf} {base : Word} {c : Converted}
    (h : convert elf base = .ok c) (hunmoved : Unmoved c.globals)
    (hshort : c.file.length < 2 ^ 31) :
    ∃ ovl, ovlLoad c.file = .ok ovl ∧ ∀ i, i ≠ .bss → ovl.sectionBytes i =
      readBytes c.loaded (sectionPos c.globals i) (c.globals.sizes i).toNat := by
  have hconversion := conversion_of_convert h
  obtain ⟨real, hreal, hmemory, -, -⟩ := hconversion.real
  have hsame : c.memory = c.loaded := by
    rw [← hmemory]
    exact realPass_unmoved hunmoved hreal
  have hload := hconversion.ovlLoad_eq hshort
  refine ⟨_, hload, fun i hi => ?_⟩
  rw [hconversion.sectionBytes_eq hshort hload hi, Converted.sectionImage, hsame]

theorem mixedElf_unmoved :
    ∃ c ovl, convert mixedElf 0x80000000 = .ok c ∧ ovlLoad c.file = .ok ovl ∧
      ∀ i, i ≠ .bss → ovl.sectionBytes i =
        readBytes c.loaded (sectionPos c.globals i) (c.globals.sizes i).toNat := by
  obtain ⟨c, hconvert, hc⟩ := exists_ok_of_map (x := convert mixedElf 0x80000000)
    (fun c => OvlSection.all.all (fun i => decide (c.globals.sizes i ≠ 0 →
        c.globals.ovlStarts i = c.globals.elfStarts i ∧
        (c.globals.elfStarts i + c.globals.sizes i).toNat ≤ 0xFFFF8000)) &&
      decide (c.file.length < 2 ^ 31)) (by decide +kernel)
  rw [Bool.and_eq_true, decide_eq_true_iff, List.all_eq_true] at hc
  have hsections (i : OvlSection) (hi : c.globals.sizes i ≠ 0) :=
    of_decide_eq_true (hc.1 i (OvlSection.mem_all i)) hi
  have hunmoved : Unmoved c.globals :=
    ⟨fun i hi => (hsections i hi).1, fun i hi => (hsections i hi).2⟩
  obtain ⟨ovl, hload, hbytes⟩ := convert_unmoved hconvert hunmoved hc.2
  exact ⟨c, ovl, hconvert, hload, hbytes⟩

/-! ### Everything moves by whole high halves -/

/-- If all sections with a size move by the same high half, every HI16 and
every LO16 paired with it form their relocated address, however many share
the HI16, and the LO16s stay as they are. -/
theorem realPass_shared_high_of_common {g : Globals} {m : Memory} {bs : List RelBlock}
    (haligned : ∀ b ∈ bs, ∀ e ∈ b.rels, e.addr.toNat % 4 = 0)
    (hdistinct : (bs.flatMap fun b => b.rels).Pairwise fun a b => a.addr ≠ b.addr)
    (hdry : DryOk g m bs) {o : OvlSection → Word} {d : BitVec 16}
    (hmove : ∀ i, g.sizes i ≠ 0 → o i = g.elfStarts i + d.setWidth 32 <<< 16) :
    ∃ real, realPass { g with ovlStarts := o } m bs = .ok real ∧
      ∀ b ∈ bs, ∀ h ∈ b.rels, ∀ l s, Paired g m (relList b.rels) h l →
        getTargetSection g (pairAddress (entryWord g m h) (entryWord g m l)) = some s →
        pairAddress (loadWord real.reloc.memory (relOff g h))
            (loadWord real.reloc.memory (relOff g l)) =
          pairAddress (entryWord g m h) (entryWord g m l) + d.setWidth 32 <<< 16 ∧
        immediate (loadWord real.reloc.memory (relOff g l)) = immediate (entryWord g m l) := by
  have hadd (h l : BitVec 16) := combine_add_high h l d
  generalize d.setWidth 32 <<< 16 = x at hadd hmove ⊢
  have hplaced := hdry.wellPlaced haligned hdistinct
  obtain ⟨real, hreal, hmem⟩ := hdry.realPass_finalMemory hplaced.placed o
  refine ⟨real, hreal, fun b hb h hh l s hpair hs => ?_⟩
  have hjt : novlRelocJt h.type = some .hi16 := by
    obtain ⟨-, -, -, -, hsets, -⟩ := hpair
    exact hsets.1
  obtain ⟨before, after, rfl⟩ := List.append_of_mem hb
  obtain ⟨pre, post, hsplit⟩ := List.append_of_mem (mem_relList.mpr hh)
  have hplaced' := hplaced.placed.ovlStarts o
  have hiff := final_pairs_iff (g := { g with ovlStarts := o }) (m := m) hplaced' hsplit hjt
  simp only [relocated_ovlStarts_eq_some_iff] at hiff
  have hmoved {a : Word} {s : OvlSection} (hs : getTargetSection g a = some s) :
      a + o s - g.elfStarts s = a + x := by
    rw [hmove s (sizes_ne_zero_of_target hs)]
    bv_omega
  have hhigh (hw lw : Word) : highHalf (pairAddress hw lw + x) = immediate hw + d := by
    rw [pairAddress_eq, hadd, highHalf_combine]
  -- Whichever LO16 comes last, the HI16 ends with the same high half.
  have hpairs := hiff.mpr fun l a l' a' _ ⟨s, hs, ha⟩ _ ⟨s', hs', ha'⟩ => by
    rw [← ha, ← ha', hmoved hs, hmoved hs', hhigh, hhigh]
  rw [hmem]
  constructor
  · rw [pairAddress_eq]
    exact hpairs l _ hpair ⟨s, hs, hmoved hs⟩
  · have hlow := final_lo16 hplaced' hpair
      (relocated_ovlStarts_eq_some_iff.mpr ⟨s, hs, hmoved hs⟩)
    have hsame : lowHalf (pairAddress (entryWord g m h) (entryWord g m l) + x) =
        immediate (entryWord g m l) := by
      rw [pairAddress_eq, hadd, lowHalf_combine]
    exact hlow.trans hsame

theorem crossingBlock_shared_high :
    let moved (i : OvlSection) : Word :=
      if crossingGlobals.sizes i = 0 then 0 else crossingGlobals.elfStarts i + 0x800000
    ∃ real, realPass { crossingGlobals with ovlStarts := moved } crossingMemory [crossingBlock] =
        .ok real ∧
      pairAddress (loadWord real.reloc.memory 0) (loadWord real.reloc.memory 4) = 0x80807FE0 ∧
      pairAddress (loadWord real.reloc.memory 0) (loadWord real.reloc.memory 8) = 0x80807FF0 := by
  intro moved
  have hdry : DryOk crossingGlobals crossingMemory [crossingBlock] := by decide +kernel
  have hmove (i : OvlSection) (hi : crossingGlobals.sizes i ≠ 0) :
      moved i = crossingGlobals.elfStarts i + (128#16).setWidth 32 <<< 16 := if_neg hi
  obtain ⟨real, hreal, hall⟩ := realPass_shared_high_of_common (by decide +kernel)
    (by decide +kernel) hdry hmove
  have hfirst := (hall crossingBlock (by simp) ⟨0x80000000, 5⟩ (by decide) ⟨0x80000004, 6⟩ .bss
    crossingBlock_paired.1 (by decide +kernel)).1
  have hsecond := (hall crossingBlock (by simp) ⟨0x80000000, 5⟩ (by decide) ⟨0x80000008, 6⟩ .bss
    crossingBlock_paired.2 (by decide +kernel)).1
  exact ⟨real, hreal, hfirst.trans (by decide +kernel), hsecond.trans (by decide +kernel)⟩

end Novl
