import Novl.MovingBytes

/-!
The instructions of a pair after the real pass.

A LO16 instruction gets a new immediate and nothing else. For a HI16 the
carry of the low half is added to the upper half of the address, and the
sum goes into the instruction as it is; at the top of the address space it
has seventeen bits, and the last one sets the lowest bit of the register
field. A HI16 with a single LO16 whose address stays below that point is
relocated exactly, whatever stands between the two.
-/

namespace Novl

open ByteMemory FallibleRun SplitWord

/-! ### Upper halves -/

theorem getLsbD_upper (w : Word) (i : ℕ) : (w >>> 16).getLsbD i = w.getLsbD (16 + i) :=
  BitVec.getLsbD_ushiftRight w 16 i

theorem withLow_upper (a w : Word) : withLow a w >>> 16 = w >>> 16 := by
  apply BitVec.eq_of_getLsbD_eq
  intro i hi
  rw [getLsbD_upper, getLsbD_upper]
  by_cases hlt : 16 + i < 32
  · rw [getLsbD_withLow a w hlt, if_neg (by omega)]
  · rw [BitVec.getLsbD_of_ge _ _ (by omega), BitVec.getLsbD_of_ge _ _ (by omega)]

/-- The high halves written to a word leave the rest of it alone, unless a
carry sets a bit that was clear. -/
theorem foldl_withHigh_upper_iff (as : List Word) (w : Word) :
    as.foldl (fun w a => withHigh a w) w >>> 16 = w >>> 16 ↔
      w.getLsbD 16 = true ∨ ∀ a ∈ as, a.toNat < 0xFFFF8000 := by
  have hlowest : (as.foldl (fun w a => withHigh a w) w).getLsbD 16 = w.getLsbD 16 ↔
      w.getLsbD 16 = true ∨ ∀ a ∈ as, a.toNat < 0xFFFF8000 := by
    rw [getLsbD_foldl_withHigh_16]
    cases w.getLsbD 16 with
    | true => simp
    | false =>
        simp only [Bool.false_or, List.any_eq_false, decide_eq_true_eq, not_le,
          Bool.false_eq_true, false_or]
        refine forall₂_congr fun a _ => ?_
        omega
  rw [← hlowest]
  constructor
  · intro hupper
    have hbit := congrArg (fun v => v.getLsbD 0) hupper
    simpa only [getLsbD_upper] using hbit
  · intro hbit
    apply BitVec.eq_of_getLsbD_eq
    intro i hi
    rw [getLsbD_upper, getLsbD_upper]
    -- Above its lowest bit the field is out of the carry's reach.
    by_cases hzero : i = 0
    · rw [hzero]
      exact hbit
    · by_cases hlt : 16 + i < 32
      · exact getLsbD_foldl_withHigh as w (by omega) hlt
      · rw [BitVec.getLsbD_of_ge _ _ (by omega), BitVec.getLsbD_of_ge _ _ (by omega)]

section Pass

variable {g : Globals} {m : Memory} {before after : List RelBlock} {b : RelBlock}
  {pre post : List GElfRel} {h : GElfRel}

theorem final_lo16_upper {l : GElfRel} (hplaced : Placed g (visited (before ++ b :: after)))
    (hsplit : relList b.rels = pre ++ l :: post) (hjt : novlRelocJt l.type = some .lo16) :
    loadWord (finalMemory g m (before ++ b :: after)) (relOff g l) >>> 16 =
      loadWord m (relOff g l) >>> 16 := by
  rw [loadWord_final_lo16 hplaced hsplit hjt]
  split
  · rfl
  · split
    · rfl
    · exact withLow_upper _ _

theorem final_hi16_upper_iff (hplaced : Placed g (visited (before ++ b :: after)))
    (hsplit : relList b.rels = pre ++ h :: post) (hjt : novlRelocJt h.type = some .hi16) :
    loadWord (finalMemory g m (before ++ b :: after)) (relOff g h) >>> 16 =
        loadWord m (relOff g h) >>> 16 ↔
      (loadWord m (relOff g h)).getLsbD 16 = true ∨
        ∀ l a, Paired g m (relList b.rels) h l →
          relocated g (pairAddress (entryWord g m h) (entryWord g m l)) = some a →
          a.toNat < 0xFFFF8000 := by
  rw [final_hi16 hplaced hsplit hjt, ← entryWord, foldl_withHigh_upper_iff]
  refine or_congr_right ?_
  simp only [mem_userAddresses_iff hplaced hsplit hjt]
  constructor
  · intro hall l a hl ha
    exact hall a ⟨l, hl, ha⟩
  · rintro hall a ⟨l, hl, ha⟩
    exact hall l a hl ha

/-! ### A HI16 with one LO16 -/

/-- The pair forms its relocated address, and both instructions keep their
upper halves as long as the carry stays inside the word. -/
theorem final_single_pair {l : GElfRel} {a : Word}
    (hplaced : Placed g (visited (before ++ b :: after)))
    (hpair : Paired g m (relList b.rels) h l)
    (hsingle : ∀ l', Paired g m (relList b.rels) h l' → l' = l)
    (ha : relocated g (pairAddress (entryWord g m h) (entryWord g m l)) = some a) :
    pairAddress (loadWord (finalMemory g m (before ++ b :: after)) (relOff g h))
        (loadWord (finalMemory g m (before ++ b :: after)) (relOff g l)) = a ∧
      (a.toNat < 0xFFFF8000 →
        loadWord (finalMemory g m (before ++ b :: after)) (relOff g h) >>> 16 =
          loadWord m (relOff g h) >>> 16) := by
  obtain ⟨pre, mid, post, hsplit, hhi, hlo, -⟩ := id hpair
  have hmem (a' : Word) := mem_userAddresses_iff (m := m) (a := a') hplaced hsplit hhi.1
  -- Every high half that is written to the HI16 is that of `a`.
  have hall {l' : GElfRel} {a' : Word} (hl' : Paired g m (relList b.rels) h l')
      (ha' : relocated g (pairAddress (entryWord g m h) (entryWord g m l')) = some a') :
      a' = a := by
    rw [hsingle l' hl', ha] at ha'
    exact (Option.some.inj ha').symm
  constructor
  · have hne := List.ne_nil_of_mem ((hmem a).mpr ⟨l, hpair, ha⟩)
    obtain ⟨l', hl', ha'⟩ := (hmem _).mp (List.getLast_mem hne)
    rw [pairAddress_eq, final_lo16 hplaced hpair ha, final_hi16 hplaced hsplit hhi.1,
      ← List.dropLast_append_getLast hne, immediate_foldl_withHigh, hall hl' ha',
      combine_halves]
  · intro hbelow
    refine (final_hi16_upper_iff hplaced hsplit hhi.1).mpr (Or.inr fun l' a' hl' ha' => ?_)
    rw [hall hl' ha']
    exact hbelow

/-- A pair whose address lies in no section is not touched. -/
theorem final_single_pair_none {l : GElfRel}
    (hplaced : Placed g (visited (before ++ b :: after)))
    (hpair : Paired g m (relList b.rels) h l)
    (hsingle : ∀ l', Paired g m (relList b.rels) h l' → l' = l)
    (hnone : relocated g (pairAddress (entryWord g m h) (entryWord g m l)) = none) :
    loadWord (finalMemory g m (before ++ b :: after)) (relOff g h) = loadWord m (relOff g h) ∧
      loadWord (finalMemory g m (before ++ b :: after)) (relOff g l) =
        loadWord m (relOff g l) := by
  obtain ⟨pre, mid, post, hsplit, hhi, hlo, -⟩ := id hpair
  constructor
  · have hnil : userAddresses g m ((entryWord g m h &&& 0xFFFF#32) <<< 16)
        (loUsers g m (hiReg (entryWord g m h)) (mid ++ l :: post)) = [] := by
      rw [List.eq_nil_iff_forall_not_mem]
      intro a ha
      obtain ⟨l', hl', ha'⟩ := (mem_userAddresses_iff hplaced hsplit hhi.1).mp ha
      rw [hsingle l' hl', hnone] at ha'
      cases ha'
    rw [final_hi16 hplaced hsplit hhi.1, hnil]
    rfl
  · rw [loadWord_final_paired hplaced hpair, hnone]
    rfl

end Pass

/-- The upper half of an instruction over a whole run: after a real pass
that follows a dry pass without errors, every LO16 word has the one it
had; and a HI16 word has, if and only if its lowest bit was set before or
all relocated addresses of the LO16s paired with the HI16 are below
0xFFFF8000. -/
theorem realPass_upper_halves {g : Globals} {m : Memory} {bs : List RelBlock}
    (haligned : ∀ b ∈ bs, ∀ e ∈ b.rels, e.addr.toNat % 4 = 0)
    (hdistinct : (bs.flatMap fun b => b.rels).Pairwise fun a b => a.addr ≠ b.addr)
    (hdry : DryOk g m bs) (o : OvlSection → Word) :
    ∃ real, realPass { g with ovlStarts := o } m bs = .ok real ∧
      (∀ b ∈ bs, ∀ l ∈ b.rels, novlRelocJt l.type = some .lo16 →
        loadWord real.reloc.memory (relOff g l) >>> 16 = loadWord m (relOff g l) >>> 16) ∧
      ∀ b ∈ bs, ∀ h ∈ b.rels, novlRelocJt h.type = some .hi16 →
        (loadWord real.reloc.memory (relOff g h) >>> 16 = loadWord m (relOff g h) >>> 16 ↔
          (loadWord m (relOff g h)).getLsbD 16 = true ∨
          ∀ l s, Paired g m (relList b.rels) h l →
            getTargetSection g (pairAddress (entryWord g m h) (entryWord g m l)) = some s →
            (pairAddress (entryWord g m h) (entryWord g m l) + o s -
              g.elfStarts s).toNat < 0xFFFF8000) := by
  have hplaced := (hdry.wellPlaced haligned hdistinct).placed
  obtain ⟨real, hreal, hmem⟩ := hdry.realPass_finalMemory hplaced o
  refine ⟨real, hreal, fun b hb l hl hjt => ?_, fun b hb h hh hjt => ?_⟩
  · obtain ⟨before, after, rfl⟩ := List.append_of_mem hb
    obtain ⟨pre, post, hsplit⟩ := List.append_of_mem (mem_relList.mpr hl)
    rw [hmem]
    exact final_lo16_upper (hplaced.ovlStarts o) hsplit hjt
  · obtain ⟨before, after, rfl⟩ := List.append_of_mem hb
    obtain ⟨pre, post, hsplit⟩ := List.append_of_mem (mem_relList.mpr hh)
    rw [hmem]
    refine (final_hi16_upper_iff (hplaced.ovlStarts o) hsplit hjt).trans (or_congr_right ?_)
    simp only [relocated_ovlStarts_eq_some_iff]
    constructor
    · intro hall l s hl hs
      exact hall l _ hl ⟨s, hs, rfl⟩
    · rintro hall l a hl ⟨s, hs, rfl⟩
      exact hall l s hl hs

theorem mixedBlock_lo16_upper :
    ∃ real, realPass { mixedGlobals with ovlStarts := mixedStarts } mixedMemory [mixedBlock] =
        .ok real ∧
      loadWord real.reloc.memory 8 >>> 16 = 0x2484#32 := by
  have hdry : DryOk mixedGlobals mixedMemory [mixedBlock] := by decide +kernel
  obtain ⟨real, hreal, hlo, -⟩ := realPass_upper_halves mixedBlock_wellPlaced.aligned
    mixedBlock_wellPlaced.distinct hdry mixedStarts
  have hkept := hlo mixedBlock (by simp) ⟨0x80000008, 6⟩ (by decide) (by decide)
  refine ⟨real, hreal, hkept.trans ?_⟩
  decide +kernel

/-- A HI16 for register 2 whose address comes to lie at 0xFFFF8000. -/
def topElf : Elf := sampleElf [0x3C028000, 0x24420000] [⟨0x80000000, 5⟩, ⟨0x80000004, 6⟩] []

/-- The instruction sets register 3 afterwards. -/
theorem topElf_register_changed :
    ∃ c, convert topElf 0xFFFF8000 = .ok c ∧ loadWord c.loaded 0 = 0x3C028000#32 ∧
      loadWord c.memory 0 = 0x3C030000#32 := by
  obtain ⟨c, hconvert, hc⟩ := exists_ok_of_map (x := convert topElf 0xFFFF8000)
    (fun c => decide (loadWord c.loaded 0 = 0x3C028000#32 ∧
      loadWord c.memory 0 = 0x3C030000#32)) (by decide +kernel)
  exact ⟨c, hconvert, of_decide_eq_true hc⟩

/-- One-to-one pairs: let a HI16 have exactly one LO16 paired with it, with
whatever else between them. After the pass the two form the relocated
address, if it is at most 0xFFFF7FFF, and keep their upper halves; and
where the pair's address lies in no section, neither word has changed. -/
theorem realPass_single_pairs {g : Globals} {m : Memory} {bs : List RelBlock}
    (hplaced : WellPlaced g.elfEp bs) (hdry : DryOk g m bs) (o : OvlSection → Word) :
    ∃ real, realPass { g with ovlStarts := o } m bs = .ok real ∧
      ∀ b ∈ bs, ∀ h l, Paired g m (relList b.rels) h l →
        (∀ l', Paired g m (relList b.rels) h l' → l' = l) →
        (∀ s, getTargetSection g (pairAddress (entryWord g m h) (entryWord g m l)) = some s →
          (pairAddress (entryWord g m h) (entryWord g m l) + o s - g.elfStarts s).toNat ≤
            0xFFFF7FFF →
          pairAddress (loadWord real.reloc.memory (relOff g h))
              (loadWord real.reloc.memory (relOff g l)) =
            pairAddress (entryWord g m h) (entryWord g m l) + o s - g.elfStarts s ∧
          loadWord real.reloc.memory (relOff g h) >>> 16 = loadWord m (relOff g h) >>> 16 ∧
          loadWord real.reloc.memory (relOff g l) >>> 16 = loadWord m (relOff g l) >>> 16) ∧
        (getTargetSection g (pairAddress (entryWord g m h) (entryWord g m l)) = none →
          loadWord real.reloc.memory (relOff g h) = loadWord m (relOff g h) ∧
          loadWord real.reloc.memory (relOff g l) = loadWord m (relOff g l)) := by
  obtain ⟨real, hreal, hmem⟩ := hdry.realPass_finalMemory hplaced.placed o
  refine ⟨real, hreal, fun b hb h l hpair hsingle => ?_⟩
  obtain ⟨before, after, rfl⟩ := List.append_of_mem hb
  have hplaced' := hplaced.placed.ovlStarts o
  rw [hmem]
  constructor
  · intro s hs hbelow
    have ha : relocated { g with ovlStarts := o }
        (pairAddress (entryWord g m h) (entryWord g m l)) = some _ :=
      relocated_ovlStarts_eq_some_iff.mpr ⟨s, hs, rfl⟩
    obtain ⟨haddr, hupper⟩ := final_single_pair hplaced' hpair hsingle ha
    obtain ⟨pre, mid, post, heq, -, hlo, -⟩ := hpair
    have hsplit : relList b.rels = (pre ++ h :: mid) ++ l :: post := by
      rw [heq, List.append_assoc, List.cons_append]
    exact ⟨haddr, hupper (by omega), final_lo16_upper hplaced' hsplit hlo.1⟩
  · intro hs
    refine final_single_pair_none hplaced' hpair hsingle ?_
    rw [relocated, getTargetSection_ovlStarts]
    exact congrArg _ hs

theorem mixedBlock_single_pair :
    ∃ real, realPass { mixedGlobals with ovlStarts := mixedStarts } mixedMemory [mixedBlock] =
        .ok real ∧
      pairAddress (loadWord real.reloc.memory 0) (loadWord real.reloc.memory 8) =
        0x80800014#32 := by
  obtain ⟨real, hreal, hpairs⟩ := realPass_single_pairs (m := mixedMemory)
    mixedBlock_wellPlaced (by decide +kernel) mixedStarts
  have hsorted : relList mixedBlock.rels = [] ++ ⟨0x80000000, 5⟩ :: [⟨0x80000004, 5⟩,
      ⟨0x80000008, 6⟩, ⟨0x8000000C, 6⟩, ⟨0x80000010, 4⟩, ⟨0x80000014, 2⟩] := by decide +kernel
  have husers : loUsers mixedGlobals mixedMemory
      (hiReg (entryWord mixedGlobals mixedMemory ⟨0x80000000, 5⟩)) [⟨0x80000004, 5⟩,
        ⟨0x80000008, 6⟩, ⟨0x8000000C, 6⟩, ⟨0x80000010, 4⟩, ⟨0x80000014, 2⟩] =
      [⟨0x80000008, 6⟩] := by decide +kernel
  have hpaired (l : GElfRel) : Paired mixedGlobals mixedMemory (relList mixedBlock.rels)
      ⟨0x80000000, 5⟩ l ↔ l = ⟨0x80000008, 6⟩ := by
    rw [hsorted, paired_iff (by decide), husers, List.mem_singleton]
    exact and_iff_right (by decide)
  refine ⟨real, hreal, ?_⟩
  have hmoved := (hpairs mixedBlock (by simp) ⟨0x80000000, 5⟩ ⟨0x80000008, 6⟩
    ((hpaired _).mpr rfl) (fun l hl => (hpaired l).mp hl)).1 .text (by decide +kernel)
    (by decide +kernel)
  refine hmoved.1.trans ?_
  decide +kernel

end Novl
