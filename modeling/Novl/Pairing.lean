import Novl.FinalImage

/-!
HI16s and the LO16s paired with them.

A LO16 is paired with the last HI16 on its register before it. The
register table keeps exactly this: its row for a register holds the
position and the high half of the last HI16 on the register. From it the
final words of a pair can be read off. Each resolving LO16 gets the low
half of its own relocated address, while the one HI16 word ends up with
the high half written last, that of the last resolving LO16.
-/

namespace Novl

open ByteMemory FallibleRun SplitWord

/-- The word an entry names. -/
def entryWord (g : Globals) (m : Memory) (e : GElfRel) : Word := loadWord m (relOff g e)

/-- The entry is a HI16 on register `r`. -/
def SetsHi (g : Globals) (m : Memory) (r : Reg) (e : GElfRel) : Prop :=
  novlRelocJt e.type = some .hi16 ∧ hiReg (entryWord g m e) = r

/-- The entry is a LO16 on register `r`. -/
def UsesLo (g : Globals) (m : Memory) (r : Reg) (e : GElfRel) : Prop :=
  novlRelocJt e.type = some .lo16 ∧ loReg (entryWord g m e) = r

instance (g : Globals) (m : Memory) (r : Reg) : DecidablePred (SetsHi g m r) := by
  unfold SetsHi
  infer_instance

instance (g : Globals) (m : Memory) (r : Reg) : DecidablePred (UsesLo g m r) := by
  unfold UsesLo
  infer_instance

/-- The address a HI16 word and a LO16 word form. -/
def pairAddress (hi lo : Word) : Word := (hi &&& 0xFFFF#32) <<< 16 + loImmediate lo

/-- In the list `es` the LO16 `l` comes after the HI16 `h` on the same
register, and no other HI16 on that register stands between them. -/
def Paired (g : Globals) (m : Memory) (es : List GElfRel) (h l : GElfRel) : Prop :=
  ∃ pre mid post, es = pre ++ h :: (mid ++ l :: post) ∧
    SetsHi g m (hiReg (entryWord g m h)) h ∧ UsesLo g m (hiReg (entryWord g m h)) l ∧
    ∀ x ∈ mid, ¬ SetsHi g m (hiReg (entryWord g m h)) x

/-- The LO16s on register `r` up to the next HI16 on it. -/
def loUsers (g : Globals) (m : Memory) (r : Reg) : List GElfRel → List GElfRel
  | [] => []
  | x :: xs =>
    if SetsHi g m r x then []
    else if UsesLo g m r x then x :: loUsers g m r xs
    else loUsers g m r xs

theorem mem_loUsers_iff {g : Globals} {m : Memory} {r : Reg} {es : List GElfRel} {l : GElfRel} :
    l ∈ loUsers g m r es ↔
      ∃ mid post, es = mid ++ l :: post ∧ UsesLo g m r l ∧ ∀ x ∈ mid, ¬ SetsHi g m r x := by
  induction es with
  | nil => simp [loUsers]
  | cons e es ih =>
      -- An entry is not both, so the two tests of `loUsers` exclude each other.
      have hne : UsesLo g m r e → ¬ SetsHi g m r e := by
        rintro ⟨hlo, -⟩ ⟨hhi, -⟩
        rw [hlo] at hhi
        cases hhi
      rw [loUsers]
      constructor
      · intro hl
        split at hl
        · simp at hl
        · rename_i hhi
          have htail : l ∈ loUsers g m r es →
              ∃ mid post, e :: es = mid ++ l :: post ∧ UsesLo g m r l ∧
                ∀ x ∈ mid, ¬ SetsHi g m r x := by
            intro hl
            obtain ⟨mid, post, rfl, huse, hmid⟩ := ih.mp hl
            refine ⟨e :: mid, post, rfl, huse, fun x hx => ?_⟩
            rcases List.mem_cons.mp hx with rfl | hx
            · exact hhi
            · exact hmid x hx
          split at hl
          · rename_i huse
            rcases List.mem_cons.mp hl with rfl | hl
            · exact ⟨[], es, rfl, huse, by simp⟩
            · exact htail hl
          · exact htail hl
      · rintro ⟨mid, post, heq, huse, hmid⟩
        cases mid with
        | nil =>
            obtain ⟨rfl, -⟩ := List.cons.inj heq
            rw [if_neg (hne huse), if_pos huse]
            exact List.mem_cons_self
        | cons x mid =>
            obtain ⟨rfl, rfl⟩ := List.cons.inj heq
            have hl : l ∈ loUsers g m r (mid ++ l :: post) :=
              ih.mpr ⟨mid, post, rfl, huse, fun y hy => hmid y (List.mem_cons_of_mem _ hy)⟩
            rw [if_neg (hmid _ List.mem_cons_self)]
            split
            · exact List.mem_cons_of_mem _ hl
            · exact hl

/-! ### Rows of the register table -/

/-- The row remembers position `p` and high half `v`, used or not. -/
def HiLoPair.Holds (row : HiLoPair) (p : ℕ) (v : Word) : Prop :=
  row = .valid p v ∨ row = .used p v

theorem HiLoPair.Holds.use_eq {row : HiLoPair} {p : ℕ} {v : Word} (h : row.Holds p v) :
    row.use = .used p v := by
  rcases h with rfl | rfl <;> rfl

theorem HiLoPair.Holds.use {row : HiLoPair} {p : ℕ} {v : Word} (h : row.Holds p v) :
    row.use.Holds p v :=
  Or.inr h.use_eq

theorem HiLoPair.Holds.ptr? {row : HiLoPair} {p : ℕ} {v : Word} (h : row.Holds p v) :
    row.ptr? = some p := by
  rcases h with rfl | rfl <;> rfl

section Rows

variable {g : Globals} {m : Memory} {r : Reg}

theorem entryHilo_of_setsHi {e : GElfRel} (he : SetsHi g m r e) (t : HiLoTable) :
    entryHilo g m t e r = .valid (relOff g e) ((entryWord g m e &&& 0xFFFF#32) <<< 16) := by
  have hreg : hiReg (loadWord m (relOff g e)) = r := he.2
  rw [entryHilo, relocHilo_hi16 he.1, if_pos hreg.symm]
  rfl

theorem entryHilo_of_usesLo {e : GElfRel} (he : UsesLo g m r e) (t : HiLoTable) :
    entryHilo g m t e r = (t r).use := by
  have hreg : loReg (loadWord m (relOff g e)) = r := he.2
  rw [entryHilo, relocHilo_lo16 he.1, if_pos hreg.symm]

/-- Entries that are neither leave the row of `r` alone. -/
theorem entryHilo_of_neither {e : GElfRel} (hhi : ¬ SetsHi g m r e) (hlo : ¬ UsesLo g m r e)
    (t : HiLoTable) : entryHilo g m t e r = t r := by
  rw [entryHilo]
  by_cases hjt : novlRelocJt e.type = some .hi16
  · rw [relocHilo_hi16 hjt, if_neg fun hr => hhi ⟨hjt, hr.symm⟩]
  · by_cases hjt' : novlRelocJt e.type = some .lo16
    · rw [relocHilo_lo16 hjt', if_neg fun hr => hlo ⟨hjt', hr.symm⟩]
    · rw [relocHilo_other hjt hjt']

theorem Holds.entryHilo {t : HiLoTable} {p : ℕ} {v : Word} {e : GElfRel}
    (ht : (t r).Holds p v) (he : ¬ SetsHi g m r e) : (entryHilo g m t e r).Holds p v := by
  by_cases hlo : UsesLo g m r e
  · rw [entryHilo_of_usesLo hlo]
    exact ht.use
  · rwa [entryHilo_of_neither he hlo]

theorem Holds.hiloAfter {t : HiLoTable} {p : ℕ} {v : Word} {es : List GElfRel}
    (ht : (t r).Holds p v) (hes : ∀ e ∈ es, ¬ SetsHi g m r e) :
    (hiloAfter g m t es r).Holds p v := by
  induction es generalizing t with
  | nil => exact ht
  | cons e es ih =>
      exact ih (Holds.entryHilo ht (hes e List.mem_cons_self))
        fun x hx => hes x (List.mem_cons_of_mem _ hx)

/-- What a LO16 writes, once its row is known. -/
theorem entryPatches_of_usesLo {t : HiLoTable} {p : ℕ} {v : Word} {e : GElfRel}
    (he : UsesLo g m r e) (ht : (t r).Holds p v) :
    entryPatches g m t e = pairPatches g (relOff g e) p (v + loImmediate (entryWord g m e)) := by
  have hreg : loReg (loadWord m (relOff g e)) = r := he.2
  rw [entryPatches, relocPatches]
  simp only [he.1, hreg]
  rcases ht with ht | ht <;> rw [ht] <;> rfl

end Rows

/-! ### The word of a HI16 -/

/-- The address a pair forms after relocation, if its address lies in a
section. -/
def relocated (g : Globals) (a : Word) : Option Word :=
  (getTargetSection g a).map fun s => a + g.delta s

theorem relocated_ovlStarts_eq_some_iff {g : Globals} {o : OvlSection → Word} {a a' : Word} :
    relocated { g with ovlStarts := o } a = some a' ↔
      ∃ s, getTargetSection g a = some s ∧ a + o s - g.elfStarts s = a' := by
  simp only [relocated, Option.map_eq_some_iff, Globals.add_delta]
  rfl

theorem pairPatches_eq (g : Globals) (i p : ℕ) (a : Word) :
    pairPatches g i p a = match relocated g a with
      | none => []
      | some a' => [⟨i, withLow a'⟩, ⟨p, withHigh a'⟩] := by
  rw [pairPatches, relocated]
  cases getTargetSection g a <;> rfl

/-- What the two patches of a pair do to either of its words. -/
theorem editsAt_pair_low {i p : ℕ} (hne : p ≠ i) (a w : Word) :
    editsAt [⟨i, withLow a⟩, ⟨p, withHigh a⟩] i w = withLow a w := by
  exact (editsAt_cons_self ⟨i, withLow a⟩ _ w).trans (editsAt_cons_of_ne hne [] _)

theorem editsAt_pair_high {i p : ℕ} (hne : i ≠ p) (a w : Word) :
    editsAt [⟨i, withLow a⟩, ⟨p, withHigh a⟩] p w = withHigh a w := by
  rw [editsAt_cons_of_ne hne]
  exact editsAt_cons_self ⟨p, withHigh a⟩ [] w

/-- The relocated addresses of the resolving LO16s among `ls`, when their
HI16 contributes `v`. -/
def userAddresses (g : Globals) (m : Memory) (v : Word) (ls : List GElfRel) : List Word :=
  ls.filterMap fun l => relocated g (v + loImmediate (entryWord g m l))

/-- The position `p` is remembered by the row of `r` and by no other. -/
def OnlyAt (t : HiLoTable) (r : Reg) (p : ℕ) : Prop := ∀ r', (t r').ptr? = some p → r' = r

theorem OnlyAt.entryHilo {g : Globals} {m : Memory} {t : HiLoTable} {r : Reg} {p : ℕ}
    {e : GElfRel} (ht : OnlyAt t r p) (hp : relOff g e ≠ p) :
    OnlyAt (entryHilo g m t e) r p := by
  intro r' hr'
  by_cases hhi : SetsHi g m r' e
  · rw [entryHilo_of_setsHi hhi] at hr'
    exact absurd (Option.some.inj hr') hp
  · by_cases hlo : UsesLo g m r' e
    · rw [entryHilo_of_usesLo hlo, HiLoPair.ptr?_use] at hr'
      exact ht r' hr'
    · rw [entryHilo_of_neither hhi hlo] at hr'
      exact ht r' hr'

/-- The row a HI16 fills is the only one to remember its position. -/
theorem onlyAt_entryHilo_of_setsHi {g : Globals} {m : Memory} {t : HiLoTable} {r : Reg}
    {e : GElfRel} (ht : ¬ Remembers t (relOff g e)) (he : SetsHi g m r e) :
    OnlyAt (entryHilo g m t e) r (relOff g e) := by
  intro r' hr'
  by_contra hne
  have hhi : ¬ SetsHi g m r' e := fun he' => hne (he'.2.symm.trans he.2)
  have hlo : ¬ UsesLo g m r' e := by
    rintro ⟨hjt, -⟩
    rw [he.1] at hjt
    cases hjt
  rw [entryHilo_of_neither hhi hlo] at hr'
  exact ht ⟨r', hr'⟩

/-- A plan that does not remember `p` and has no entry there leaves it
alone. -/
theorem editsAt_planPatches_of_not_remembers {g : Globals} {m : Memory} {t : HiLoTable}
    {es : List GElfRel} {p : ℕ} (ht : ¬ Remembers t p) (hes : ∀ e ∈ es, relOff g e ≠ p)
    (w : Word) : editsAt (planPatches g m t es) p w = w := by
  apply editsAt_of_forall_ne
  intro q hq hpos
  rcases pos_of_mem_planPatches hq with ⟨e, he, hqe⟩ | hrem
  · exact hes e he (hqe.symm.trans hpos)
  · exact ht (hpos ▸ hrem)

/-- A HI16 word is rewritten once for each resolving LO16 paired with it,
in their order. -/
theorem editsAt_planPatches_hi16 {g : Globals} {m : Memory} {t : HiLoTable} {r : Reg} {p : ℕ}
    {v : Word} {es : List GElfRel} (hrow : (t r).Holds p v) (honly : OnlyAt t r p)
    (hes : ∀ e ∈ es, relOff g e ≠ p) (w : Word) :
    editsAt (planPatches g m t es) p w =
      (userAddresses g m v (loUsers g m r es)).foldl (fun w a => withHigh a w) w := by
  induction es generalizing t w with
  | nil => rfl
  | cons e es ih =>
      have he := hes e List.mem_cons_self
      have hes' := fun x hx => hes x (List.mem_cons_of_mem _ hx)
      rw [planPatches, editsAt_append, loUsers]
      by_cases hhi : SetsHi g m r e
      · -- From here on the register remembers another HI16.
        have hgone : ¬ Remembers (entryHilo g m t e) p := by
          rintro ⟨r', hr'⟩
          have hreq := honly.entryHilo he r' hr'
          rw [hreq, entryHilo_of_setsHi hhi] at hr'
          exact he (Option.some.inj hr')
        have hnil : entryPatches g m t e = [] := by
          rw [entryPatches, relocPatches]
          simp only [hhi.1]
        rw [if_pos hhi, hnil, editsAt_nil, editsAt_planPatches_of_not_remembers hgone hes']
        rfl
      · rw [if_neg hhi]
        have hih := ih (Holds.entryHilo hrow hhi) (honly.entryHilo he) hes'
        by_cases hlo : UsesLo g m r e
        · rw [if_pos hlo, hih, entryPatches_of_usesLo hlo hrow, pairPatches_eq]
          simp only [userAddresses, List.filterMap_cons]
          cases relocated g (v + loImmediate (entryWord g m e)) with
          | none => rfl
          | some a => exact congrArg (List.foldl _ · _) (editsAt_pair_high he a w)
        · rw [if_neg hlo, hih]
          congr 1
          apply editsAt_of_forall_ne
          intro q hq hpos
          rcases pos_of_mem_relocPatches hq with hqe | ⟨hjt, hrow'⟩
          · exact he (hqe.symm.trans hpos)
          · exact hlo ⟨hjt, honly _ (hpos ▸ hrow')⟩

/-! ### The final words of a pair -/

/-- The immediate field of an instruction word. -/
def immediate (w : Word) : BitVec 16 := w.setWidth 16

theorem immediate_withLow (a w : Word) : immediate (withLow a w) = lowHalf a := by
  rw [immediate, withLow, BitVec.setWidth_or, BitVec.setWidth_and, BitVec.setWidth_and,
    show (0xFFFF0000#32).setWidth 16 = 0#16 by rfl,
    show (0xFFFF#32).setWidth 16 = BitVec.allOnes 16 by rfl, BitVec.and_zero, BitVec.zero_or,
    BitVec.and_allOnes]
  rfl

theorem immediate_withHigh (a w : Word) : immediate (withHigh a w) = highHalf a := by
  rw [immediate, withHigh, BitVec.setWidth_or, BitVec.setWidth_and,
    show (0xFFFF0000#32).setWidth 16 = 0#16 by rfl, BitVec.and_zero, BitVec.zero_or,
    carriedHigh_setWidth]

/-- Of several high halves written to one word the last one stays. -/
theorem immediate_foldl_withHigh (as : List Word) (a w : Word) :
    immediate ((as ++ [a]).foldl (fun w a => withHigh a w) w) = highHalf a := by
  rw [List.foldl_append]
  exact immediate_withHigh a _

theorem pairAddress_eq (hi lo : Word) :
    pairAddress hi lo = combine (immediate hi) (immediate lo) := by
  have hmask : hi &&& 0xFFFF#32 = (immediate hi).setWidth 32 := by
    apply BitVec.eq_of_toNat_eq
    have hmod : (hi &&& 0xFFFF#32).toNat = hi.toNat % 2 ^ 16 :=
      LowMask.toNat_and_mask (n := 16) (by omega) hi
    rw [hmod, immediate, BitVec.toNat_setWidth, BitVec.toNat_setWidth]
    omega
  rw [pairAddress, hmask]
  rfl

/-! ### Pairs inside a block -/

theorem Placed.nodup {g : Globals} {es : List GElfRel} (h : Placed g es) : es.Nodup := by
  refine h.apart.imp fun hab heq => ?_
  subst heq
  exact hab.ne rfl

/-- Seen from a fixed HI16, the paired LO16s are its users in the rest of
the block. -/
theorem paired_iff {g : Globals} {m : Memory} {pre post : List GElfRel} {h l : GElfRel}
    (hnodup : (pre ++ h :: post).Nodup) :
    Paired g m (pre ++ h :: post) h l ↔
      novlRelocJt h.type = some .hi16 ∧ l ∈ loUsers g m (hiReg (entryWord g m h)) post := by
  rw [mem_loUsers_iff]
  constructor
  · rintro ⟨pre', mid, post', heq, hhi, hlo, hmid⟩
    have hsplit := hnodup
    rw [heq, List.nodup_append] at hsplit
    obtain ⟨-, htail, hcross⟩ := hsplit
    have hpre : h ∉ pre' := fun hmem => hcross h hmem h List.mem_cons_self rfl
    obtain ⟨-, -, rfl⟩ := (List.append_cons_inj_of_notMem hpre
      (List.nodup_cons.mp htail).1).mp heq.symm
    exact ⟨hhi.1, mid, post', rfl, hlo, hmid⟩
  · rintro ⟨hjt, mid, post', rfl, hlo, hmid⟩
    exact ⟨pre, mid, post', rfl, ⟨hjt, rfl⟩, hlo, hmid⟩

section Pair

variable {g : Globals} {m : Memory} {before after : List RelBlock} {b : RelBlock}
  {pre post : List GElfRel} {h : GElfRel}

theorem not_remembers_of_split (hplaced : Placed g (visited (before ++ b :: after)))
    (hsplit : relList b.rels = pre ++ h :: post) :
    ¬ Remembers (hiloAfter g m novlRelocInit pre) (relOff g h) := by
  obtain ⟨-, -, hpre, -⟩ := hplaced.apart_of_split hsplit
  intro hrem
  rcases remembers_hiloAfter hrem with ⟨x, hx, hpos⟩ | hinit
  · exact (hpre x hx).ne hpos.symm
  · exact not_remembers_init _ hinit

/-- The final word of a HI16 has the high half of the last resolving LO16
among its users. -/
theorem final_hi16 (hplaced : Placed g (visited (before ++ b :: after)))
    (hsplit : relList b.rels = pre ++ h :: post) (hjt : novlRelocJt h.type = some .hi16) :
    loadWord (finalMemory g m (before ++ b :: after)) (relOff g h) =
      (userAddresses g m ((entryWord g m h &&& 0xFFFF#32) <<< 16)
        (loUsers g m (hiReg (entryWord g m h)) post)).foldl (fun w a => withHigh a w)
          (entryWord g m h) := by
  have hset : SetsHi g m (hiReg (entryWord g m h)) h := ⟨hjt, rfl⟩
  obtain ⟨-, -, -, hpost⟩ := hplaced.apart_of_split hsplit
  have hnil : entryPatches g m (hiloAfter g m novlRelocInit pre) h = [] := by
    rw [entryPatches, relocPatches]
    simp only [hjt]
  have hrow : (entryHilo g m (hiloAfter g m novlRelocInit pre) h
      (hiReg (entryWord g m h))).Holds (relOff g h) ((entryWord g m h &&& 0xFFFF#32) <<< 16) :=
    Or.inl (entryHilo_of_setsHi hset _)
  rw [loadWord_finalMemory_split hplaced hsplit, hnil, editsAt_nil]
  exact editsAt_planPatches_hi16 hrow
    (onlyAt_entryHilo_of_setsHi (not_remembers_of_split hplaced hsplit) hset)
    (fun x hx => (hpost x hx).ne) _

/-- The final word of a paired LO16: the low half of its own relocated
address, if it resolves. -/
theorem loadWord_final_paired {l : GElfRel}
    (hplaced : Placed g (visited (before ++ b :: after)))
    (hpair : Paired g m (relList b.rels) h l) :
    loadWord (finalMemory g m (before ++ b :: after)) (relOff g l) =
      (relocated g (pairAddress (entryWord g m h) (entryWord g m l))).elim (entryWord g m l)
        fun a => withLow a (entryWord g m l) := by
  obtain ⟨pre, mid, post, heq, hhi, hlo, hmid⟩ := hpair
  have hsplit : relList b.rels = (pre ++ h :: mid) ++ l :: post := by
    rw [heq, List.append_assoc, List.cons_append]
  obtain ⟨-, -, hpre, -⟩ := hplaced.apart_of_split hsplit
  have hne : relOff g h ≠ relOff g l :=
    (hpre h (List.mem_append_right _ List.mem_cons_self)).ne
  have hrow : (hiloAfter g m novlRelocInit (pre ++ h :: mid)
      (hiReg (entryWord g m h))).Holds (relOff g h)
        ((entryWord g m h &&& 0xFFFF#32) <<< 16) := by
    rw [hiloAfter_append, hiloAfter_cons]
    exact Holds.hiloAfter (Or.inl (entryHilo_of_setsHi hhi _)) hmid
  rw [loadWord_finalMemory_of_ne_hi16 hplaced hsplit (by simp [hlo.1]),
    entryPatches_of_usesLo hlo hrow, pairPatches_eq, ← pairAddress, ← entryWord]
  cases relocated g (pairAddress (entryWord g m h) (entryWord g m l)) with
  | none => rfl
  | some a => exact editsAt_pair_low hne a _

/-- The final immediate of a resolving LO16. -/
theorem final_lo16 {l : GElfRel} {a : Word}
    (hplaced : Placed g (visited (before ++ b :: after)))
    (hpair : Paired g m (relList b.rels) h l)
    (ha : relocated g (pairAddress (entryWord g m h) (entryWord g m l)) = some a) :
    immediate (loadWord (finalMemory g m (before ++ b :: after)) (relOff g l)) = lowHalf a := by
  rw [loadWord_final_paired hplaced hpair, ha]
  exact immediate_withLow a _

/-- The relocated addresses of the pairs of a HI16 are those of its users. -/
theorem mem_userAddresses_iff {a : Word} (hplaced : Placed g (visited (before ++ b :: after)))
    (hsplit : relList b.rels = pre ++ h :: post) (hjt : novlRelocJt h.type = some .hi16) :
    a ∈ userAddresses g m ((entryWord g m h &&& 0xFFFF#32) <<< 16)
        (loUsers g m (hiReg (entryWord g m h)) post) ↔
      ∃ l, Paired g m (relList b.rels) h l ∧
        relocated g (pairAddress (entryWord g m h) (entryWord g m l)) = some a := by
  have hblock : Placed g (pre ++ h :: post) := by
    rw [← hsplit]
    apply hplaced.sublist
    rw [visited_append, visited_cons]
    exact (List.sublist_append_left _ _).trans (List.sublist_append_right _ _)
  simp only [userAddresses, List.mem_filterMap, hsplit, paired_iff hblock.nodup, hjt, true_and,
    pairAddress]

/-- After the pass the pairs of a HI16 all form their relocated addresses
exactly when these share one carry-adjusted high half. -/
theorem final_pairs_iff (hplaced : Placed g (visited (before ++ b :: after)))
    (hsplit : relList b.rels = pre ++ h :: post) (hjt : novlRelocJt h.type = some .hi16) :
    (∀ l a, Paired g m (relList b.rels) h l →
      relocated g (pairAddress (entryWord g m h) (entryWord g m l)) = some a →
      combine (immediate (loadWord (finalMemory g m (before ++ b :: after)) (relOff g h)))
        (immediate (loadWord (finalMemory g m (before ++ b :: after)) (relOff g l))) = a) ↔
    ∀ l a l' a', Paired g m (relList b.rels) h l →
      relocated g (pairAddress (entryWord g m h) (entryWord g m l)) = some a →
      Paired g m (relList b.rels) h l' →
      relocated g (pairAddress (entryWord g m h) (entryWord g m l')) = some a' →
      highHalf a = highHalf a' := by
  have hhi := final_hi16 (m := m) hplaced hsplit hjt
  have hmem (a : Word) := mem_userAddresses_iff (m := m) (a := a) hplaced hsplit hjt
  generalize userAddresses g m ((entryWord g m h &&& 0xFFFF#32) <<< 16)
    (loUsers g m (hiReg (entryWord g m h)) post) = as at hhi hmem
  have hpair {l : GElfRel} {a : Word} (hl : Paired g m (relList b.rels) h l)
      (ha : relocated g (pairAddress (entryWord g m h) (entryWord g m l)) = some a) :
      combine (immediate (loadWord (finalMemory g m (before ++ b :: after)) (relOff g h)))
        (immediate (loadWord (finalMemory g m (before ++ b :: after)) (relOff g l))) = a ↔
      immediate (loadWord (finalMemory g m (before ++ b :: after)) (relOff g h)) =
        highHalf a := by
    rw [final_lo16 hplaced hl ha, combine_lowHalf_iff]
  constructor
  · intro hall l a l' a' hl ha hl' ha'
    exact ((hpair hl ha).mp (hall l a hl ha)).symm.trans ((hpair hl' ha').mp (hall l' a' hl' ha'))
  · intro hall l a hl ha
    rw [hpair hl ha]
    -- The list of relocated addresses is not empty, and its last one
    -- has left its high half in the HI16 word.
    have hne : as ≠ [] := List.ne_nil_of_mem ((hmem a).mpr ⟨l, hl, ha⟩)
    obtain ⟨l', hl', ha'⟩ := (hmem _).mp (List.getLast_mem hne)
    rw [hhi, ← List.dropLast_append_getLast hne, immediate_foldl_withHigh]
    exact (hall l a l' _ hl ha hl' ha').symm

end Pair

/-- A HI16 shared by several LO16s: after a real pass that follows a dry
pass without errors, every resolving LO16 paired with the HI16 forms its
relocated address with it if and only if all these relocated addresses
have the same carry-adjusted high half. -/
theorem realPass_shared_high_iff {g : Globals} {m : Memory} {bs : List RelBlock}
    (haligned : ∀ b ∈ bs, ∀ e ∈ b.rels, e.addr.toNat % 4 = 0)
    (hdistinct : (bs.flatMap fun b => b.rels).Pairwise fun a b => a.addr ≠ b.addr)
    (hdry : DryOk g m bs) (o : OvlSection → Word) :
    ∃ real, realPass { g with ovlStarts := o } m bs = .ok real ∧
      ∀ b ∈ bs, ∀ h ∈ b.rels, novlRelocJt h.type = some .hi16 →
        ((∀ l s, Paired g m (relList b.rels) h l →
          getTargetSection g (pairAddress (entryWord g m h) (entryWord g m l)) = some s →
          pairAddress (loadWord real.reloc.memory (relOff g h))
              (loadWord real.reloc.memory (relOff g l)) =
            pairAddress (entryWord g m h) (entryWord g m l) + o s - g.elfStarts s) ↔
        ∀ l s l' s', Paired g m (relList b.rels) h l →
          getTargetSection g (pairAddress (entryWord g m h) (entryWord g m l)) = some s →
          Paired g m (relList b.rels) h l' →
          getTargetSection g (pairAddress (entryWord g m h) (entryWord g m l')) = some s' →
          highHalf (pairAddress (entryWord g m h) (entryWord g m l) + o s - g.elfStarts s) =
            highHalf (pairAddress (entryWord g m h) (entryWord g m l') + o s' -
              g.elfStarts s')) := by
  have hplaced := hdry.wellPlaced haligned hdistinct
  obtain ⟨real, hreal, hmem⟩ := hdry.realPass_finalMemory hplaced.placed o
  refine ⟨real, hreal, fun b hb h hh hjt => ?_⟩
  obtain ⟨before, after, rfl⟩ := List.append_of_mem hb
  obtain ⟨pre, post, hsplit⟩ := List.append_of_mem (mem_relList.mpr hh)
  have hiff := final_pairs_iff (g := { g with ovlStarts := o }) (m := m)
    (hplaced.placed.ovlStarts o) hsplit hjt
  simp only [relocated_ovlStarts_eq_some_iff] at hiff
  rw [hmem]
  simp only [pairAddress_eq (loadWord _ _)]
  constructor
  · intro hall l s l' s' hl hs hl' hs'
    exact hiff.mp (fun l a hl ⟨s, hs, ha⟩ => ha ▸ hall l s hl hs) l _ l' _ hl ⟨s, hs, rfl⟩ hl'
      ⟨s', hs', rfl⟩
  · intro hall l s hl hs
    refine hiff.mpr ?_ l _ hl ⟨s, hs, rfl⟩
    rintro l a l' a' hl ⟨s, hs, rfl⟩ hl' ⟨s', hs', rfl⟩
    exact hall l s l' s' hl hs hl' hs'

/-! A HI16 with two users in `.bss`, which moves so that the second one
comes to lie on the other side of a `0x8000` boundary. -/

def crossingBlock : RelBlock where
  id := .text
  rels := [⟨0x80000000, 5⟩, ⟨0x80000004, 6⟩, ⟨0x80000008, 6⟩]

def crossingText : List Word := [0x3C018000, 0x8C227FE0, 0x8C237FF0, 0x00000000]

def crossingGlobals : Globals where
  elfEp := 0x80000000
  elfStarts
    | .text => 0x80000000
    | .bss => 0x80007FE0
    | _ => 0
  ovlStarts _ := 0
  sizes
    | .text => 0x10
    | .bss => 0x18
    | _ => 0

def crossingMemory : Memory := copyBytes (fun _ => 0) 0 (crossingText.flatMap wordBytes)

theorem crossingBlock_sorted : relList crossingBlock.rels = crossingBlock.rels := by
  decide +kernel

theorem crossingBlock_paired :
    Paired crossingGlobals crossingMemory (relList crossingBlock.rels) ⟨0x80000000, 5⟩
        ⟨0x80000004, 6⟩ ∧
      Paired crossingGlobals crossingMemory (relList crossingBlock.rels) ⟨0x80000000, 5⟩
        ⟨0x80000008, 6⟩ := by
  rw [crossingBlock_sorted]
  refine ⟨⟨[], [], [⟨0x80000008, 6⟩], rfl, ?_⟩, ⟨[], [⟨0x80000004, 6⟩], [], rfl, ?_⟩⟩
  · decide +kernel
  · decide +kernel

theorem crossingBlock_not_all_right :
    ∃ real, realPass { crossingGlobals with
          ovlStarts := overlayStarts 0x80007FB0 crossingGlobals.sizes 3 } crossingMemory
        [crossingBlock] = .ok real ∧
      ¬ ∀ l s, Paired crossingGlobals crossingMemory (relList crossingBlock.rels)
          ⟨0x80000000, 5⟩ l →
        getTargetSection crossingGlobals (pairAddress
          (entryWord crossingGlobals crossingMemory ⟨0x80000000, 5⟩)
          (entryWord crossingGlobals crossingMemory l)) = some s →
        pairAddress (loadWord real.reloc.memory 0)
            (loadWord real.reloc.memory (relOff crossingGlobals l)) =
          pairAddress (entryWord crossingGlobals crossingMemory ⟨0x80000000, 5⟩)
              (entryWord crossingGlobals crossingMemory l) +
            overlayStarts 0x80007FB0 crossingGlobals.sizes 3 s - crossingGlobals.elfStarts s := by
  have hdry : DryOk crossingGlobals crossingMemory [crossingBlock] := by decide +kernel
  obtain ⟨real, hreal, hiff⟩ := realPass_shared_high_iff (by decide +kernel) (by decide +kernel)
    hdry (overlayStarts 0x80007FB0 crossingGlobals.sizes 3)
  refine ⟨real, hreal, fun hall => ?_⟩
  have hequal := (hiff crossingBlock (by simp) ⟨0x80000000, 5⟩ (by decide) (by decide)).mp hall
    _ .bss _ .bss crossingBlock_paired.1 (by decide +kernel) crossingBlock_paired.2
    (by decide +kernel)
  exact absurd hequal (by decide +kernel)

def crossingElf : Elf := sampleElf crossingText crossingBlock.rels
  [⟨OvlSection.bss.name, 8, 0x80007FE0, 0x18, none⟩]

theorem crossingElf_first_pair_broken :
    ∃ c, convert crossingElf 0x80007FB0 = .ok c ∧
      Paired c.globals c.loaded (relList crossingBlock.rels) ⟨0x80000000, 5⟩ ⟨0x80000004, 6⟩ ∧
      Paired c.globals c.loaded (relList crossingBlock.rels) ⟨0x80000000, 5⟩ ⟨0x80000008, 6⟩ ∧
      getTargetSection c.globals (pairAddress (loadWord c.loaded 0) (loadWord c.loaded 4)) =
        some .bss ∧
      getTargetSection c.globals (pairAddress (loadWord c.loaded 0) (loadWord c.loaded 8)) =
        some .bss ∧
      pairAddress (loadWord c.memory 0) (loadWord c.memory 4) ≠
        pairAddress (loadWord c.loaded 0) (loadWord c.loaded 4) + c.globals.ovlStarts .bss -
          c.globals.elfStarts .bss := by
  obtain ⟨c, hconvert, hc⟩ := exists_ok_of_map (x := convert crossingElf 0x80007FB0)
    (fun c => decide (
      (SetsHi c.globals c.loaded (hiReg (entryWord c.globals c.loaded ⟨0x80000000, 5⟩))
          ⟨0x80000000, 5⟩ ∧
        UsesLo c.globals c.loaded (hiReg (entryWord c.globals c.loaded ⟨0x80000000, 5⟩))
          ⟨0x80000004, 6⟩ ∧
        UsesLo c.globals c.loaded (hiReg (entryWord c.globals c.loaded ⟨0x80000000, 5⟩))
          ⟨0x80000008, 6⟩ ∧
        ¬ SetsHi c.globals c.loaded (hiReg (entryWord c.globals c.loaded ⟨0x80000000, 5⟩))
          ⟨0x80000004, 6⟩) ∧
      getTargetSection c.globals (pairAddress (loadWord c.loaded 0) (loadWord c.loaded 4)) =
        some .bss ∧
      getTargetSection c.globals (pairAddress (loadWord c.loaded 0) (loadWord c.loaded 8)) =
        some .bss ∧
      pairAddress (loadWord c.memory 0) (loadWord c.memory 4) ≠
        pairAddress (loadWord c.loaded 0) (loadWord c.loaded 4) + c.globals.ovlStarts .bss -
          c.globals.elfStarts .bss)) (by decide +kernel)
  obtain ⟨⟨hhi, hlo₁, hlo₂, hmid⟩, hc⟩ := of_decide_eq_true hc
  rw [crossingBlock_sorted]
  refine ⟨c, hconvert, ⟨[], [], [⟨0x80000008, 6⟩], rfl, hhi, hlo₁, by simp⟩,
    ⟨[], [⟨0x80000004, 6⟩], [], rfl, hhi, hlo₂, ?_⟩, hc⟩
  intro x hx
  rwa [List.mem_singleton.mp hx]

end Novl
