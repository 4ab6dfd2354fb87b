import Novl.Bookkeeping

/-!
Both passes follow the plan of the image they start with.

The dry pass reads one memory throughout, so it follows the plan of that
memory by definition. The real pass rewrites the memory it reads; it
still follows the plan of the original image when the words the entries
name do not overlap, since a word that has been patched belongs to an
entry that is already behind.
-/

namespace Novl

open ByteMemory

/-- The words a list of entries names lie in `memory` and do not meet. -/
structure Placed (g : Globals) (es : List GElfRel) : Prop where
  inImage : ∀ e ∈ es, relOff g e + 4 ≤ memorySize
  apart : es.Pairwise fun a b => Apart (relOff g a) (relOff g b)

theorem Placed.head {g : Globals} {e : GElfRel} {es : List GElfRel} (h : Placed g (e :: es)) :
    ∀ x ∈ es, Apart (relOff g e) (relOff g x) :=
  (List.pairwise_cons.mp h.apart).1

theorem Placed.sublist {g : Globals} {es fs : List GElfRel} (h : Placed g fs)
    (hsub : es.Sublist fs) : Placed g es where
  inImage e he := h.inImage e (hsub.subset he)
  apart := h.apart.sublist hsub

theorem Placed.tail {g : Globals} {e : GElfRel} {es : List GElfRel} (h : Placed g (e :: es)) :
    Placed g es := h.sublist (List.sublist_cons_self e es)

theorem Placed.perm {g : Globals} {es fs : List GElfRel} (h : Placed g es)
    (hperm : es.Perm fs) : Placed g fs where
  inImage e he := h.inImage e (hperm.mem_iff.mpr he)
  apart := (hperm.pairwise_iff Apart.symm).mp h.apart

/-! ### The plan of a block -/

def blockPatches (g : Globals) (m : Memory) (b : RelBlock) : List Patch :=
  planPatches g m novlRelocInit (relList b.rels)

def blockEvents (g : Globals) (m : Memory) (b : RelBlock) : List (TailStack.Event Word) :=
  planEvents g b.id m novlRelocInit (relList b.rels)

def blockError (g : Globals) (m : Memory) (b : RelBlock) : Bool :=
  planError g m novlRelocInit (relList b.rels)

/-- The overlay relocations a block leaves in the table. -/
def blockTable (g : Globals) (m : Memory) (b : RelBlock) : List Word :=
  TailStack.run [] (blockEvents g m b)

/-- The entries of a list of blocks, in the order the passes visit them. -/
def visited (bs : List RelBlock) : List GElfRel := bs.flatMap fun b => relList b.rels

/-- The number of overlay relocations a list of blocks comes to. -/
def passNet (g : Globals) (m : Memory) (bs : List RelBlock) : ℤ :=
  (bs.map fun b => TailStack.net (blockEvents g m b)).sum

@[simp] theorem visited_cons (b : RelBlock) (bs : List RelBlock) :
    visited (b :: bs) = relList b.rels ++ visited bs := rfl

theorem visited_append (bs cs : List RelBlock) : visited (bs ++ cs) = visited bs ++ visited cs :=
  List.flatMap_append

@[simp] theorem mem_relList {rels : List GElfRel} {e : GElfRel} :
    e ∈ relList rels ↔ e ∈ rels := InsertionSort.mem_sort _

theorem mem_visited {bs : List RelBlock} {e : GElfRel} :
    e ∈ visited bs ↔ ∃ b ∈ bs, e ∈ b.rels := by
  simp [visited]

theorem visited_perm (bs : List RelBlock) : (visited bs).Perm (bs.flatMap fun b => b.rels) :=
  List.Perm.flatMap_left bs fun _ _ => InsertionSort.sort_perm _ _

theorem SameWords.mono {g : Globals} {m m' : Memory} {es fs : List GElfRel}
    (h : SameWords g m m' fs) (hsub : es ⊆ fs) : SameWords g m m' es :=
  fun e he => h e (hsub he)

/-! ### Overlay addresses do not take part in plans -/

section OvlStarts

variable (g : Globals) (o : OvlSection → Word) (m : Memory)

@[simp] theorem relOff_ovlStarts (e : GElfRel) :
    relOff { g with ovlStarts := o } e = relOff g e := rfl

theorem planError_ovlStarts (h : HiLoTable) (es : List GElfRel) :
    planError { g with ovlStarts := o } m h es = planError g m h es := by
  induction es generalizing h with
  | nil => rfl
  | cons e es ih => simp only [planError, ih]; rfl

theorem planEvents_ovlStarts (id : OvlSection) (h : HiLoTable) (es : List GElfRel) :
    planEvents { g with ovlStarts := o } id m h es = planEvents g id m h es := by
  induction es generalizing h with
  | nil => rfl
  | cons e es ih => simp only [planEvents, ih]; rfl

theorem blockEvents_ovlStarts (b : RelBlock) :
    blockEvents { g with ovlStarts := o } m b = blockEvents g m b :=
  planEvents_ovlStarts g o m b.id novlRelocInit _

theorem passNet_ovlStarts (bs : List RelBlock) :
    passNet { g with ovlStarts := o } m bs = passNet g m bs := by
  simp only [passNet, blockEvents_ovlStarts]

end OvlStarts

/-! ### Dry pass -/

theorem dryEntry_eq {g : Globals} {m : Memory} {e : GElfRel} (id : OvlSection)
    (hin : relOff g e + 4 ≤ memorySize) (h : HiLoTable) (err : Bool) (n : ℤ) :
    ∃ n', dryEntry g ⟨⟨m, h⟩, err, n⟩ e =
        some ⟨⟨m, entryHilo g m h e⟩, err || entryResult g m h e == .error, n'⟩ ∧
      (entryResult g m h e ≠ .error → n' = n + TailStack.net [entryEvent g id m h e]) := by
  rw [dryEntry, novlRelocDo_dry g e.type (relOff g e) m h hin, entryEvent]
  dsimp only
  rw [← entryResult]
  cases entryResult g m h e with
  | error => exact ⟨n + 1, by simp [entryHilo], fun hne => absurd rfl hne⟩
  | success => exact ⟨n + 1, by simp [entryHilo], fun _ => by simp [resultEvent]⟩
  | failDontDeleteHi => exact ⟨n, by simp [entryHilo], fun _ => by simp [resultEvent]⟩
  | fail =>
      by_cases hlo : e.type = rMipsLo16
      · refine ⟨n - 1, by simp [entryHilo, hlo], fun _ => ?_⟩
        simp only [resultEvent, hlo, if_true, TailStack.net_pop, TailStack.net_nil]
        omega
      · exact ⟨n, by simp [entryHilo, hlo], fun _ => by simp [resultEvent, hlo]⟩

theorem dryEntries_eq {g : Globals} {m : Memory} (id : OvlSection) {es : List GElfRel}
    (hin : ∀ e ∈ es, relOff g e + 4 ≤ memorySize) (h : HiLoTable) (err : Bool) (n : ℤ) :
    ∃ n', es.foldlM (dryEntry g) ⟨⟨m, h⟩, err, n⟩ =
        some ⟨⟨m, hiloAfter g m h es⟩, err || planError g m h es, n'⟩ ∧
      (planError g m h es = false → n' = n + TailStack.net (planEvents g id m h es)) := by
  induction es generalizing h err n with
  | nil => exact ⟨n, by simp [planError], fun _ => by simp [planEvents]⟩
  | cons e es ih =>
      obtain ⟨n₁, hstep, hn₁⟩ := dryEntry_eq id (m := m) (hin e List.mem_cons_self) h err n
      obtain ⟨n₂, hrest, hn₂⟩ := ih (fun x hx => hin x (List.mem_cons_of_mem _ hx))
        (entryHilo g m h e) (err || entryResult g m h e == .error) n₁
      refine ⟨n₂, ?_, fun herr => ?_⟩
      · rw [List.foldlM_cons, hstep]
        simpa [planError, Bool.or_assoc] using hrest
      · rw [planError, Bool.or_eq_false_iff, beq_eq_false_iff_ne] at herr
        rw [hn₂ herr.2, hn₁ herr.1, planEvents]
        have hcons := TailStack.net_append [entryEvent g id m h e]
          (planEvents g id m (entryHilo g m h e) es)
        rw [List.singleton_append] at hcons
        omega

theorem dryBlock_eq {g : Globals} {m : Memory} {b : RelBlock}
    (hin : ∀ e ∈ b.rels, relOff g e + 4 ≤ memorySize) (st : DryState)
    (hmem : st.reloc.memory = m) :
    ∃ st', dryBlock g st b = some st' ∧ st'.reloc.memory = m ∧
      st'.error = (st.error || blockError g m b) ∧
      (blockError g m b = false →
        st'.nintyCountPred = st.nintyCountPred + TailStack.net (blockEvents g m b)) := by
  obtain ⟨n', hfold, hn'⟩ := dryEntries_eq (m := m) b.id
    (fun e he => hin e (mem_relList.mp he)) novlRelocInit st.error st.nintyCountPred
  subst hmem
  exact ⟨_, hfold, rfl, rfl, hn'⟩

theorem dryBlocks_eq {g : Globals} {m : Memory} {bs : List RelBlock}
    (hin : ∀ e ∈ visited bs, relOff g e + 4 ≤ memorySize) (st : DryState)
    (hmem : st.reloc.memory = m) :
    ∃ st', bs.foldlM (dryBlock g) st = some st' ∧ st'.reloc.memory = m ∧
      st'.error = (st.error || bs.any (blockError g m)) ∧
      (bs.any (blockError g m) = false →
        st'.nintyCountPred = st.nintyCountPred + passNet g m bs) := by
  induction bs generalizing st with
  | nil => exact ⟨st, rfl, hmem, by simp, fun _ => by simp [passNet]⟩
  | cons b bs ih =>
      obtain ⟨st₁, hb, hmem₁, herr₁, hn₁⟩ := dryBlock_eq (b := b)
        (fun e he => hin e (mem_visited.mpr ⟨b, List.mem_cons_self, he⟩)) st hmem
      obtain ⟨st₂, hbs, hmem₂, herr₂, hn₂⟩ := ih
        (fun e he => hin e (List.mem_append_right _ he)) st₁ hmem₁
      refine ⟨st₂, by rw [List.foldlM_cons, hb]; exact hbs, hmem₂, ?_, fun hany => ?_⟩
      · rw [herr₂, herr₁, List.any_cons, Bool.or_assoc]
      · rw [List.any_cons, Bool.or_eq_false_iff] at hany
        rw [hn₂ hany.2, hn₁ hany.1]
        simp only [passNet, List.map_cons, List.sum_cons]
        omega

/-- The dry pass comes to an end, it reports exactly the errors of the
plan, and without one it predicts the length of the planned table. -/
theorem dryPass_eq {g : Globals} {m : Memory} {bs : List RelBlock}
    (hin : ∀ e ∈ visited bs, relOff g e + 4 ≤ memorySize) :
    ∃ st, dryPass g m bs = some st ∧ st.error = bs.any (blockError g m) ∧
      (st.error = false → st.nintyCountPred = passNet g m bs) := by
  obtain ⟨st, hpass, -, herr, hn⟩ := dryBlocks_eq (m := m) hin
    { reloc := ⟨m, novlRelocInit⟩, error := false, nintyCountPred := 0 } rfl
  rw [Bool.false_or] at herr
  refine ⟨st, hpass, herr, fun hfalse => ?_⟩
  rw [hn (herr ▸ hfalse), Int.zero_add]

/-! ### Real pass -/

theorem realEntry_eq {g : Globals} {id : OvlSection} {m mem : Memory} {h : HiLoTable}
    {e : GElfRel} {st : RealState} {prior blk : List Word}
    (hreloc : st.reloc = ⟨mem, h⟩) (hbk : Bookkeeping prior blk st)
    (hin : relOff g e + 4 ≤ memorySize)
    (hword : loadWord mem (relOff g e) = loadWord m (relOff g e))
    (hrem : ∀ p, Remembers h p → Apart (relOff g e) p)
    (hok : entryResult g m h e ≠ .error) :
    ∃ st', realEntry g id st e = .ok st' ∧
      st'.reloc = ⟨applyPatches mem (entryPatches g m h e), entryHilo g m h e⟩ ∧
      st'.nintyCountReal = st.nintyCountReal + TailStack.net [entryEvent g id m h e] ∧
      Bookkeeping prior (TailStack.step blk (entryEvent g id m h e)) st' := by
  have hdo := novlRelocDo_real g e.type (relOff g e) mem h hin
    (fun r p hp => hrem p ⟨r, hp⟩)
  rw [hword, ← hreloc] at hdo
  exact realEntry_bookkeeping (loadWord m (relOff g e)) hbk hdo (by rw [hreloc]; rfl)
    (by rw [hreloc]; rfl) hok

/-- What an entry patches is at the entry itself or at a remembered HI16,
so entries apart from both still find their words. -/
theorem SameWords.applyEntryPatches {g : Globals} {m mem : Memory} {h : HiLoTable}
    {e : GElfRel} {es : List GElfRel} (hsame : SameWords g mem m es)
    (hapart : ∀ x ∈ es, Apart (relOff g e) (relOff g x))
    (hrem : ∀ p, Remembers h p → ∀ x ∈ es, Apart (relOff g x) p) :
    SameWords g (applyPatches mem (entryPatches g m h e)) m es := by
  intro x hx
  rw [← hsame x hx]
  apply loadWord_applyPatches_apart
  intro p hp
  rcases pos_of_mem_relocPatches hp with hpos | ⟨-, hrow⟩
  · rw [hpos]
    exact hapart x hx
  · exact (hrem _ ⟨_, hrow⟩ x hx).symm

/-- The only position an entry adds to the register table is its own. -/
theorem apart_of_remembers_entryHilo {g : Globals} {m : Memory} {h : HiLoTable}
    {e : GElfRel} {es : List GElfRel} (hapart : ∀ x ∈ es, Apart (relOff g e) (relOff g x))
    (hrem : ∀ p, Remembers h p → ∀ x ∈ es, Apart (relOff g x) p) {p : ℕ}
    (hp : Remembers (entryHilo g m h e) p) : ∀ x ∈ es, Apart (relOff g x) p := by
  intro x hx
  rcases remembers_relocHilo hp with ⟨rfl, -⟩ | hp
  · exact (hapart x hx).symm
  · exact hrem p hp x hx

/-- The entries of a block, from a moment at which the words still to be
visited are the original ones. -/
theorem realEntries_eq {g : Globals} (id : OvlSection) {m mem : Memory} {h : HiLoTable}
    {es : List GElfRel} (st : RealState) {prior blk : List Word}
    (hreloc : st.reloc = ⟨mem, h⟩) (hbk : Bookkeeping prior blk st) (hplaced : Placed g es)
    (hsame : SameWords g mem m es)
    (hrem : ∀ p, Remembers h p → ∀ e ∈ es, Apart (relOff g e) p)
    (hok : planError g m h es = false) :
    ∃ st', es.foldlM (realEntry g id) st = .ok st' ∧
      st'.reloc = ⟨applyPatches mem (planPatches g m h es), hiloAfter g m h es⟩ ∧
      st'.nintyCountReal = st.nintyCountReal + TailStack.net (planEvents g id m h es) ∧
      Bookkeeping prior (TailStack.run blk (planEvents g id m h es)) st' := by
  -- The memory changes under the plan, but not in the words still to come.
  induction es generalizing mem h st blk with
  | nil => exact ⟨st, rfl, hreloc, by simp [planEvents], hbk⟩
  | cons e es ih =>
      rw [planError, Bool.or_eq_false_iff, beq_eq_false_iff_ne] at hok
      obtain ⟨st₁, hstep, hreloc₁, hcount₁, hbk₁⟩ := realEntry_eq (m := m) hreloc hbk
        (hplaced.inImage e List.mem_cons_self) (hsame e List.mem_cons_self)
        (fun p hp => hrem p hp e List.mem_cons_self) hok.1
      have hremTail : ∀ p, Remembers h p → ∀ x ∈ es, Apart (relOff g x) p :=
        fun p hp x hx => hrem p hp x (List.mem_cons_of_mem _ hx)
      obtain ⟨st₂, hrest, hreloc₂, hcount₂, hbk₂⟩ :=
        ih st₁ hreloc₁ hbk₁ hplaced.tail (hsame.tail.applyEntryPatches hplaced.head hremTail)
          (fun p => apart_of_remembers_entryHilo hplaced.head hremTail) hok.2
      refine ⟨st₂, by rw [List.foldlM_cons, hstep]; exact hrest, ?_, ?_, hbk₂⟩
      · rw [hreloc₂, planPatches, applyPatches_append, hiloAfter_cons]
      · have hcons := TailStack.net_append [entryEvent g id m h e]
          (planEvents g id m (entryHilo g m h e) es)
        rw [List.singleton_append] at hcons
        rw [hcount₂, hcount₁, planEvents]
        omega

/-- In front of an entry of a block the real pass has the register table
of the plan, and the word of the entry is still the original one; so the
call returns what the plan says. -/
theorem realEntries_before {g : Globals} (id : OvlSection) {m mem : Memory}
    {pre post : List GElfRel} {e : GElfRel} (st : RealState) {prior blk : List Word}
    (hreloc : st.reloc = ⟨mem, novlRelocInit⟩) (hbk : Bookkeeping prior blk st)
    (hplaced : Placed g (pre ++ e :: post)) (hsame : SameWords g mem m (pre ++ e :: post))
    (hok : planError g m novlRelocInit pre = false) :
    ∃ st' reloc, pre.foldlM (realEntry g id) st = .ok st' ∧
      novlRelocDo g (relOff g e) e.type false st'.reloc =
        some (entryResult g m (hiloAfter g m novlRelocInit pre) e, reloc) := by
  obtain ⟨st', hrun, hreloc', -, -⟩ := realEntries_eq id (m := m) st hreloc hbk
    (hplaced.sublist (List.sublist_append_left _ _)) (hsame.mono (List.subset_append_left _ _))
    (fun p hp => absurd hp (not_remembers_init p)) hok
  have hcross := (List.pairwise_append.mp hplaced.apart).2.2
  have he : e ∈ pre ++ e :: post := List.mem_append_right _ List.mem_cons_self
  have hword : loadWord st'.reloc.memory (relOff g e) = loadWord m (relOff g e) := by
    rw [hreloc', ← hsame e he]
    apply loadWord_applyPatches_apart
    intro p hp
    rcases pos_of_mem_planPatches hp with ⟨x, hx, hpos⟩ | hrem
    · rw [hpos]
      exact hcross x hx e List.mem_cons_self
    · exact absurd hrem (not_remembers_init _)
  have hrem (r : Reg) (p : ℕ) (hp : (st'.reloc.hilo r).ptr? = some p) :
      Apart (relOff g e) p := by
    rw [hreloc'] at hp
    rcases remembers_hiloAfter ⟨r, hp⟩ with ⟨x, hx, rfl⟩ | hrem
    · exact (hcross x hx e List.mem_cons_self).symm
    · exact absurd hrem (not_remembers_init p)
  have hdo := novlRelocDo_real g e.type (relOff g e) st'.reloc.memory st'.reloc.hilo
    (hplaced.inImage e he) hrem
  have hhilo : st'.reloc.hilo = hiloAfter g m novlRelocInit pre := by rw [hreloc']
  rw [hword, hhilo] at hdo
  exact ⟨st', _, hrun, by rw [entryResult, ← hdo, ← hhilo]⟩

/-- A block, from a memory that shows its entries the original words. -/
theorem realBlock_eq {g : Globals} {m mem : Memory} {b : RelBlock} {st : RealState}
    (hmem : st.reloc.memory = mem) (hcount : st.nintyCountReal = st.nintyRelocs.length)
    (hplaced : Placed g (relList b.rels)) (hsame : SameWords g mem m (relList b.rels))
    (hok : blockError g m b = false) :
    ∃ st', realBlock g st b = .ok st' ∧
      st'.reloc.memory = applyPatches mem (blockPatches g m b) ∧
      st'.nintyCountReal = st.nintyCountReal + TailStack.net (blockEvents g m b) ∧
      st'.nintyRelocs = st.nintyRelocs ++ blockTable g m b ∧
      st'.nintyCountReal = st'.nintyRelocs.length := by
  obtain ⟨st', hfold, hreloc, hnet, hbk⟩ := realEntries_eq (m := m) b.id
    { st with last := none, reloc.hilo := novlRelocInit } (by rw [← hmem])
    (Bookkeeping.start rfl hcount) hplaced hsame (fun p hp => absurd hp (not_remembers_init p)) hok
  exact ⟨st', hfold, by rw [hreloc]; rfl, hnet, hbk.relocs, hbk.count⟩

theorem pos_of_mem_blockPatches {g : Globals} {m : Memory} {b : RelBlock} {p : Patch}
    (hp : p ∈ blockPatches g m b) : ∃ e ∈ relList b.rels, p.pos = relOff g e := by
  rcases pos_of_mem_planPatches hp with he | hrem
  · exact he
  · exact absurd hrem (not_remembers_init _)

/-- The patches of a block leave the words of other blocks alone. -/
theorem SameWords.applyBlockPatches {g : Globals} {m mem : Memory} {b : RelBlock}
    {es : List GElfRel} (hsame : SameWords g mem m es)
    (hapart : ∀ e ∈ relList b.rels, ∀ x ∈ es, Apart (relOff g e) (relOff g x)) :
    SameWords g (applyPatches mem (blockPatches g m b)) m es := by
  intro x hx
  rw [← hsame x hx]
  apply loadWord_applyPatches_apart
  intro p hp
  obtain ⟨e, he, hpos⟩ := pos_of_mem_blockPatches hp
  rw [hpos]
  exact hapart e he x hx

theorem realBlocks_eq {g : Globals} {m mem : Memory} {bs : List RelBlock}
    (rest : List GElfRel) (st : RealState) (hmem : st.reloc.memory = mem)
    (hcount : st.nintyCountReal = st.nintyRelocs.length)
    (hplaced : Placed g (visited bs ++ rest)) (hsame : SameWords g mem m (visited bs ++ rest))
    (hok : bs.any (blockError g m) = false) :
    ∃ st', bs.foldlM (realBlock g) st = .ok st' ∧
      st'.reloc.memory = applyPatches mem (bs.flatMap (blockPatches g m)) ∧
      st'.nintyCountReal = st.nintyCountReal + passNet g m bs ∧
      st'.nintyRelocs = st.nintyRelocs ++ bs.flatMap (blockTable g m) ∧
      st'.nintyCountReal = st'.nintyRelocs.length ∧ SameWords g st'.reloc.memory m rest := by
  induction bs generalizing mem st with
  | nil =>
      exact ⟨st, rfl, by simp [hmem], by simp [passNet], by simp, hcount,
        by rw [hmem]; exact hsame⟩
  | cons b bs ih =>
      rw [visited_cons, List.append_assoc] at hplaced hsame
      rw [List.any_cons, Bool.or_eq_false_iff] at hok
      have hcross := (List.pairwise_append.mp hplaced.apart).2.2
      obtain ⟨st₁, hb, hmem₁, hnet₁, hrel₁, hcount₁⟩ := realBlock_eq hmem hcount
        (hplaced.sublist (List.sublist_append_left _ _))
        (hsame.mono (List.subset_append_left _ _)) hok.1
      obtain ⟨st₂, hbs, hmem₂, hnet₂, hrel₂, hcount₂, hsame₂⟩ := ih st₁ hmem₁ hcount₁
        (hplaced.sublist (List.sublist_append_right _ _))
        ((hsame.mono (List.subset_append_right _ _)).applyBlockPatches hcross) hok.2
      refine ⟨st₂, by rw [List.foldlM_cons, hb]; exact hbs, ?_, ?_, ?_, hcount₂, hsame₂⟩
      · rw [hmem₂, List.flatMap_cons, applyPatches_append]
      · rw [hnet₂, hnet₁]
        simp only [passNet, List.map_cons, List.sum_cons]
        omega
      · rw [hrel₂, hrel₁, List.flatMap_cons, List.append_assoc]

/-- When no entry is in error the real pass comes to an end. Its memory is
the original image with the planned patches, and its table the planned
tables of the blocks, one after the other. -/
theorem realPass_eq {g : Globals} {m : Memory} {bs : List RelBlock}
    (hplaced : Placed g (visited bs)) (hok : bs.any (blockError g m) = false) :
    ∃ st, realPass g m bs = .ok st ∧
      st.reloc.memory = applyPatches m (bs.flatMap (blockPatches g m)) ∧
      st.nintyRelocs = bs.flatMap (blockTable g m) ∧
      st.nintyCountReal = passNet g m bs := by
  obtain ⟨st, hpass, hmem, hnet, hrel, -, -⟩ := realBlocks_eq (m := m) []
    { reloc := ⟨m, novlRelocInit⟩, nintyRelocs := [], last := none, nintyCountReal := 0 } rfl rfl
    (by rwa [List.append_nil]) (fun _ _ => rfl) hok
  exact ⟨st, hpass, hmem, by rw [hrel, List.nil_append], by rw [hnet, Int.zero_add]⟩

end Novl
