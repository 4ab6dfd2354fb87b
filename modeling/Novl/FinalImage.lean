import Novl.DryRun

/-!
What the image looks like after the real pass.

A word that an entry names is only ever patched by that entry or, where
the entry is a HI16, by the LO16s that come after it. So the final word is
the original one with those edits, and everything outside the named words
is untouched.
-/

namespace Novl

open ByteMemory

/-- The patches of a whole pass. -/
def passPatches (g : Globals) (m : Memory) (bs : List RelBlock) : List Patch :=
  bs.flatMap (blockPatches g m)

/-- The image after the real pass over `bs`. -/
def finalMemory (g : Globals) (m : Memory) (bs : List RelBlock) : Memory :=
  applyPatches m (passPatches g m bs)

theorem pos_of_mem_passPatches {g : Globals} {m : Memory} {bs : List RelBlock} {p : Patch}
    (hp : p ∈ passPatches g m bs) : ∃ e ∈ visited bs, p.pos = relOff g e := by
  obtain ⟨b, hb, hpb⟩ := List.mem_flatMap.mp hp
  obtain ⟨e, he, hpos⟩ := pos_of_mem_blockPatches hpb
  exact ⟨e, mem_visited.mpr ⟨b, hb, mem_relList.mp he⟩, hpos⟩

theorem Placed.eq_or_apart {g : Globals} {es : List GElfRel} (h : Placed g es) {a b : GElfRel}
    (ha : a ∈ es) (hb : b ∈ es) : relOff g a = relOff g b ∨ Apart (relOff g a) (relOff g b) := by
  exact List.Pairwise.forall_of_forall_of_flip
    (R := fun x y => relOff g x = relOff g y ∨ Apart (relOff g x) (relOff g y))
    (fun x _ => Or.inl rfl) (h.apart.imp Or.inr) (h.apart.imp fun hxy => Or.inr hxy.symm) ha hb

/-- A byte outside the named words is unchanged. -/
theorem finalMemory_outside {g : Globals} {m : Memory} {bs : List RelBlock} {a : ℕ}
    (h : ∀ e ∈ visited bs, a < relOff g e ∨ relOff g e + 4 ≤ a) :
    finalMemory g m bs a = m a := by
  apply applyPatches_outside
  intro p hp
  obtain ⟨e, he, hpos⟩ := pos_of_mem_passPatches hp
  rw [hpos]
  exact h e he

theorem loadWord_finalMemory {g : Globals} {m : Memory} {bs : List RelBlock} {e : GElfRel}
    (hplaced : Placed g (visited bs)) (he : e ∈ visited bs) :
    loadWord (finalMemory g m bs) (relOff g e) =
      editsAt (passPatches g m bs) (relOff g e) (loadWord m (relOff g e)) := by
  apply loadWord_applyPatches
  intro p hp
  obtain ⟨x, hx, hpos⟩ := pos_of_mem_passPatches hp
  rw [hpos]
  exact hplaced.eq_or_apart hx he

/-! ### One entry -/

section Entry

variable {g : Globals} {m : Memory} {before after : List RelBlock} {b : RelBlock}
  {pre post : List GElfRel} {e : GElfRel}

theorem mem_visited_of_split (hsplit : relList b.rels = pre ++ e :: post) :
    e ∈ visited (before ++ b :: after) := by
  have he : e ∈ relList b.rels := by
    rw [hsplit]
    exact List.mem_append_right _ List.mem_cons_self
  exact mem_visited.mpr ⟨b, List.mem_append_right _ List.mem_cons_self, mem_relList.mp he⟩

/-- The entries of a block are apart from those of the blocks around it. -/
theorem Placed.apart_of_split (hplaced : Placed g (visited (before ++ b :: after)))
    (hsplit : relList b.rels = pre ++ e :: post) :
    (∀ x ∈ visited before, Apart (relOff g x) (relOff g e)) ∧
    (∀ x ∈ visited after, Apart (relOff g x) (relOff g e)) ∧
    (∀ x ∈ pre, Apart (relOff g x) (relOff g e)) ∧
    ∀ x ∈ post, Apart (relOff g x) (relOff g e) := by
  have h := hplaced.apart
  rw [visited_append, visited_cons, hsplit, List.pairwise_append] at h
  obtain ⟨-, hrest, hbefore⟩ := h
  obtain ⟨hblock, -, hafter⟩ := List.pairwise_append.mp hrest
  obtain ⟨-, htail, hpre⟩ := List.pairwise_append.mp hblock
  have hmem : e ∈ pre ++ e :: post := List.mem_append_right _ List.mem_cons_self
  refine ⟨fun x hx => hbefore x hx e (List.mem_append_left _ hmem),
    fun x hx => (hafter e hmem x hx).symm, fun x hx => hpre x hx e List.mem_cons_self,
    fun x hx => ((List.pairwise_cons.mp htail).1 x hx).symm⟩

/-- The final word of an entry: its own edits, then those the entries
after it make through the register table. -/
theorem loadWord_finalMemory_split (hplaced : Placed g (visited (before ++ b :: after)))
    (hsplit : relList b.rels = pre ++ e :: post) :
    loadWord (finalMemory g m (before ++ b :: after)) (relOff g e) =
      editsAt (planPatches g m (entryHilo g m (hiloAfter g m novlRelocInit pre) e) post)
        (relOff g e)
        (editsAt (entryPatches g m (hiloAfter g m novlRelocInit pre) e) (relOff g e)
          (loadWord m (relOff g e))) := by
  obtain ⟨hbefore, hafter, hpre, -⟩ := hplaced.apart_of_split hsplit
  have hout (bs : List RelBlock) (hbs : ∀ x ∈ visited bs, Apart (relOff g x) (relOff g e)) :
      ∀ p ∈ passPatches g m bs, p.pos ≠ relOff g e := by
    intro p hp
    obtain ⟨x, hx, hpos⟩ := pos_of_mem_passPatches hp
    rw [hpos]
    exact (hbs x hx).ne
  have hprePatches : ∀ p ∈ planPatches g m novlRelocInit pre, p.pos ≠ relOff g e := by
    intro p hp
    rcases pos_of_mem_planPatches hp with ⟨x, hx, hpos⟩ | hrem
    · rw [hpos]
      exact (hpre x hx).ne
    · exact absurd hrem (not_remembers_init _)
  have hpatches : passPatches g m (before ++ b :: after) =
      passPatches g m before ++ (blockPatches g m b ++ passPatches g m after) := by
    simp [passPatches]
  have hblock : blockPatches g m b = planPatches g m novlRelocInit pre ++
      (entryPatches g m (hiloAfter g m novlRelocInit pre) e ++
        planPatches g m (entryHilo g m (hiloAfter g m novlRelocInit pre) e) post) := by
    rw [blockPatches, hsplit, planPatches_append]
    rfl
  rw [loadWord_finalMemory hplaced (mem_visited_of_split hsplit), hpatches, hblock,
    editsAt_append, editsAt_of_forall_ne (hout before hbefore), editsAt_append,
    editsAt_of_forall_ne (hout after hafter), editsAt_append,
    editsAt_of_forall_ne hprePatches, editsAt_append]

/-- Only HI16 words are written by other entries than their own. -/
theorem loadWord_finalMemory_of_ne_hi16 (hplaced : Placed g (visited (before ++ b :: after)))
    (hsplit : relList b.rels = pre ++ e :: post) (hjt : novlRelocJt e.type ≠ some .hi16) :
    loadWord (finalMemory g m (before ++ b :: after)) (relOff g e) =
      editsAt (entryPatches g m (hiloAfter g m novlRelocInit pre) e) (relOff g e)
        (loadWord m (relOff g e)) := by
  obtain ⟨-, -, hpre, hpost⟩ := hplaced.apart_of_split hsplit
  rw [loadWord_finalMemory_split hplaced hsplit]
  apply editsAt_of_forall_ne
  intro p hp
  rcases pos_of_mem_planPatches hp with ⟨x, hx, hpos⟩ | hrem
  · rw [hpos]
    exact (hpost x hx).ne
  · rcases remembers_relocHilo hrem with ⟨-, hhi⟩ | hrem
    · exact absurd hhi hjt
    · rcases remembers_hiloAfter hrem with ⟨x, hx, hpos⟩ | hinit
      · rw [hpos]
        exact (hpre x hx).ne
      · exact absurd hinit (not_remembers_init _)

/-- A pointer moves with the section it points into. -/
theorem final_mips32 (hplaced : Placed g (visited (before ++ b :: after)))
    (hsplit : relList b.rels = pre ++ e :: post) (hjt : novlRelocJt e.type = some .mips32) :
    loadWord (finalMemory g m (before ++ b :: after)) (relOff g e) =
      match getTargetSection g (loadWord m (relOff g e)) with
      | none => loadWord m (relOff g e)
      | some s => loadWord m (relOff g e) + g.delta s := by
  rw [loadWord_finalMemory_of_ne_hi16 hplaced hsplit (by simp [hjt]), entryPatches,
    relocPatches]
  simp only [hjt]
  cases getTargetSection g (loadWord m (relOff g e)) with
  | none => rfl
  | some s => simp [editsAt]

/-- A jump whose target is in `.text` gets the field of the moved target. -/
theorem final_mips26 (hplaced : Placed g (visited (before ++ b :: after)))
    (hsplit : relList b.rels = pre ++ e :: post) (hjt : novlRelocJt e.type = some .mips26) :
    loadWord (finalMemory g m (before ++ b :: after)) (relOff g e) =
      if getTargetSection g (jumpTarget (loadWord m (relOff g e))) = some .text then
        withJumpTarget (loadWord m (relOff g e))
          (jumpTarget (loadWord m (relOff g e)) + g.delta .text)
      else loadWord m (relOff g e) := by
  rw [loadWord_finalMemory_of_ne_hi16 hplaced hsplit (by simp [hjt]), entryPatches,
    relocPatches]
  simp only [hjt]
  cases getTargetSection g (jumpTarget (loadWord m (relOff g e))) with
  | none => simp
  | some s =>
      by_cases htext : s = .text
      · simp [htext, editsAt]
      · simp [htext]

end Entry

/-! ### Fields of a jump -/

theorem getLsbD_fieldMask (i : ℕ) : (0x03FFFFFF#32).getLsbD i = decide (i < 26) :=
  LowMask.getLsbD_mask (n := 26) (by omega) i

/-- The operation code of a jump is left alone. -/
theorem withJumpTarget_opcode (w a : Word) : withJumpTarget w a >>> 26 = w >>> 26 := by
  apply BitVec.eq_of_getLsbD_eq
  intro i hi
  simp only [withJumpTarget, BitVec.getLsbD_ushiftRight, BitVec.getLsbD_or, BitVec.getLsbD_and,
    BitVec.getLsbD_not, getLsbD_fieldMask, show ¬ 26 + i < 26 by omega, decide_false,
    Bool.not_false, Bool.and_true, Bool.and_false, Bool.or_false]
  by_cases hlt : 26 + i < 32
  · simp [hlt]
  · simp [hlt, BitVec.getLsbD_of_ge w (26 + i) (by omega)]

theorem withJumpTarget_field (w a : Word) :
    withJumpTarget w a &&& 0x03FFFFFF#32 = a >>> 2 &&& 0x03FFFFFF#32 := by
  apply BitVec.eq_of_getLsbD_eq
  intro i hi
  by_cases hlt : i < 26 <;>
    simp only [withJumpTarget, BitVec.getLsbD_or, BitVec.getLsbD_and, BitVec.getLsbD_not,
      getLsbD_fieldMask, hlt, decide_true, decide_false, Bool.not_true, Bool.and_true,
      Bool.and_false, Bool.false_or]

/-! ### The whole pass -/

theorem entryResult_ne_error_of_split {g : Globals} {m : Memory} {bs : List RelBlock}
    {b : RelBlock} {pre post : List GElfRel} {e : GElfRel}
    (hok : bs.any (blockError g m) = false) (hb : b ∈ bs)
    (hsplit : relList b.rels = pre ++ e :: post) :
    entryResult g m (hiloAfter g m novlRelocInit pre) e ≠ .error := by
  have hblock : blockError g m b = false := by
    simpa using List.any_eq_false.mp hok b hb
  rw [blockError, hsplit, planError_append, planError, Bool.or_eq_false_iff,
    Bool.or_eq_false_iff, beq_eq_false_iff_ne] at hblock
  exact hblock.2.1

/-- A dry pass without errors is followed by a real pass that ends with
this image, whatever the overlay addresses. -/
theorem DryOk.realPass_finalMemory {g : Globals} {m : Memory} {bs : List RelBlock}
    (hdry : DryOk g m bs) (hplaced : Placed g (visited bs)) (o : OvlSection → Word) :
    ∃ real, realPass { g with ovlStarts := o } m bs = .ok real ∧
      real.reloc.memory = finalMemory { g with ovlStarts := o } m bs := by
  have hok : bs.any (blockError { g with ovlStarts := o } m) = false := by
    rw [blockError_ovlStarts]
    exact hdry.any_blockError hplaced
  obtain ⟨real, hreal, hmem, -, -⟩ := realPass_eq (hplaced.ovlStarts o) hok
  exact ⟨real, hreal, hmem⟩

/-- Pointers, jumps and the frame over a whole run: after a real pass that
follows a dry pass without errors, a pointer into a section has moved with
the section and any other pointer is as before; a jump keeps its operation
code, and its field is that of the moved target if the target was in
`.text`, the old one if it was in no section; and no byte outside the
words the entries name has changed. -/
theorem realPass_pointers_jumps_frame {g : Globals} {m : Memory} {bs : List RelBlock}
    (hplaced : WellPlaced g.elfEp bs) (hdry : DryOk g m bs) (o : OvlSection → Word) :
    ∃ real, realPass { g with ovlStarts := o } m bs = .ok real ∧
      (∀ b ∈ bs, ∀ e ∈ b.rels, novlRelocJt e.type = some .mips32 →
        loadWord real.reloc.memory (relOff g e) =
          match getTargetSection g (loadWord m (relOff g e)) with
          | none => loadWord m (relOff g e)
          | some s => loadWord m (relOff g e) + o s - g.elfStarts s) ∧
      (∀ b ∈ bs, ∀ e ∈ b.rels, novlRelocJt e.type = some .mips26 →
        loadWord real.reloc.memory (relOff g e) >>> 26 = loadWord m (relOff g e) >>> 26 ∧
        (getTargetSection g (jumpTarget (loadWord m (relOff g e))) = some .text →
          loadWord real.reloc.memory (relOff g e) &&& 0x03FFFFFF#32 =
            (jumpTarget (loadWord m (relOff g e)) + o .text - g.elfStarts .text) >>> 2 &&&
              0x03FFFFFF#32) ∧
        (getTargetSection g (jumpTarget (loadWord m (relOff g e))) = none →
          loadWord real.reloc.memory (relOff g e) &&& 0x03FFFFFF#32 =
            loadWord m (relOff g e) &&& 0x03FFFFFF#32)) ∧
      ∀ a, (∀ b ∈ bs, ∀ e ∈ b.rels, novlRelocJt e.type ≠ none →
          a < relOff g e ∨ relOff g e + 4 ≤ a) →
        real.reloc.memory a = m a := by
  have hok := hdry.any_blockError hplaced.placed
  have hplaced' := hplaced.placed.ovlStarts o
  obtain ⟨real, hreal, hmem⟩ := hdry.realPass_finalMemory hplaced.placed o
  refine ⟨real, hreal, ?_, ?_, ?_⟩
  · intro b hb e he hjt
    obtain ⟨before, after, rfl⟩ := List.append_of_mem hb
    obtain ⟨pre, post, hsplit⟩ := List.append_of_mem (mem_relList.mpr he)
    have hfinal := final_mips32 (m := m) hplaced' hsplit hjt
    rw [relOff_ovlStarts, ← hmem] at hfinal
    simp only [Globals.add_delta] at hfinal
    exact hfinal
  · intro b hb e he hjt
    obtain ⟨before, after, rfl⟩ := List.append_of_mem hb
    obtain ⟨pre, post, hsplit⟩ := List.append_of_mem (mem_relList.mpr he)
    have hfinal := final_mips26 (m := m) hplaced' hsplit hjt
    rw [relOff_ovlStarts, ← hmem, getTargetSection_ovlStarts] at hfinal
    rw [hfinal]
    refine ⟨?_, fun htext => ?_, fun hnone => ?_⟩
    · split
      · exact withJumpTarget_opcode _ _
      · rfl
    · rw [if_pos htext, withJumpTarget_field, Globals.add_delta]
    · rw [if_neg (by simp [hnone])]
  · intro a ha
    rw [hmem]
    apply finalMemory_outside
    intro e he
    obtain ⟨b, hb, heb⟩ := mem_visited.mp he
    obtain ⟨pre, post, hsplit⟩ := List.append_of_mem (mem_relList.mpr heb)
    apply ha b hb e heb
    intro hjt
    -- An entry without a handler would have been an error of the dry pass.
    apply entryResult_ne_error_of_split hok hb hsplit
    simp only [entryResult, relocResult, hjt]

/-- The pointer at 0x14 and the jump at 0x10 go to the moved `.text`, and
the bytes behind the six words stay. -/
theorem mixedBlock_final :
    ∃ real, realPass { mixedGlobals with ovlStarts := mixedStarts } mixedMemory [mixedBlock] =
        .ok real ∧
      loadWord real.reloc.memory 0x14 = 0x80800010#32 ∧
      loadWord real.reloc.memory 0x10 >>> 26 = 2#32 ∧
      loadWord real.reloc.memory 0x10 &&& 0x03FFFFFF#32 = 0x00200000#32 ∧
      ∀ a, 0x18 ≤ a → real.reloc.memory a = mixedMemory a := by
  obtain ⟨real, hreal, hpointers, hjumps, hframe⟩ :=
    realPass_pointers_jumps_frame (m := mixedMemory) mixedBlock_wellPlaced
      (by decide +kernel) mixedStarts
  have hpointer := hpointers mixedBlock List.mem_cons_self ⟨0x80000014, 2⟩
    (by decide +kernel) (by decide)
  obtain ⟨hopcode, htext, -⟩ := hjumps mixedBlock List.mem_cons_self ⟨0x80000010, 4⟩
    (by decide +kernel) (by decide)
  refine ⟨real, hreal, hpointer.trans (by decide +kernel), hopcode.trans (by decide +kernel),
    (htext (by decide +kernel)).trans (by decide +kernel), fun a ha => hframe a ?_⟩
  intro b hb e he _
  rw [List.mem_singleton] at hb
  subst hb
  have hend : ∀ x ∈ mixedBlock.rels, relOff mixedGlobals x + 4 ≤ 0x18 := by decide +kernel
  exact Or.inr ((hend e he).trans ha)

end Novl
