import Novl.Reloc
import Novl.Library.SplitWord

/-!
What one relocation call does, read off the word it finds.

A call's result and its change of the register table depend on nothing
but the word at its position, the register table and the section
extents: not on the pass being dry or real, not on the overlay addresses,
not on the rest of the memory. What a real call writes is a list of at
most two patches. This is the form in which the two passes can be
compared, and in which a whole pass can be computed from the image it
starts with.
-/

namespace Novl

open ByteMemory

/-- How far a section moves. -/
def Globals.delta (g : Globals) (s : OvlSection) : Word := g.ovlStarts s - g.elfStarts s

theorem Globals.add_delta (g : Globals) (a : Word) (s : OvlSection) :
    a + g.delta s = a + g.ovlStarts s - g.elfStarts s := by
  rw [delta, BitVec.sub_eq_add_neg, BitVec.sub_eq_add_neg, BitVec.add_assoc]

/-- The result of a call on the word `w`. -/
def relocResult (g : Globals) (type w : Word) (hilo : HiLoTable) : RelocResult :=
  match novlRelocJt type with
  | none => .error
  | some .mips32 =>
    match getTargetSection g w with
    | none => .fail
    | some _ => .success
  | some .mips26 =>
    match getTargetSection g (jumpTarget w) with
    | none => .fail
    | some s => if s = .text then .success else .error
  | some .hi16 => .success
  | some .lo16 =>
    match hilo (loReg w) with
    | .invalid => .error
    | .valid _ hi =>
      match getTargetSection g (hi + loImmediate w) with
      | none => .fail
      | some _ => .success
    | .used _ hi =>
      match getTargetSection g (hi + loImmediate w) with
      | none => .failDontDeleteHi
      | some _ => .success

/-- A row after a LO16 on its register, whatever came of that LO16. -/
def HiLoPair.use : HiLoPair → HiLoPair
  | .invalid => .invalid
  | .valid ptr reg | .used ptr reg => .used ptr reg

/-- The register table after a call at position `i` on the word `w`. -/
def relocHilo (type : Word) (i : ℕ) (w : Word) (hilo : HiLoTable) : HiLoTable :=
  match novlRelocJt type with
  | some .hi16 => Function.update hilo (hiReg w) (.valid i ((w &&& 0xFFFF#32) <<< 16))
  | some .lo16 => Function.update hilo (loReg w) (hilo (loReg w)).use
  | _ => hilo

/-- The low instruction of a pair that forms `a`. -/
def withLow (a w : Word) : Word := w &&& 0xFFFF0000#32 ||| a &&& 0xFFFF#32

/-- The high instruction of a pair that forms `a`. -/
def withHigh (a w : Word) : Word := w &&& 0xFFFF0000#32 ||| SplitWord.carriedHigh a

/-- What a real LO16 call writes, given the HI16 it is paired with. -/
def pairPatches (g : Globals) (i ptr : ℕ) (a : Word) : List Patch :=
  match getTargetSection g a with
  | none => []
  | some s => [⟨i, withLow (a + g.delta s)⟩, ⟨ptr, withHigh (a + g.delta s)⟩]

/-- What a real call at position `i` on the word `w` writes. -/
def relocPatches (g : Globals) (type : Word) (i : ℕ) (w : Word) (hilo : HiLoTable) :
    List Patch :=
  match novlRelocJt type with
  | some .mips32 =>
    match getTargetSection g w with
    | none => []
    | some s => [⟨i, fun v => v + g.delta s⟩]
  | some .mips26 =>
    match getTargetSection g (jumpTarget w) with
    | none => []
    | some s =>
      if s = .text then [⟨i, fun v => withJumpTarget v (jumpTarget v + g.delta s)⟩] else []
  | some .lo16 =>
    match hilo (loReg w) with
    | .invalid => []
    | .valid ptr hi | .used ptr hi => pairPatches g i ptr (hi + loImmediate w)
  | _ => []

/-- The position a row of the register table remembers. -/
def HiLoPair.ptr? : HiLoPair → Option ℕ
  | .invalid => none
  | .valid ptr _ | .used ptr _ => some ptr

/-! ### Overlay addresses do not take part in decisions -/

@[simp] theorem getTargetSection_ovlStarts (g : Globals) (o : OvlSection → Word) (a : Word) :
    getTargetSection { g with ovlStarts := o } a = getTargetSection g a := rfl

/-! ### Rows of the register table -/

@[simp] theorem HiLoPair.ptr?_use (row : HiLoPair) : row.use.ptr? = row.ptr? := by
  cases row <;> rfl

theorem relocHilo_hi16 {type : Word} (hjt : novlRelocJt type = some .hi16) (i : ℕ) (w : Word)
    (hilo : HiLoTable) (r : Reg) :
    relocHilo type i w hilo r =
      if r = hiReg w then .valid i ((w &&& 0xFFFF#32) <<< 16) else hilo r := by
  simp only [relocHilo, hjt, Function.update_apply]

theorem relocHilo_lo16 {type : Word} (hjt : novlRelocJt type = some .lo16) (i : ℕ) (w : Word)
    (hilo : HiLoTable) (r : Reg) :
    relocHilo type i w hilo r = if r = loReg w then (hilo r).use else hilo r := by
  simp only [relocHilo, hjt, Function.update_apply]
  split
  · rename_i hr
    rw [hr]
  · rfl

/-- Only HI16s and LO16s touch the table. -/
theorem relocHilo_other {type : Word} (hhi : novlRelocJt type ≠ some .hi16)
    (hlo : novlRelocJt type ≠ some .lo16) (i : ℕ) (w : Word) (hilo : HiLoTable) :
    relocHilo type i w hilo = hilo := by
  rw [relocHilo]
  split
  · exact absurd ‹_› hhi
  · exact absurd ‹_› hlo
  · rfl

/-! ### The model computes these effects -/

theorem adjustAddress_dry (g : Globals) (a type : Word) :
    adjustAddress g a type true =
      match getTargetSection g a with
      | none => (.fail, a)
      | some s => if type = rMips26 ∧ s ≠ .text then (.error, a) else (.success, a) := by
  rw [adjustAddress]
  cases getTargetSection g a with
  | none => rfl
  | some s => simp

theorem adjustAddress_real (g : Globals) (a type : Word) :
    adjustAddress g a type false =
      match getTargetSection g a with
      | none => (.fail, a)
      | some s =>
        if type = rMips26 ∧ s ≠ .text then (.error, a) else (.success, a + g.delta s) := by
  rw [adjustAddress]
  cases getTargetSection g a with
  | none => rfl
  | some s => simp [Globals.delta]

theorem updatePair_eq (m : Memory) (ptr i : ℕ) (a : Word) (h : Apart i ptr) :
    updatePair m ptr i a = applyPatches m [⟨i, withLow a⟩, ⟨ptr, withHigh a⟩] := by
  simp only [applyPatches_cons, applyPatches_nil, Patch.apply,
    loadWord_storeWord_apart _ _ h]
  rfl

/-- A dry call decides and leaves the memory alone. -/
theorem novlRelocDo_dry (g : Globals) (type : Word) (i : ℕ) (m : Memory) (hilo : HiLoTable)
    (hin : i + 4 ≤ memorySize) :
    novlRelocDo g i type true ⟨m, hilo⟩ =
      some (relocResult g type (loadWord m i) hilo,
        ⟨m, relocHilo type i (loadWord m i) hilo⟩) := by
  simp only [novlRelocDo, relocResult, relocHilo]
  cases novlRelocJt type with
  | none => rfl
  | some handler =>
      simp only [if_pos hin]
      cases handler with
      | mips32 =>
          simp only [novlRelocMips32, adjustAddress_dry, show rMips32 ≠ rMips26 by decide]
          cases getTargetSection g (loadWord m i) <;> simp
      | mips26 =>
          simp only [novlRelocMips26, adjustAddress_dry]
          cases hs : getTargetSection g (jumpTarget (loadWord m i)) with
          | none => rfl
          | some s => by_cases htext : s = .text <;> simp [htext]
      | hi16 => rfl
      | lo16 =>
          simp only [novlRelocMipsLo16, adjustAddress_dry, show rMipsLo16 ≠ rMips26 by decide]
          cases hrow : hilo (loReg (loadWord m i)) with
          | invalid => simp only [HiLoPair.use, Function.update_eq_self_iff.mpr, hrow]
          | valid ptr hi =>
              simp only
              cases getTargetSection g (hi + loImmediate (loadWord m i)) <;>
                simp [HiLoPair.use]
          | used ptr hi =>
              simp only
              cases getTargetSection g (hi + loImmediate (loadWord m i)) <;>
                simp [HiLoPair.use]

/-- A real call takes the same decisions and applies its patches, as long
as the word it works on and the remembered ones do not overlap. -/
theorem novlRelocDo_real (g : Globals) (type : Word) (i : ℕ) (m : Memory) (hilo : HiLoTable)
    (hin : i + 4 ≤ memorySize)
    (hapart : ∀ r ptr, (hilo r).ptr? = some ptr → Apart i ptr) :
    novlRelocDo g i type false ⟨m, hilo⟩ =
      some (relocResult g type (loadWord m i) hilo,
        ⟨applyPatches m (relocPatches g type i (loadWord m i) hilo),
          relocHilo type i (loadWord m i) hilo⟩) := by
  simp only [novlRelocDo, relocResult, relocHilo, relocPatches]
  cases novlRelocJt type with
  | none => rfl
  | some handler =>
      simp only [if_pos hin]
      cases handler with
      | mips32 =>
          simp only [novlRelocMips32, adjustAddress_real, show rMips32 ≠ rMips26 by decide]
          cases getTargetSection g (loadWord m i) <;> simp [Patch.apply]
      | mips26 =>
          simp only [novlRelocMips26, adjustAddress_real]
          cases hs : getTargetSection g (jumpTarget (loadWord m i)) with
          | none => rfl
          | some s => by_cases htext : s = .text <;> simp [htext, Patch.apply]
      | hi16 => rfl
      | lo16 =>
          simp only [novlRelocMipsLo16, adjustAddress_real, pairPatches,
            show rMipsLo16 ≠ rMips26 by decide]
          -- The HI16 word is read before the LO16 word is written, and by the
          -- patch afterwards; the two words are apart.
          cases hrow : hilo (loReg (loadWord m i)) with
          | invalid => simp only [HiLoPair.use, Function.update_eq_self_iff.mpr, hrow,
              applyPatches_nil]
          | valid ptr hi | used ptr hi =>
              have hptr : Apart i ptr := hapart _ ptr (by rw [hrow]; rfl)
              simp only
              cases getTargetSection g (hi + loImmediate (loadWord m i)) <;>
                simp [updatePair_eq _ _ _ _ hptr, HiLoPair.use]

/-- However the words in memory overlap, a real call takes the same
decisions. -/
theorem novlRelocDo_decides (g : Globals) (type : Word) (i : ℕ) (m : Memory)
    (hilo : HiLoTable) (hin : i + 4 ≤ memorySize) :
    ∃ m', novlRelocDo g i type false ⟨m, hilo⟩ =
      some (relocResult g type (loadWord m i) hilo,
        ⟨m', relocHilo type i (loadWord m i) hilo⟩) := by
  simp only [novlRelocDo, relocResult, relocHilo]
  cases novlRelocJt type with
  | none => exact ⟨m, rfl⟩
  | some handler =>
      simp only [if_pos hin]
      cases handler with
      | mips32 =>
          simp only [novlRelocMips32, adjustAddress_real, show rMips32 ≠ rMips26 by decide]
          cases getTargetSection g (loadWord m i) <;> exact ⟨_, rfl⟩
      | mips26 =>
          simp only [novlRelocMips26, adjustAddress_real]
          cases hs : getTargetSection g (jumpTarget (loadWord m i)) with
          | none => exact ⟨_, rfl⟩
          | some s => by_cases htext : s = .text <;> simp [htext]
      | hi16 => exact ⟨m, rfl⟩
      | lo16 =>
          simp only [novlRelocMipsLo16, adjustAddress_real, show rMipsLo16 ≠ rMips26 by decide]
          cases hrow : hilo (loReg (loadWord m i)) with
          | invalid => exact ⟨m, by simp only [HiLoPair.use, Function.update_eq_self_iff.mpr, hrow]⟩
          | valid ptr hi | used ptr hi =>
              simp only
              cases getTargetSection g (hi + loImmediate (loadWord m i)) <;> exact ⟨_, rfl⟩

end Novl
