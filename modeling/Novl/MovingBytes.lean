import Novl.NamedBytes

/-!
Which bytes of the relocated image depend on the base address.

The overlay addresses at a base that is a multiple of 16 are those at base
0 plus the base, so every final word is a fixed function of the base. From
these functions the bytes that take different values at different bases
can be read off: all four of a pointer or a jump that resolves, the lower
two of a LO16 that resolves or of a HI16 with a resolving LO16, and in one
corner a third byte of that HI16.
-/

namespace Novl

open ByteMemory FallibleRun SplitWord

/-! ### Overlay addresses at a base -/

theorem overlayStarts_eq_add {base : Word} (hbase : base.toNat % 16 = 0)
    (sizes : OvlSection → Word) (pred : ℤ) (i : OvlSection) :
    overlayStarts base sizes pred i = overlayStarts 0#32 sizes pred i + base := by
  cases i with
  | text => exact (BitVec.zero_add base).symm
  | data =>
      rw [overlayStarts, overlayStarts, BitVec.zero_add, BitVec.add_comm]
  | rodata =>
      rw [overlayStarts, overlayStarts, BitVec.zero_add, BitVec.add_assoc, BitVec.add_comm]
  | bss =>
      have hsum (x : Word) : x + sizes .text + sizes .data + sizes .rodata + 5 * 4 +
          BitVec.ofInt 32 (pred * 4) + 4 + 15 =
            x + (sizes .text + sizes .data + sizes .rodata + 5 * 4 +
              BitVec.ofInt 32 (pred * 4) + 4 + 15) := by
        simp only [BitVec.add_assoc]
      rw [overlayStarts, overlayStarts]
      simp only [hsum]
      generalize sizes .text + sizes .data + sizes .rodata + 5 * 4 +
        BitVec.ofInt 32 (pred * 4) + 4 + 15 = x
      apply BitVec.eq_of_toNat_eq
      change (base + x &&& ~~~15#32).toNat = ((0#32 + x &&& ~~~15#32) + base).toNat
      rw [BitVec.toNat_add, toNat_and_not_15, toNat_and_not_15, BitVec.toNat_add,
        BitVec.zero_add]
      have hx := x.isLt
      omega

/-- All sections end up further on by the same amount. -/
def Globals.moved (g : Globals) (d : Word) : Globals :=
  { g with ovlStarts := fun s => g.ovlStarts s + d }

section Moved

variable (g : Globals) (d : Word) (m : Memory)

@[simp] theorem Globals.delta_moved (s : OvlSection) : (g.moved d).delta s = g.delta s + d := by
  rw [Globals.delta, Globals.delta]
  change g.ovlStarts s + d - g.elfStarts s = g.ovlStarts s - g.elfStarts s + d
  grind

@[simp] theorem getTargetSection_moved (a : Word) :
    getTargetSection (g.moved d) a = getTargetSection g a := rfl

@[simp] theorem relOff_moved (e : GElfRel) : relOff (g.moved d) e = relOff g e := rfl

@[simp] theorem entryWord_moved (e : GElfRel) : entryWord (g.moved d) m e = entryWord g m e := rfl

@[simp] theorem lastHi_moved (r : Reg) (es : List GElfRel) :
    lastHi (g.moved d) m r es = lastHi g m r es := rfl

@[simp] theorem loUsers_moved (r : Reg) (es : List GElfRel) :
    loUsers (g.moved d) m r es = loUsers g m r es := by
  induction es with
  | nil => rfl
  | cons e es ih =>
      rw [loUsers, loUsers, ih]
      rfl

@[simp] theorem relocated_moved (a : Word) :
    relocated (g.moved d) a = (relocated g a).map (· + d) := by
  simp [relocated, Function.comp_def, BitVec.add_assoc]

@[simp] theorem userAddresses_moved (v : Word) (ls : List GElfRel) :
    userAddresses (g.moved d) m v ls = (userAddresses g m v ls).map (· + d) := by
  simp [userAddresses, List.map_filterMap]

end Moved

/-! ### Final words -/

/-- The addresses the resolving LO16s of a HI16 form after relocation. -/
def hiAddresses (g : Globals) (m : Memory) (post : List GElfRel) (e : GElfRel) : List Word :=
  userAddresses g m ((entryWord g m e &&& 0xFFFF#32) <<< 16)
    (loUsers g m (hiReg (entryWord g m e)) post)

/-- The final word of an entry with the entries `pre` and `post` around it,
when the overlay addresses of `g` all grow by `base`. -/
def finalWord (g : Globals) (m : Memory) (pre post : List GElfRel) (e : GElfRel)
    (base : Word) : Word :=
  let w := entryWord g m e
  match novlRelocJt e.type with
  | none => w
  | some .mips32 =>
    match relocated g w with
    | none => w
    | some a => a + base
  | some .mips26 =>
    if getTargetSection g (jumpTarget w) = some .text then
      withJumpTarget w (jumpTarget w + g.delta .text + base)
    else w
  | some .hi16 => ((hiAddresses g m post e).map (· + base)).foldl (fun w a => withHigh a w) w
  | some .lo16 =>
    match lastHi g m (loReg w) pre with
    | none => w
    | some h =>
      match relocated g (pairAddress (entryWord g m h) w) with
      | none => w
      | some a => withLow (a + base) w

section Entry

variable {g : Globals} {m : Memory} {before after : List RelBlock} {b : RelBlock}
  {pre post : List GElfRel} {e : GElfRel}

theorem loadWord_final_lo16 (hplaced : Placed g (visited (before ++ b :: after)))
    (hsplit : relList b.rels = pre ++ e :: post) (hjt : novlRelocJt e.type = some .lo16) :
    loadWord (finalMemory g m (before ++ b :: after)) (relOff g e) =
      match lastHi g m (loReg (entryWord g m e)) pre with
      | none => entryWord g m e
      | some h =>
        match relocated g (pairAddress (entryWord g m h) (entryWord g m e)) with
        | none => entryWord g m e
        | some a => withLow a (entryWord g m e) := by
  obtain ⟨-, -, hpre, -⟩ := hplaced.apart_of_split hsplit
  rw [loadWord_finalMemory_of_ne_hi16 hplaced hsplit (by simp [hjt]), entryPatches,
    relocPatches, ← entryWord]
  simp only [hjt]
  rw [hiloAfter_init]
  cases hlast : lastHi g m (loReg (entryWord g m e)) pre with
  | none => rfl
  | some h =>
      have hh : h ∈ pre := List.mem_reverse.mp (List.mem_of_find?_eq_some hlast)
      have hedits : editsAt (pairPatches g (relOff g e) (relOff g h)
          (pairAddress (entryWord g m h) (entryWord g m e))) (relOff g e) (entryWord g m e) =
            match relocated g (pairAddress (entryWord g m h) (entryWord g m e)) with
            | none => entryWord g m e
            | some a => withLow a (entryWord g m e) := by
        rw [pairPatches_eq]
        cases relocated g (pairAddress (entryWord g m h) (entryWord g m e)) with
        | none => rfl
        | some a => exact editsAt_pair_low (hpre h hh).ne _ _
      simp only
      cases hiUnused g m (loReg (entryWord g m e)) pre <;> exact hedits

end Entry

theorem loadWord_finalMemory_moved {g : Globals} {m : Memory} {before after : List RelBlock}
    {b : RelBlock} {pre post : List GElfRel} {e : GElfRel} (base : Word)
    (hplaced : Placed g (visited (before ++ b :: after)))
    (hsplit : relList b.rels = pre ++ e :: post) :
    loadWord (finalMemory (g.moved base) m (before ++ b :: after)) (relOff g e) =
      finalWord g m pre post e base := by
  have hplaced' : Placed (g.moved base) (visited (before ++ b :: after)) := hplaced.ovlStarts _
  rw [← relOff_moved g base, finalWord]
  cases hjt : novlRelocJt e.type with
  | none =>
      rw [loadWord_finalMemory_of_ne_hi16 hplaced' hsplit (by simp [hjt]), entryPatches,
        relocPatches]
      simp only [hjt]
      rfl
  | some handler =>
      cases handler with
      | mips32 =>
          rw [final_mips32 hplaced' hsplit hjt, ← entryWord, entryWord_moved, relocated]
          simp only [getTargetSection_moved]
          cases getTargetSection g (entryWord g m e) with
          | none => rfl
          | some s => simp [BitVec.add_assoc]
      | mips26 =>
          rw [final_mips26 hplaced' hsplit hjt, ← entryWord, entryWord_moved]
          simp [BitVec.add_assoc]
      | hi16 =>
          rw [final_hi16 hplaced' hsplit hjt]
          simp [hiAddresses]
      | lo16 =>
          rw [loadWord_final_lo16 hplaced' hsplit hjt]
          simp only [entryWord_moved, lastHi_moved, relocated_moved]
          cases lastHi g m (loReg (entryWord g m e)) pre with
          | none => rfl
          | some h =>
              simp only
              cases relocated g (pairAddress (entryWord g m h) (entryWord g m e)) <;> rfl

/-! ### Bits of the final words -/

theorem getLsbD_highMask (i : ℕ) (hi : i < 32) :
    (0xFFFF0000#32).getLsbD i = decide (16 ≤ i) := by
  have hmask : (0xFFFF0000#32) = ~~~0xFFFF#32 := rfl
  have hlow : (0xFFFF#32).getLsbD i = decide (i < 16) :=
    LowMask.getLsbD_mask (n := 16) (by omega) i
  rw [hmask, BitVec.getLsbD_not, hlow, decide_eq_true hi, Bool.true_and, ← decide_not]
  exact decide_eq_decide.mpr not_lt

theorem getLsbD_withLow (a w : Word) {i : ℕ} (hi : i < 32) :
    (withLow a w).getLsbD i = if i < 16 then a.getLsbD i else w.getLsbD i := by
  have hlow : (0xFFFF#32).getLsbD i = decide (i < 16) :=
    LowMask.getLsbD_mask (n := 16) (by omega) i
  rw [withLow, BitVec.getLsbD_or, BitVec.getLsbD_and, BitVec.getLsbD_and, getLsbD_highMask i hi,
    hlow]
  by_cases hlt : i < 16
  · simp [hlt]
  · simp [hlt, show 16 ≤ i by omega]

theorem getLsbD_withHigh (a w : Word) {i : ℕ} (hlo : 16 ≤ i) (hi : i < 32) :
    (withHigh a w).getLsbD i = (w.getLsbD i || (carriedHigh a).getLsbD i) := by
  rw [withHigh, BitVec.getLsbD_or, BitVec.getLsbD_and, getLsbD_highMask i hi, decide_eq_true hlo,
    Bool.and_true]

/-- The immediate of the word is rewritten, the bit above may be set, and
the rest stays. -/
theorem getLsbD_foldl_withHigh (as : List Word) (w : Word) {i : ℕ} (hlo : 16 < i)
    (hi : i < 32) : (as.foldl (fun w a => withHigh a w) w).getLsbD i = w.getLsbD i := by
  induction as generalizing w with
  | nil => rfl
  | cons a as ih =>
      rw [List.foldl_cons, ih, getLsbD_withHigh a w hlo.le hi, getLsbD_carriedHigh_of_lt a hlo,
        Bool.or_false]

theorem getLsbD_foldl_withHigh_16 (as : List Word) (w : Word) :
    (as.foldl (fun w a => withHigh a w) w).getLsbD 16 =
      (w.getLsbD 16 || as.any fun a => 2 ^ 32 ≤ a.toNat + 2 ^ 15) := by
  induction as generalizing w with
  | nil => simp
  | cons a as ih =>
      rw [List.foldl_cons, ih, getLsbD_withHigh a w (by decide) (by decide),
        getLsbD_carriedHigh_16, List.any_cons, Bool.or_assoc]

theorem getLsbD_withJumpTarget (w a : Word) {i : ℕ} (hi : i < 26) :
    (withJumpTarget w a).getLsbD i = a.getLsbD (2 + i) := by
  rw [withJumpTarget, BitVec.getLsbD_or, BitVec.getLsbD_and, BitVec.getLsbD_and,
    BitVec.getLsbD_not, BitVec.getLsbD_ushiftRight, getLsbD_fieldMask]
  simp [hi]

theorem getLsbD_immediate (w : Word) {i : ℕ} (hi : i < 16) :
    (immediate w).getLsbD i = w.getLsbD i := by
  simp [immediate, hi]

/-! ### Bytes that depend on the base -/

/-- The carry of one of the addresses leaves the word when `base` is added. -/
def CarriesOut (as : List Word) (base : Word) : Prop :=
  ∃ a ∈ as, 2 ^ 32 ≤ (a + base).toNat + 2 ^ 15

/-- Byte `j` of the entry's word takes different values at the bases
`usable`: any byte of a pointer or jump that resolves; the lower two bytes
of a LO16 that resolves, and of a HI16 for which a LO16 does; and the byte
above the latter if its last bit is clear and a carry sets it at some of
the bases but not at all of them. -/
def Moves (g : Globals) (m : Memory) (usable : Word → Prop) (pre post : List GElfRel)
    (e : GElfRel) (j : ℕ) : Prop :=
  match novlRelocJt e.type with
  | none => False
  | some .mips32 | some .mips26 => resolves g m pre e = true
  | some .lo16 => resolves g m pre e = true ∧ 2 ≤ j
  | some .hi16 =>
    hiAddresses g m post e ≠ [] ∧ 2 ≤ j ∨
      j = 1 ∧ (entryWord g m e).getLsbD 16 = false ∧ ∃ base base', usable base ∧
        usable base' ∧ CarriesOut (hiAddresses g m post e) base ∧
        ¬ CarriesOut (hiAddresses g m post e) base'

theorem resolves_of_moves {g : Globals} {m : Memory} {usable : Word → Prop}
    {pre post : List GElfRel} {e : GElfRel} {j : ℕ} (h : Moves g m usable pre post e j) :
    resolves g m pre e = true := by
  rw [Moves] at h
  cases hjt : novlRelocJt e.type with
  | none =>
      rw [hjt] at h
      exact absurd h id
  | some handler =>
      rw [hjt] at h
      cases handler with
      | mips32 => exact h
      | mips26 => exact h
      | lo16 => exact h.1
      | hi16 =>
          rw [resolves]
          simp only [hjt]

section Bytes

variable {g : Globals} {m : Memory} {usable : Word → Prop} {pre post : List GElfRel}
  {e : GElfRel} {j : ℕ}

theorem any_carries_iff (as : List Word) (base : Word) :
    ((as.map (· + base)).any fun a => 2 ^ 32 ≤ a.toNat + 2 ^ 15) = true ↔
      CarriesOut as base := by
  simp [CarriesOut]

/-- A byte of a HI16 that does not move. -/
theorem wordByte_foldl_withHigh_eq {as : List Word} {w base base' : Word}
    (hlow : 2 ≤ j → as = [])
    (hcarry : j = 1 → w.getLsbD 16 = false → (CarriesOut as base ↔ CarriesOut as base'))
    (hj : j < 4) :
    wordByte ((as.map (· + base)).foldl (fun w a => withHigh a w) w) j =
      wordByte ((as.map (· + base')).foldl (fun w a => withHigh a w) w) j := by
  by_cases hle : 2 ≤ j
  · rw [hlow hle]
    rfl
  · apply wordByte_eq_of_getLsbD_eq
    intro i hi hi'
    by_cases hbit : i = 16
    · subst hbit
      rw [getLsbD_foldl_withHigh_16, getLsbD_foldl_withHigh_16]
      cases hw : w.getLsbD 16 with
      | true => rfl
      | false =>
          rw [Bool.false_or, Bool.false_or, Bool.eq_iff_iff, any_carries_iff, any_carries_iff]
          exact hcarry (by omega) hw
    · rw [getLsbD_foldl_withHigh _ _ (by omega) (by omega),
        getLsbD_foldl_withHigh _ _ (by omega) (by omega)]

/-- Between base 0 and a power of two one bit of the byte flips. -/
theorem exists_bases_of_flip {f : Word → Word} {i k : ℕ} (hzero : usable 0#32)
    (hpow : usable (BitVec.twoPow 32 k)) (hlo : 8 * (3 - j) ≤ i) (hhi : i < 8 * (3 - j) + 8)
    (hflip : (f (BitVec.twoPow 32 k)).getLsbD i = !(f 0#32).getLsbD i) :
    ∃ base base', usable base ∧ usable base' ∧ wordByte (f base) j ≠ wordByte (f base') j := by
  refine ⟨_, _, hpow, hzero, wordByte_ne_of_getLsbD_ne hlo hhi ?_⟩
  rw [hflip]
  simp

/-- A byte of a HI16 that moves: the last address decides about the lower
two, the carries about the one above. -/
theorem exists_wordByte_foldl_withHigh_ne {as : List Word} {w : Word}
    (hmoves : as ≠ [] ∧ 2 ≤ j ∨
      j = 1 ∧ w.getLsbD 16 = false ∧ ∃ base base', usable base ∧ usable base' ∧
        CarriesOut as base ∧ ¬ CarriesOut as base')
    (hj : j < 4) (hzero : usable 0#32)
    (hpow : ∀ k, 4 ≤ k → k ≤ 28 → usable (BitVec.twoPow 32 k)) :
    ∃ base base', usable base ∧ usable base' ∧
      wordByte ((as.map (· + base)).foldl (fun w a => withHigh a w) w) j ≠
        wordByte ((as.map (· + base')).foldl (fun w a => withHigh a w) w) j := by
  rcases hmoves with ⟨hne, hlow⟩ | ⟨rfl, hbit, base, base', hbase, hbase', hout, hnot⟩
  · obtain ⟨as, a, rfl⟩ : ∃ bs a, as = bs ++ [a] :=
      ⟨_, _, (List.dropLast_append_getLast hne).symm⟩
    have hword (d : Word) {i : ℕ} (hi : i < 16) :
        ((((as ++ [a]).map (· + d)).foldl (fun w a => withHigh a w) w).getLsbD i) =
          (a + 0x8000#32 + d).getLsbD (16 + i) := by
      rw [List.map_append, List.map_singleton, ← getLsbD_immediate _ hi,
        immediate_foldl_withHigh, getLsbD_highHalf _ hi, BitVec.add_assoc,
        BitVec.add_comm d, ← BitVec.add_assoc]
    refine exists_bases_of_flip (i := 8 * (3 - j) + 4) (k := 16 + (8 * (3 - j) + 4)) hzero
      (hpow _ (by omega) (by omega)) (by omega) (by omega) ?_
    rw [hword _ (by omega), hword _ (by omega), LowMask.getLsbD_add_twoPow _ (by omega),
      BitVec.add_zero]
  · refine ⟨base, base', hbase, hbase',
      wordByte_ne_of_getLsbD_ne (i := 16) (by decide) (by decide) ?_⟩
    rw [getLsbD_foldl_withHigh_16, getLsbD_foldl_withHigh_16, hbit, Bool.false_or,
      Bool.false_or, (any_carries_iff _ _).mpr hout, ne_comm,
      Bool.eq_false_iff.mpr (mt (any_carries_iff _ _).mp hnot)]
    decide

theorem relocated_eq_some_of_target {a : Word} {s : OvlSection}
    (hs : getTargetSection g a = some s) : relocated g a = some (a + g.delta s) := by
  rw [relocated, hs]
  rfl

/-- The other bytes are the same at any two bases. -/
theorem wordByte_finalWord_eq {base base' : Word} (hmoves : ¬ Moves g m usable pre post e j)
    (hj : j < 4) (hbase : usable base) (hbase' : usable base') :
    wordByte (finalWord g m pre post e base) j = wordByte (finalWord g m pre post e base') j := by
  rw [Moves] at hmoves
  rw [finalWord, finalWord]
  cases hjt : novlRelocJt e.type with
  | none => rfl
  | some handler =>
      simp only [hjt] at hmoves ⊢
      cases handler with
      | mips32 =>
          have hnone : relocated g (entryWord g m e) = none := by
            rw [resolves] at hmoves
            simpa [hjt, relocated] using hmoves
          simp only [hnone]
      | mips26 =>
          have hnot : getTargetSection g (jumpTarget (entryWord g m e)) ≠ some .text := by
            rw [resolves] at hmoves
            simpa [hjt] using hmoves
          simp only [if_neg hnot]
      | lo16 =>
          simp only at hmoves ⊢
          rw [resolves] at hmoves
          simp only [hjt] at hmoves
          cases hlast : lastHi g m (loReg (entryWord g m e)) pre with
          | none => rfl
          | some h =>
              simp only [hlast] at hmoves ⊢
              cases ha : relocated g (pairAddress (entryWord g m h) (entryWord g m e)) with
              | none => rfl
              | some a =>
                  have hsome : (getTargetSection g
                      (pairAddress (entryWord g m h) (entryWord g m e))).isSome = true := by
                    rw [relocated, Option.map_eq_some_iff] at ha
                    obtain ⟨s, hs, -⟩ := ha
                    rw [hs]
                    rfl
                  -- Only the low half of a LO16 word is rewritten.
                  have hhigh : j < 2 := not_le.mp fun hle => hmoves ⟨hsome, hle⟩
                  apply wordByte_eq_of_getLsbD_eq
                  intro i hi hi'
                  rw [getLsbD_withLow _ _ (by omega), getLsbD_withLow _ _ (by omega),
                    if_neg (by omega), if_neg (by omega)]
      | hi16 =>
          refine wordByte_foldl_withHigh_eq (fun hle => ?_) (fun hone hbit => ?_) hj
          · by_contra hne
            exact hmoves (Or.inl ⟨hne, hle⟩)
          · constructor
            · intro hout
              by_contra hnot
              exact hmoves (Or.inr ⟨hone, hbit, base, base', hbase, hbase', hout, hnot⟩)
            · intro hout
              by_contra hnot
              exact hmoves (Or.inr ⟨hone, hbit, base', base, hbase', hbase, hout, hnot⟩)

/-- A byte that moves does so at suitable bases. -/
theorem exists_wordByte_finalWord_ne (hmoves : Moves g m usable pre post e j) (hj : j < 4)
    (hzero : usable 0#32)
    (hpow : ∀ k, 4 ≤ k → k ≤ 28 → usable (BitVec.twoPow 32 k)) :
    ∃ base base', usable base ∧ usable base' ∧
      wordByte (finalWord g m pre post e base) j ≠
        wordByte (finalWord g m pre post e base') j := by
  have hres := resolves_of_moves hmoves
  rw [resolves] at hres
  rw [Moves] at hmoves
  simp only [finalWord]
  cases hjt : novlRelocJt e.type with
  | none =>
      rw [hjt] at hres
      cases hres
  | some handler =>
      simp only [hjt] at hmoves hres ⊢
      cases handler with
      | mips32 =>
          obtain ⟨s, hs⟩ := Option.isSome_iff_exists.mp hres
          simp only [relocated_eq_some_of_target hs]
          refine exists_bases_of_flip (i := 8 * (3 - j) + 4) (k := 8 * (3 - j) + 4) hzero
            (hpow _ (by omega) (by omega)) (by omega) (by omega) ?_
          rw [LowMask.getLsbD_add_twoPow _ (by omega), BitVec.add_zero]
      | mips26 =>
          simp only [of_decide_eq_true hres, if_true]
          -- The field ends inside the first byte.
          obtain ⟨i, hlo, hhi, hfield⟩ :
              ∃ i, 8 * (3 - j) ≤ i ∧ i < 8 * (3 - j) + 8 ∧ 2 ≤ i ∧ i < 26 :=
            if hzero : j = 0 then ⟨24, by omega, by omega, by omega, by omega⟩
            else ⟨8 * (3 - j) + 4, by omega, by omega, by omega, by omega⟩
          refine exists_bases_of_flip (i := i) (k := 2 + i) hzero
            (hpow _ (by omega) (by omega)) hlo hhi ?_
          rw [getLsbD_withJumpTarget _ _ hfield.2, getLsbD_withJumpTarget _ _ hfield.2,
            LowMask.getLsbD_add_twoPow _ (by omega), BitVec.add_zero]
      | lo16 =>
          simp only at hmoves hres ⊢
          cases hlast : lastHi g m (loReg (entryWord g m e)) pre with
          | none =>
              rw [hlast] at hres
              cases hres
          | some h =>
              simp only [hlast] at hres ⊢
              obtain ⟨s, hs⟩ := Option.isSome_iff_exists.mp hres
              simp only [relocated_eq_some_of_target hs]
              have hlow := hmoves.2
              refine exists_bases_of_flip (i := 8 * (3 - j) + 4) (k := 8 * (3 - j) + 4) hzero
                (hpow _ (by omega) (by omega)) (by omega) (by omega) ?_
              rw [getLsbD_withLow _ _ (by omega), getLsbD_withLow _ _ (by omega),
                if_pos (by omega), if_pos (by omega), LowMask.getLsbD_add_twoPow _ (by omega),
                BitVec.add_zero]
      | hi16 =>
          exact exists_wordByte_foldl_withHigh_ne hmoves hj hzero hpow

end Bytes

end Novl
