import Mathlib.Data.List.Basic
import Mathlib.Logic.Function.Basic
import Mathlib.Tactic

/-!
Byte-addressed memory with big-endian words.

A memory is a function from positions to bytes; bounds are the business
of whoever owns the memory. A word occupies four bytes, most significant
byte first. What matters about a word store is said twice: at the word
itself it shows the stored value, and everywhere apart from it the memory
is as before.

`Patch` packages a read-modify-write of one word. A list of patches is
the abstract form of a pass that rewrites an image in place: when any two
positions of the list are equal or apart, each word of the result depends
only on the patches made at that word, in their order.
-/

namespace ByteMemory

abbrev Memory := ℕ → BitVec 8

/-- The `k`-th byte of a word, counted from the most significant one. -/
def wordByte (w : BitVec 32) (k : ℕ) : BitVec 8 :=
  w.extractLsb' (8 * (3 - k)) 8

/-- The big-endian word at position `i`. -/
def loadWord (m : Memory) (i : ℕ) : BitVec 32 :=
  m i ++ m (i + 1) ++ m (i + 2) ++ m (i + 3)

/-- Memory after writing the big-endian word `w` at position `i`. -/
def storeWord (m : Memory) (i : ℕ) (w : BitVec 32) : Memory :=
  fun a => if i ≤ a ∧ a < i + 4 then wordByte w (a - i) else m a

/-- Two word positions whose four bytes do not meet. -/
def Apart (i j : ℕ) : Prop := i + 4 ≤ j ∨ j + 4 ≤ i

instance (i j : ℕ) : Decidable (Apart i j) := by
  unfold Apart
  infer_instance

theorem Apart.symm {i j : ℕ} (h : Apart i j) : Apart j i := Or.symm h

theorem Apart.ne {i j : ℕ} (h : Apart i j) : i ≠ j := by
  rcases h with h | h <;> omega

/-- Two words that read the same bytes are equal. -/
theorem eq_of_wordByte_eq {v w : BitVec 32}
    (h : ∀ k < 4, wordByte v k = wordByte w k) : v = w := by
  apply BitVec.eq_of_getLsbD_eq
  intro i hi
  have hk := congrArg (fun b => b.getLsbD (i % 8)) (h (3 - i / 8) (by omega))
  have hpos : 8 * (3 - (3 - i / 8)) + i % 8 = i := by omega
  have hlt : i % 8 < 8 := Nat.mod_lt _ (by decide)
  simpa [wordByte, BitVec.getLsbD_extractLsb', hlt, hpos] using hk

theorem wordByte_loadWord (m : Memory) (i : ℕ) {k : ℕ} (hk : k < 4) :
    wordByte (loadWord m i) k = m (i + k) := by
  apply BitVec.eq_of_getLsbD_eq
  intro j hj
  have hcases : k = 0 ∨ k = 1 ∨ k = 2 ∨ k = 3 := by omega
  rcases hcases with rfl | rfl | rfl | rfl <;>
    simp (disch := omega) only [wordByte, loadWord, BitVec.getLsbD_extractLsb',
      BitVec.getLsbD_append, hj, decide_true, Bool.true_and, if_pos, if_neg] <;>
    exact congrArg _ (by omega)

/-! ### Bits of a byte -/

theorem getLsbD_wordByte (w : BitVec 32) (k : ℕ) {i : ℕ} (hi : i < 8) :
    (wordByte w k).getLsbD i = w.getLsbD (8 * (3 - k) + i) := by
  rw [wordByte, BitVec.getLsbD_extractLsb', decide_eq_true hi, Bool.true_and]

theorem wordByte_ne_of_getLsbD_ne {v w : BitVec 32} {k i : ℕ} (hlo : 8 * (3 - k) ≤ i)
    (hhi : i < 8 * (3 - k) + 8) (hne : v.getLsbD i ≠ w.getLsbD i) :
    wordByte v k ≠ wordByte w k := by
  intro heq
  have hbit := congrArg (fun b => b.getLsbD (i - 8 * (3 - k))) heq
  simp only [getLsbD_wordByte _ _ (show i - 8 * (3 - k) < 8 by omega),
    Nat.add_sub_cancel' hlo] at hbit
  exact hne hbit

theorem wordByte_eq_of_getLsbD_eq {v w : BitVec 32} {k : ℕ}
    (h : ∀ i, 8 * (3 - k) ≤ i → i < 8 * (3 - k) + 8 → v.getLsbD i = w.getLsbD i) :
    wordByte v k = wordByte w k := by
  apply BitVec.eq_of_getLsbD_eq
  intro i hi
  rw [getLsbD_wordByte v k hi, getLsbD_wordByte w k hi]
  exact h _ (by omega) (by omega)

theorem storeWord_inside (m : Memory) (w : BitVec 32) {i k : ℕ} (hk : k < 4) :
    storeWord m i w (i + k) = wordByte w k := by
  simp [storeWord, hk]

theorem storeWord_outside (m : Memory) (w : BitVec 32) {i a : ℕ}
    (h : a < i ∨ i + 4 ≤ a) : storeWord m i w a = m a := by
  rw [storeWord, if_neg (by omega)]

/-- A word is its four bytes, so agreeing memories hold equal words. -/
theorem loadWord_congr {m m' : Memory} {i : ℕ}
    (h : ∀ k < 4, m (i + k) = m' (i + k)) : loadWord m i = loadWord m' i := by
  apply eq_of_wordByte_eq
  intro k hk
  rw [wordByte_loadWord m i hk, wordByte_loadWord m' i hk, h k hk]

@[simp] theorem loadWord_storeWord_self (m : Memory) (i : ℕ) (w : BitVec 32) :
    loadWord (storeWord m i w) i = w := by
  apply eq_of_wordByte_eq
  intro k hk
  rw [wordByte_loadWord _ i hk, storeWord_inside m w hk]

/-- Storing the word that is there changes nothing. -/
theorem storeWord_loadWord (m : Memory) (i : ℕ) : storeWord m i (loadWord m i) = m := by
  funext a
  by_cases ha : i ≤ a ∧ a < i + 4
  · obtain ⟨k, rfl⟩ := Nat.exists_eq_add_of_le ha.1
    have hk : k < 4 := by omega
    rw [storeWord_inside m _ hk, wordByte_loadWord m i hk]
  · exact storeWord_outside m _ (by omega)

theorem loadWord_storeWord_apart (m : Memory) (w : BitVec 32) {i j : ℕ}
    (h : Apart i j) : loadWord (storeWord m i w) j = loadWord m j := by
  apply loadWord_congr
  intro k hk
  apply storeWord_outside
  rcases h with h | h <;> omega

/-! ### Patches -/

/-- A read-modify-write of the word at one position. -/
structure Patch where
  pos : ℕ
  edit : BitVec 32 → BitVec 32

/-- Memory after one patch. -/
def Patch.apply (p : Patch) (m : Memory) : Memory :=
  storeWord m p.pos (p.edit (loadWord m p.pos))

/-- Memory after a list of patches, applied from the left. -/
def applyPatches (m : Memory) (ps : List Patch) : Memory :=
  ps.foldl (fun m p => p.apply m) m

/-- What the patches of a list make of the word at position `i`. -/
def editsAt (ps : List Patch) (i : ℕ) (w : BitVec 32) : BitVec 32 :=
  (ps.filter (fun p => p.pos = i)).foldl (fun w p => p.edit w) w

@[simp] theorem applyPatches_nil (m : Memory) : applyPatches m [] = m := rfl

@[simp] theorem applyPatches_cons (m : Memory) (p : Patch) (ps : List Patch) :
    applyPatches m (p :: ps) = applyPatches (p.apply m) ps := rfl

theorem applyPatches_append (m : Memory) (ps qs : List Patch) :
    applyPatches m (ps ++ qs) = applyPatches (applyPatches m ps) qs :=
  List.foldl_append

@[simp] theorem editsAt_nil (i : ℕ) (w : BitVec 32) : editsAt [] i w = w := rfl

theorem editsAt_cons_self (p : Patch) (ps : List Patch) (w : BitVec 32) :
    editsAt (p :: ps) p.pos w = editsAt ps p.pos (p.edit w) := by
  simp [editsAt]

theorem editsAt_cons_of_ne {p : Patch} {i : ℕ} (h : p.pos ≠ i) (ps : List Patch)
    (w : BitVec 32) : editsAt (p :: ps) i w = editsAt ps i w := by
  simp [editsAt, h]

theorem editsAt_append (ps qs : List Patch) (i : ℕ) (w : BitVec 32) :
    editsAt (ps ++ qs) i w = editsAt qs i (editsAt ps i w) := by
  simp [editsAt, List.filter_append, List.foldl_append]

theorem editsAt_of_forall_ne {ps : List Patch} {i : ℕ}
    (h : ∀ p ∈ ps, p.pos ≠ i) (w : BitVec 32) : editsAt ps i w = w := by
  have hnil : ps.filter (fun p => p.pos = i) = [] := by
    simpa [List.filter_eq_nil_iff] using h
  rw [editsAt, hnil]
  rfl

/-- A byte outside every patched word is left alone. -/
theorem applyPatches_outside (m : Memory) {ps : List Patch} {a : ℕ}
    (h : ∀ p ∈ ps, a < p.pos ∨ p.pos + 4 ≤ a) : applyPatches m ps a = m a := by
  induction ps generalizing m with
  | nil => rfl
  | cons p ps ih =>
      rw [applyPatches_cons, ih _ (fun q hq => h q (List.mem_cons_of_mem _ hq))]
      exact storeWord_outside m _ (h p List.mem_cons_self)

/-- A word whose position is equal to or apart from every patched one
sees exactly the patches made at its own position. -/
theorem loadWord_applyPatches (m : Memory) {ps : List Patch} {i : ℕ}
    (h : ∀ p ∈ ps, p.pos = i ∨ Apart p.pos i) :
    loadWord (applyPatches m ps) i = editsAt ps i (loadWord m i) := by
  induction ps generalizing m with
  | nil => rfl
  | cons p ps ih =>
      rw [applyPatches_cons, ih _ (fun q hq => h q (List.mem_cons_of_mem _ hq))]
      rcases h p List.mem_cons_self with rfl | hp
      · rw [editsAt_cons_self, Patch.apply, loadWord_storeWord_self]
      · rw [editsAt_cons_of_ne hp.ne, Patch.apply, loadWord_storeWord_apart _ _ hp]

/-- The word at a position apart from every patched one is unchanged. -/
theorem loadWord_applyPatches_apart (m : Memory) {ps : List Patch} {i : ℕ}
    (h : ∀ p ∈ ps, Apart p.pos i) :
    loadWord (applyPatches m ps) i = loadWord m i := by
  rw [loadWord_applyPatches m (fun p hp => Or.inr (h p hp)),
    editsAt_of_forall_ne (fun p hp => (h p hp).ne)]

/-! ### Patches of different words -/

theorem storeWord_comm (m : Memory) (v w : BitVec 32) {i j : ℕ} (h : Apart i j) :
    storeWord (storeWord m i v) j w = storeWord (storeWord m j w) i v := by
  funext a
  by_cases hi : i ≤ a ∧ a < i + 4
  · have hj : ¬ (j ≤ a ∧ a < j + 4) := by
      rcases h with h | h <;> omega
    simp only [storeWord, if_pos hi, if_neg hj]
  · simp only [storeWord, if_neg hi]

theorem Patch.apply_comm (m : Memory) {p q : Patch} (h : Apart p.pos q.pos) :
    q.apply (p.apply m) = p.apply (q.apply m) := by
  simp only [Patch.apply, loadWord_storeWord_apart _ _ h, loadWord_storeWord_apart _ _ h.symm]
  exact storeWord_comm m _ _ h

theorem applyPatches_apply_comm (m : Memory) {p : Patch} {qs : List Patch}
    (h : ∀ q ∈ qs, Apart p.pos q.pos) :
    applyPatches (p.apply m) qs = p.apply (applyPatches m qs) := by
  induction qs generalizing m with
  | nil => rfl
  | cons q qs ih =>
      rw [applyPatches_cons, applyPatches_cons, Patch.apply_comm m (h q List.mem_cons_self),
        ih _ fun r hr => h r (List.mem_cons_of_mem _ hr)]

/-- Patches of different words commute. -/
theorem applyPatches_comm (m : Memory) {ps qs : List Patch}
    (h : ∀ p ∈ ps, ∀ q ∈ qs, Apart p.pos q.pos) :
    applyPatches (applyPatches m ps) qs = applyPatches (applyPatches m qs) ps := by
  induction ps generalizing m with
  | nil => rfl
  | cons p ps ih =>
      rw [applyPatches_cons, applyPatches_cons, ih _ fun r hr => h r (List.mem_cons_of_mem _ hr),
        applyPatches_apply_comm m (h p List.mem_cons_self)]

/-- Groups of patches may be applied in any order when no two groups meet
in a word. -/
theorem applyPatches_flatMap_perm {β : Type*} (m : Memory) {f : β → List Patch}
    {bs cs : List β} (hperm : bs.Perm cs)
    (hgroups : bs.Pairwise fun b c => ∀ p ∈ f b, ∀ q ∈ f c, Apart p.pos q.pos) :
    applyPatches m (bs.flatMap f) = applyPatches m (cs.flatMap f) := by
  induction hperm generalizing m with
  | nil => rfl
  | cons b _ ih =>
      rw [List.flatMap_cons, List.flatMap_cons, applyPatches_append, applyPatches_append,
        ih _ (List.pairwise_cons.mp hgroups).2]
  | swap b c rest =>
      have hcb := (List.pairwise_cons.mp hgroups).1 b List.mem_cons_self
      simp only [List.flatMap_cons, applyPatches_append]
      rw [applyPatches_comm m hcb]
  | trans hbc _ ih₁ ih₂ =>
      have hgroups' := (hbc.pairwise_iff fun h p hp q hq => (h q hq p hp).symm).mp hgroups
      exact (ih₁ m hgroups).trans (ih₂ m hgroups')

end ByteMemory
