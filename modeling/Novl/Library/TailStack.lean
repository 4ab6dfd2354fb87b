import Mathlib.Data.List.Count
import Mathlib.Data.List.Infix
import Mathlib.Tactic

/-!
A list that grows and shrinks at its tail.

`push` appends an element, `pop` removes whatever stands last, `skip`
does nothing. The question the lemmas answer is which elements are still
there at the end. An element pushed at some moment goes exactly when the
events after it take away more than they add, counted up to some later
moment; `Covered` says that this never happens.
-/

namespace TailStack

variable {α : Type*}

inductive Event (α : Type*)
  | push (a : α)
  | pop
  | skip
  deriving DecidableEq

/-- The list after one event. -/
def step (s : List α) : Event α → List α
  | .push a => s ++ [a]
  | .pop => s.dropLast
  | .skip => s

/-- The list after a sequence of events. -/
def run (s : List α) (es : List (Event α)) : List α := es.foldl step s

/-- The number of elements the events add. -/
def pushes : List (Event α) → ℕ
  | [] => 0
  | .push _ :: es => pushes es + 1
  | .pop :: es | .skip :: es => pushes es

/-- The number of elements the events take away. -/
def pops : List (Event α) → ℕ
  | [] => 0
  | .pop :: es => pops es + 1
  | .push _ :: es | .skip :: es => pops es

/-- How much the events lengthen the list, if they never meet its end. -/
def net (es : List (Event α)) : ℤ := pushes es - pops es

/-- At no moment do the events need more than `n` elements from below. -/
def CoveredBy (n : ℕ) (es : List (Event α)) : Prop :=
  ∀ p, p <+: es → pops p ≤ n + pushes p

/-- The events only ever take away what they added themselves. -/
abbrev Covered (es : List (Event α)) : Prop := CoveredBy 0 es

@[simp] theorem run_cons (s : List α) (e : Event α) (es : List (Event α)) :
    run s (e :: es) = run (step s e) es := rfl

theorem run_append (s : List α) (es fs : List (Event α)) :
    run s (es ++ fs) = run (run s es) fs := List.foldl_append

@[simp] theorem net_nil : net ([] : List (Event α)) = 0 := rfl

@[simp] theorem net_push (a : α) (es : List (Event α)) : net (.push a :: es) = net es + 1 := by
  simp only [net, pushes, pops]
  omega

@[simp] theorem net_pop (es : List (Event α)) : net (.pop :: es) = net es - 1 := by
  simp only [net, pushes, pops]
  omega

@[simp] theorem net_skip (es : List (Event α)) : net (.skip :: es) = net es := rfl

theorem net_append (es fs : List (Event α)) : net (es ++ fs) = net es + net fs := by
  induction es with
  | nil => simp
  | cons e es ih =>
      cases e <;> simp only [List.cons_append, net_push, net_pop, net_skip, ih] <;> omega

theorem net_le_length (es : List (Event α)) : net es ≤ es.length := by
  induction es with
  | nil => simp
  | cons e es ih =>
      cases e <;> simp only [net_push, net_pop, net_skip, List.length_cons] <;> omega

theorem coveredBy_nil (n : ℕ) : CoveredBy n ([] : List (Event α)) := by
  intro p hp
  rw [List.prefix_nil.mp hp]
  exact Nat.zero_le _

/-- Of a list with a first event only the prefixes that have it count. -/
theorem coveredBy_cons {n : ℕ} {e : Event α} {es : List (Event α)} :
    CoveredBy n (e :: es) ↔ ∀ p, p <+: es → pops (e :: p) ≤ n + pushes (e :: p) := by
  constructor
  · intro h p hp
    exact h (e :: p) ((List.prefix_cons_inj _).mpr hp)
  · intro h p hp
    rcases List.prefix_cons_iff.mp hp with rfl | ⟨q, rfl, hq⟩
    · exact Nat.zero_le _
    · exact h q hq

theorem coveredBy_push {n : ℕ} {a : α} {es : List (Event α)} :
    CoveredBy n (.push a :: es) ↔ CoveredBy (n + 1) es := by
  rw [coveredBy_cons, CoveredBy]
  refine forall₂_congr fun p _ => ?_
  simp only [pops, pushes]
  omega

theorem coveredBy_skip {n : ℕ} {es : List (Event α)} :
    CoveredBy n (.skip :: es) ↔ CoveredBy n es :=
  coveredBy_cons

theorem coveredBy_pop_succ {n : ℕ} {es : List (Event α)} :
    CoveredBy (n + 1) (.pop :: es) ↔ CoveredBy n es := by
  rw [coveredBy_cons, CoveredBy]
  refine forall₂_congr fun p _ => ?_
  simp only [pops, pushes]
  omega

theorem not_coveredBy_zero_pop (es : List (Event α)) : ¬ CoveredBy 0 (.pop :: es) := by
  intro h
  have hpop := coveredBy_cons.mp h [] List.nil_prefix
  simp [pops, pushes] at hpop

/-- What lies below the elements the events draw on is out of reach. -/
theorem run_append_of_coveredBy (s t : List α) (es : List (Event α))
    (h : CoveredBy t.length es) : run (s ++ t) es = s ++ run t es := by
  induction es generalizing t with
  | nil => rfl
  | cons e es ih =>
      cases e with
      | push a =>
          have h' : CoveredBy (t ++ [a]).length es := by
            simpa using coveredBy_push.mp h
          rw [run_cons, run_cons, step, step, List.append_assoc, ih _ h']
      | skip => exact ih t (coveredBy_skip.mp h)
      | pop =>
          rcases List.eq_nil_or_concat t with rfl | ⟨t, a, rfl⟩
          · exact absurd h (not_coveredBy_zero_pop es)
          · have h' : CoveredBy t.length es := by
              rw [List.concat_eq_append, List.length_append, List.length_singleton] at h
              exact coveredBy_pop_succ.mp h
            rw [List.concat_eq_append, run_cons, run_cons, step, step, ← List.append_assoc,
              List.dropLast_concat, List.dropLast_concat, ih t h']

theorem mem_run {s : List α} {es : List (Event α)} {a : α} (h : a ∈ run s es) :
    a ∈ s ∨ .push a ∈ es := by
  induction es generalizing s with
  | nil => exact Or.inl h
  | cons e es ih =>
      rcases ih h with hs | hes
      · cases e with
        | push b =>
            rcases List.mem_append.mp hs with hs | hb
            · exact Or.inl hs
            · rw [List.mem_singleton.mp hb]
              exact Or.inr List.mem_cons_self
        | pop => exact Or.inl (List.dropLast_subset s hs)
        | skip => exact Or.inl hs
      · exact Or.inr (List.mem_cons_of_mem _ hes)

/-- Events that reach below `t` pass a moment at which just `s` is left. -/
theorem exists_run_eq_of_not_coveredBy (s t : List α) {es : List (Event α)} {a : α}
    (h : ¬ CoveredBy t.length es) :
    ∃ fs, fs <:+ es ∧ run (s ++ a :: t) es = run s fs := by
  induction es generalizing t with
  | nil => exact absurd (coveredBy_nil _) h
  | cons e es ih =>
      have hextend : (∃ fs, fs <:+ es ∧ run (step (s ++ a :: t) e) es = run s fs) →
          ∃ fs, fs <:+ e :: es ∧ run (s ++ a :: t) (e :: es) = run s fs := by
        rintro ⟨fs, hfs, hrun⟩
        exact ⟨fs, hfs.trans (List.suffix_cons e es), hrun⟩
      apply hextend
      -- `t` holds what was pushed on top of `a` so far.
      cases e with
      | push b =>
          have h' : ¬ CoveredBy (t ++ [b]).length es := by
            simpa [coveredBy_push] using h
          simpa [step] using ih _ h'
      | skip => exact ih t (fun hc => h (coveredBy_skip.mpr hc))
      | pop =>
          rcases List.eq_nil_or_concat t with rfl | ⟨t, b, rfl⟩
          · exact ⟨es, List.suffix_refl es, by simp [step]⟩
          · have h' : ¬ CoveredBy t.length es := by
              intro hc
              apply h
              rw [List.concat_eq_append, List.length_append, List.length_singleton]
              exact coveredBy_pop_succ.mpr hc
            have hstep : step (s ++ a :: t.concat b) .pop = s ++ a :: t := by
              rw [step, List.concat_eq_append, ← List.cons_append, ← List.append_assoc,
                List.dropLast_concat]
            rw [hstep]
            exact ih t h'

/-- What was there at some moment is still there, and has been since,
exactly when the events since then take away only what came on top. -/
theorem forall_prefix_run_iff {s t : List α} {es : List (Event α)} (hs : s ≠ []) :
    (∀ p, p <+: es → s <+: run (s ++ t) p) ↔ CoveredBy t.length es := by
  induction es generalizing t with
  | nil =>
      refine iff_of_true (fun p hp => ?_) (coveredBy_nil _)
      rw [List.prefix_nil.mp hp]
      exact List.prefix_append s t
  | cons e es ih =>
      have hstep : (∀ p, p <+: e :: es → s <+: run (s ++ t) p) ↔
          ∀ p, p <+: es → s <+: run (step (s ++ t) e) p := by
        constructor
        · intro h p hp
          exact h (e :: p) ((List.prefix_cons_inj _).mpr hp)
        · intro h p hp
          rcases List.prefix_cons_iff.mp hp with rfl | ⟨q, rfl, hq⟩
          · exact List.prefix_append s t
          · exact h q hq
      rw [hstep]
      cases e with
      | push a =>
          rw [step, List.append_assoc, ih, coveredBy_push, List.length_append,
            List.length_singleton]
      | skip =>
          rw [step, ih, coveredBy_skip]
      | pop =>
          rcases List.eq_nil_or_concat t with rfl | ⟨t, a, rfl⟩
          · refine iff_of_false (fun h => ?_) (not_coveredBy_zero_pop es)
            -- The pop takes the last element of `s` itself.
            have hle := (h [] List.nil_prefix).length_le
            have hpos := List.length_pos_iff.mpr hs
            simp only [run, List.foldl_nil, step, List.append_nil, List.length_dropLast] at hle
            omega
          · rw [step, List.concat_eq_append, ← List.append_assoc, List.dropLast_concat, ih,
              List.length_append, List.length_singleton, coveredBy_pop_succ]

/-- An element that is pushed once is in the final list exactly when the
events after its push are covered. -/
theorem mem_run_iff_covered {s : List α} {pre post : List (Event α)} {a : α}
    (hs : a ∉ s) (hpre : .push a ∉ pre) (hpost : .push a ∉ post) :
    a ∈ run s (pre ++ .push a :: post) ↔ Covered post := by
  have hbefore : a ∉ run s pre := fun h => (mem_run h).elim hs hpre
  rw [run_append, run_cons, step]
  constructor
  · intro hmem
    by_contra hnot
    obtain ⟨fs, hfs, hrun⟩ :=
      exists_run_eq_of_not_coveredBy (run s pre) [] (a := a) hnot
    rw [hrun] at hmem
    exact (mem_run hmem).elim hbefore (fun h => hpost (hfs.subset h))
  · intro hcov
    have hrun := run_append_of_coveredBy (run s pre ++ [a]) [] post hcov
    rw [List.append_nil] at hrun
    rw [hrun]
    exact List.mem_append_left _ (List.mem_append_right _ List.mem_cons_self)

/-- Then it is in the final list just once. -/
theorem count_run_eq_one_iff [DecidableEq α] {s : List α} {pre post : List (Event α)} {a : α}
    (hs : a ∉ s) (hpre : .push a ∉ pre) (hpost : .push a ∉ post) :
    (run s (pre ++ .push a :: post)).count a = 1 ↔ Covered post := by
  constructor
  · intro hcount
    exact (mem_run_iff_covered hs hpre hpost).mp (List.count_pos_iff.mp (by omega))
  · intro hcov
    have hbefore : a ∉ run s pre := fun h => (mem_run h).elim hs hpre
    have hafter : a ∉ run [] post := fun h => (mem_run h).elim (by simp) hpost
    have hrun := run_append_of_coveredBy (run s pre ++ [a]) [] post hcov
    rw [List.append_nil] at hrun
    rw [run_append, run_cons, step, hrun, List.count_append, List.count_append,
      List.count_singleton_self, List.count_eq_zero.mpr hbefore, List.count_eq_zero.mpr hafter]

end TailStack
