import Mathlib.Data.List.Basic

/-!
Loops that say what they do.

Each turn says something, whether it goes on or not; a loop says what its
turns say, up to the turn that stops it. What is said is told apart from
what is computed, so a loop can be observed without being written again.
-/

namespace LoggedRun

variable {σ α μ : Type}

/-- What the turns of a loop say. -/
def runLog (f : σ → α → Option σ) (log : σ → α → List μ) (s : σ) : List α → List μ
  | [] => []
  | x :: xs =>
    log s x ++ match f s x with
      | none => []
      | some t => runLog f log t xs

/-- A loop says what a turn says in the state that the turns before it have
left. -/
theorem mem_runLog_iff {f : σ → α → Option σ} {log : σ → α → List μ} {s : σ} {xs : List α}
    {m : μ} :
    m ∈ runLog f log s xs ↔
      ∃ pre x post t, xs = pre ++ x :: post ∧ pre.foldlM f s = some t ∧ m ∈ log t x := by
  induction xs generalizing s with
  | nil => simp [runLog]
  | cons x xs ih =>
      rw [runLog, List.mem_append]
      constructor
      · rintro (hm | hm)
        · exact ⟨[], x, xs, s, rfl, rfl, hm⟩
        · cases hstep : f s x with
          | none =>
              rw [hstep] at hm
              cases hm
          | some s₁ =>
              rw [hstep] at hm
              obtain ⟨pre, y, post, t, rfl, hpre, hy⟩ := ih.mp hm
              exact ⟨x :: pre, y, post, t, rfl, by rw [List.foldlM_cons, hstep]; exact hpre, hy⟩
      · rintro ⟨pre, y, post, t, hsplit, hpre, hy⟩
        cases pre with
        | nil =>
            obtain ⟨rfl, rfl⟩ := List.cons.inj hsplit
            obtain rfl := Option.some.inj hpre
            exact Or.inl hy
        | cons x' pre =>
            obtain ⟨rfl, rfl⟩ := List.cons.inj hsplit
            rw [List.foldlM_cons] at hpre
            obtain ⟨s₁, hstep, hrest⟩ := Option.bind_eq_some_iff.mp hpre
            rw [hstep]
            exact Or.inr (ih.mpr ⟨pre, y, post, t, rfl, hrest, hy⟩)

/-! ### Loops with errors -/

theorem foldlM_toOption {ε : Type} {f : σ → α → Except ε σ} {s t : σ} {xs : List α} :
    xs.foldlM (fun s x => (f s x).toOption) s = some t ↔ xs.foldlM f s = .ok t := by
  induction xs generalizing s with
  | nil =>
      exact ⟨fun h => congrArg Except.ok (Option.some.inj h), fun h => by cases h; rfl⟩
  | cons x xs ih =>
      rw [List.foldlM_cons, List.foldlM_cons]
      cases f s x with
      | error e => exact ⟨fun h => (by cases h), fun h => (by cases h)⟩
      | ok s₁ => exact ih

end LoggedRun
