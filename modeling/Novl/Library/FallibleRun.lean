import Mathlib.Data.List.Forall2
import Mathlib.Tactic

/-!
Programs that stop with an error, alone and side by side.

`EndAlike R` relates two runs that stop with the same error, or that both
come to an end with results `R` relates. It is kept by sequencing and by
loops over related lists, so two runs can be compared step by step.
-/

namespace FallibleRun

variable {ε α β : Type*}

/-- The stages of a run that came to its end. -/
theorem exists_of_bind_eq_ok {ε α β : Type} {x : Except ε α} {f : α → Except ε β} {b : β}
    (h : x >>= f = .ok b) : ∃ a, x = .ok a ∧ f a = .ok b := by
  cases x with
  | error e => cases h
  | ok a => exact ⟨a, rfl, h⟩

/-- The stage at which a run stopped. -/
theorem exists_of_bind_eq_error {ε α β : Type} {x : Except ε α} {f : α → Except ε β} {e : ε}
    (h : x >>= f = .error e) : x = .error e ∨ ∃ a, x = .ok a ∧ f a = .error e := by
  cases x with
  | error e' => exact Or.inl (congrArg _ (Except.error.inj h))
  | ok a => exact Or.inr ⟨a, rfl, h⟩

/-- A property of what a run computes, checked by running it. -/
theorem exists_ok_of_map {x : Except ε α} (p : α → Bool)
    (h : x.toOption.map p = some true) : ∃ a, x = .ok a ∧ p a = true := by
  cases x with
  | error e => cases h
  | ok a => exact ⟨a, rfl, Option.some.inj h⟩

/-- Loops over lists whose elements act alike. -/
theorem foldlM_congr {σ : Type} {m : Type → Type} [Monad m] {R : α → β → Prop} {f : σ → α → m σ}
    {g : σ → β → m σ} {xs : List α} {ys : List β} (hxs : List.Forall₂ R xs ys)
    (hstep : ∀ s x y, R x y → f s x = g s y) (s : σ) : xs.foldlM f s = ys.foldlM g s := by
  induction hxs generalizing s with
  | nil => rfl
  | cons hxy _ ih =>
      rw [List.foldlM_cons, List.foldlM_cons, hstep s _ _ hxy]
      exact congrArg _ (funext ih)

/-- What every step of a loop keeps holds at its end. -/
theorem foldlM_keeps {ε σ : Type} {P : σ → Prop} {f : σ → α → Except ε σ} {xs : List α}
    {s s' : σ} (hstep : ∀ s x s', P s → f s x = .ok s' → P s') (hs : P s)
    (hrun : xs.foldlM f s = .ok s') : P s' := by
  induction xs generalizing s with
  | nil =>
      cases hrun
      exact hs
  | cons x xs ih =>
      rw [List.foldlM_cons] at hrun
      obtain ⟨s₁, hfirst, hrest⟩ := exists_of_bind_eq_ok hrun
      exact ih (hstep s x s₁ hs hfirst) hrest

/-! ### Where a loop stops -/

/-- A loop stops with an error exactly when one of its turns does, in the
state that the turns before it have left. -/
theorem foldlM_eq_error_iff {ε σ : Type} {f : σ → α → Except ε σ} {xs : List α} {s : σ} {e : ε} :
    xs.foldlM f s = .error e ↔
      ∃ pre x post t, xs = pre ++ x :: post ∧ pre.foldlM f s = .ok t ∧ f t x = .error e := by
  induction xs generalizing s with
  | nil =>
      refine iff_of_false (fun h => by cases h) ?_
      rintro ⟨pre, x, post, t, hsplit, -⟩
      exact absurd hsplit (by simp)
  | cons x xs ih =>
      rw [List.foldlM_cons]
      constructor
      · intro hrun
        cases hstep : f s x with
        | error e' =>
            rw [hstep] at hrun
            cases hrun
            exact ⟨[], x, xs, s, rfl, rfl, hstep⟩
        | ok s₁ =>
            rw [hstep] at hrun
            obtain ⟨pre, y, post, t, rfl, hpre, hy⟩ := ih.mp hrun
            exact ⟨x :: pre, y, post, t, rfl, by rw [List.foldlM_cons, hstep]; exact hpre, hy⟩
      · rintro ⟨pre, y, post, t, hsplit, hpre, hy⟩
        cases pre with
        | nil =>
            obtain ⟨rfl, rfl⟩ := List.cons.inj hsplit
            cases hpre
            rw [hy]
            rfl
        | cons x' pre =>
            obtain ⟨rfl, rfl⟩ := List.cons.inj hsplit
            rw [List.foldlM_cons] at hpre
            obtain ⟨s₁, hstep, hrest⟩ := exists_of_bind_eq_ok hpre
            rw [hstep]
            exact ih.mpr ⟨pre, y, post, t, rfl, hrest, hy⟩

/-- A loop whose turns fail whatever the state. -/
theorem foldlM_eq_none_iff {σ : Type} {f : σ → α → Option σ} {bad : α → Prop}
    (hstep : ∀ s x, f s x = none ↔ bad x) {xs : List α} {s : σ} :
    xs.foldlM f s = none ↔ ∃ x ∈ xs, bad x := by
  induction xs generalizing s with
  | nil => exact iff_of_false (fun h => by cases h) (by simp)
  | cons x xs ih =>
      rw [List.foldlM_cons]
      cases hx : f s x with
      | none => exact iff_of_true rfl ⟨x, List.mem_cons_self, (hstep s x).mp hx⟩
      | some t =>
          have hgood : ¬ bad x := fun hbad => by
            rw [(hstep s x).mpr hbad] at hx
            cases hx
          change xs.foldlM f t = none ↔ _
          rw [ih, List.exists_mem_cons_iff, or_iff_right hgood]

/-- A flag that turns of a loop raise and never lower. -/
theorem foldlM_flag_iff {σ : Type} {f : σ → α → Option σ} (flag : σ → Bool)
    {raises : σ → α → Prop}
    (hstep : ∀ s x t, f s x = some t → (flag t = true ↔ flag s = true ∨ raises s x))
    {xs : List α} {s t : σ} (hrun : xs.foldlM f s = some t) :
    flag t = true ↔ flag s = true ∨
      ∃ pre x post u, xs = pre ++ x :: post ∧ pre.foldlM f s = some u ∧ raises u x := by
  induction xs generalizing s with
  | nil =>
      cases hrun
      simp
  | cons x xs ih =>
      rw [List.foldlM_cons] at hrun
      obtain ⟨s₁, hhead, htail⟩ := Option.bind_eq_some_iff.mp hrun
      rw [ih htail, hstep s x s₁ hhead, or_assoc]
      refine or_congr_right ⟨?_, ?_⟩
      · rintro (hraise | ⟨pre, y, post, u, rfl, hpre, hy⟩)
        · exact ⟨[], x, xs, s, rfl, rfl, hraise⟩
        · exact ⟨x :: pre, y, post, u, rfl, by rw [List.foldlM_cons, hhead]; exact hpre, hy⟩
      · rintro ⟨pre, y, post, u, hsplit, hpre, hy⟩
        cases pre with
        | nil =>
            obtain ⟨rfl, rfl⟩ := List.cons.inj hsplit
            cases hpre
            exact Or.inl hy
        | cons x' pre =>
            obtain ⟨rfl, rfl⟩ := List.cons.inj hsplit
            rw [List.foldlM_cons] at hpre
            obtain ⟨s₂, hhead', hrest⟩ := Option.bind_eq_some_iff.mp hpre
            obtain rfl := Option.some.inj (hhead'.symm.trans hhead)
            exact Or.inr ⟨pre, y, post, u, rfl, hrest, hy⟩

/-! ### Maps that may fail -/

theorem mapM_eq_some_map {α β : Type} {f : α → Option β} {h : α → β} {l : List α}
    (hf : ∀ x ∈ l, f x = some (h x)) : l.mapM f = some (l.map h) := by
  induction l with
  | nil => rfl
  | cons x l ih =>
      rw [List.mapM_cons, hf x List.mem_cons_self,
        ih fun y hy => hf y (List.mem_cons_of_mem _ hy)]
      rfl

theorem mapM_eq_none {α β : Type} {f : α → Option β} {l : List α} {x : α} (hx : x ∈ l)
    (hf : f x = none) : l.mapM f = none := by
  induction l with
  | nil => cases hx
  | cons y l ih =>
      rw [List.mapM_cons]
      rcases List.mem_cons.mp hx with rfl | hx
      · rw [hf]
        rfl
      · rw [ih hx]
        cases f y <;> rfl

theorem mapM_eq_some_of_forall {α β : Type} {f : α → Option β} {R : α → β → Prop} {l : List α}
    (hf : ∀ x ∈ l, ∃ y, f x = some y ∧ R x y) :
    ∃ ys, l.mapM f = some ys ∧ List.Forall₂ R l ys := by
  induction l with
  | nil => exact ⟨[], rfl, .nil⟩
  | cons x l ih =>
      obtain ⟨⟨y, hy, hR⟩, hl⟩ := List.forall_mem_cons.mp hf
      obtain ⟨ys, hys, hall⟩ := ih hl
      refine ⟨y :: ys, ?_, .cons hR hall⟩
      rw [List.mapM_cons, hy, hys]
      rfl

/-- The map succeeds exactly when it does everywhere. -/
theorem mapM_ne_none_iff {α β : Type} {f : α → Option β} {l : List α} :
    l.mapM f ≠ none ↔ ∀ x ∈ l, f x ≠ none := by
  refine ⟨fun h x hx hnone => h (mapM_eq_none hx hnone), fun h => ?_⟩
  induction l with
  | nil => exact Option.some_ne_none []
  | cons x l ih =>
      obtain ⟨hx, hl⟩ := List.forall_mem_cons.mp h
      obtain ⟨y, hy⟩ := Option.ne_none_iff_exists'.mp hx
      obtain ⟨ys, hys⟩ := Option.ne_none_iff_exists'.mp (ih hl)
      rw [List.mapM_cons, hy, hys]
      exact Option.some_ne_none (y :: ys)

theorem mapM_eq_some_iff {α β : Type} {f : α → Option β} {xs : List α} {ys : List β} :
    xs.mapM f = some ys ↔ xs.map f = ys.map some := by
  induction xs generalizing ys with
  | nil =>
      rw [List.map_nil]
      exact ⟨fun h => by rw [← Option.some.inj h]; rfl, fun h => by cases ys <;> trivial⟩
  | cons x xs ih =>
      rw [List.mapM_cons, List.map_cons]
      constructor
      · intro h
        obtain ⟨z, hz, h⟩ := Option.bind_eq_some_iff.mp h
        obtain ⟨zs, hzs, h⟩ := Option.bind_eq_some_iff.mp h
        obtain rfl := Option.some.inj h
        rw [List.map_cons, hz, ih.mp hzs]
      · intro h
        cases ys with
        | nil => cases h
        | cons y ys =>
            obtain ⟨hy, hys⟩ := List.cons.inj h
            rw [hy, ih.mpr hys]
            rfl

theorem exists_of_mem_mapM {α β : Type} {f : α → Option β} {xs : List α} {ys : List β}
    (h : xs.mapM f = some ys) {y : β} (hy : y ∈ ys) : ∃ x ∈ xs, f x = some y := by
  have hmem : some y ∈ ys.map some := List.mem_map_of_mem hy
  rw [← mapM_eq_some_iff.mp h] at hmem
  exact List.mem_map.mp hmem

/-- Two maps with one result, which tells the argument of each. -/
theorem eq_of_mapM_eq {α β : Type} {f g : α → Option β}
    (hinj : ∀ x y z, f x = some z → g y = some z → x = y) {xs ys : List α} {zs : List β}
    (hf : xs.mapM f = some zs) (hg : ys.mapM g = some zs) : xs = ys := by
  rw [mapM_eq_some_iff] at hf hg
  induction zs generalizing xs ys with
  | nil => rw [List.map_eq_nil_iff.mp hf, List.map_eq_nil_iff.mp hg]
  | cons z zs ih =>
      obtain ⟨x, xs, rfl, hx, hxs⟩ := List.map_eq_cons_iff.mp hf
      obtain ⟨y, ys, rfl, hy, hys⟩ := List.map_eq_cons_iff.mp hg
      rw [hinj x y z hx hy, ih hxs hys]

/-! ### Two runs -/

inductive EndAlike (R : α → β → Prop) : Except ε α → Except ε β → Prop
  | ok {a : α} {b : β} (h : R a b) : EndAlike R (.ok a) (.ok b)
  | error (e : ε) : EndAlike R (.error e) (.error e)

theorem EndAlike.bind {ε α β γ δ : Type} {R : α → β → Prop} {S : γ → δ → Prop}
    {x : Except ε α} {y : Except ε β} {f : α → Except ε γ} {g : β → Except ε δ}
    (hxy : EndAlike R x y) (hfg : ∀ a b, R a b → EndAlike S (f a) (g b)) :
    EndAlike S (x >>= f) (y >>= g) := by
  cases hxy with
  | ok h => exact hfg _ _ h
  | error e => exact EndAlike.error e

/-- A loop whose body keeps the relation between the two states. -/
theorem EndAlike.foldlM {ε σ τ : Type} {R : σ → τ → Prop} {f : σ → α → Except ε σ}
    {g : τ → α → Except ε τ} {xs : List α}
    (hstep : ∀ x ∈ xs, ∀ s t, R s t → EndAlike R (f s x) (g t x)) {s : σ} {t : τ} (h : R s t) :
    EndAlike R (xs.foldlM f s) (xs.foldlM g t) := by
  induction xs generalizing s t with
  | nil => exact EndAlike.ok h
  | cons x xs ih =>
      rw [List.foldlM_cons, List.foldlM_cons]
      refine EndAlike.bind (hstep x List.mem_cons_self s t h) fun s' t' h' => ?_
      exact ih (fun y hy => hstep y (List.mem_cons_of_mem _ hy)) h'

end FallibleRun
