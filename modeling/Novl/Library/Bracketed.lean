import Mathlib.Data.List.Basic
import Mathlib.Tactic

/-!
Sequences set off by two marks.

A sequence begins with an opening mark and ends with the first closing
mark behind it, or with the list if there is none. Opening marks inside a
sequence count for nothing. One scan from left to right tells the two
sides apart; what it says of a whole list is read off the last opening
mark.
-/

namespace Bracketed

variable {α : Type*} [DecidableEq α] (opening closing : α)

/-- Whether a sequence goes on behind an element, from whether one went on
in front of it. -/
def after (inside : Bool) (c : α) : Bool :=
  if inside then decide (c ≠ closing) else decide (c = opening)

/-- Whether a sequence is still open at the end. -/
def endsInside (inside : Bool) (s : List α) : Bool := s.foldl (after opening closing) inside

/-- What lies outside the sequences. -/
def outside : Bool → List α → List α
  | _, [] => []
  | true, c :: s => outside (after opening closing true c) s
  | false, c :: s =>
    if c = opening then outside true s else c :: outside false s

@[simp] theorem endsInside_nil (inside : Bool) :
    endsInside opening closing inside [] = inside := rfl

@[simp] theorem endsInside_cons (inside : Bool) (c : α) (s : List α) :
    endsInside opening closing inside (c :: s) =
      endsInside opening closing (after opening closing inside c) s := rfl

theorem endsInside_append (inside : Bool) (s t : List α) :
    endsInside opening closing inside (s ++ t) =
      endsInside opening closing (endsInside opening closing inside s) t := List.foldl_append

@[simp] theorem outside_nil (inside : Bool) : outside opening closing inside [] = [] := by
  cases inside <;> rfl

@[simp] theorem after_false (c : α) : after opening closing false c = decide (c = opening) := rfl

@[simp] theorem after_true (c : α) : after opening closing true c = decide (c ≠ closing) := rfl

section Scan

variable {opening closing} {s : List α}

/-- An open sequence swallows everything up to the first closing mark. -/
theorem inside_of_not_mem (h : closing ∉ s) :
    endsInside opening closing true s = true ∧ outside opening closing true s = [] := by
  induction s with
  | nil => exact ⟨rfl, rfl⟩
  | cons c s ih =>
      rw [List.mem_cons, not_or] at h
      have hafter : after opening closing true c = true := decide_eq_true (Ne.symm h.1)
      rw [endsInside_cons, outside, hafter]
      exact ih h.2

theorem inside_closing {seq rest : List α} (h : closing ∉ seq) :
    endsInside opening closing true (seq ++ closing :: rest) =
        endsInside opening closing false rest ∧
      outside opening closing true (seq ++ closing :: rest) =
        outside opening closing false rest := by
  induction seq with
  | nil => simp [outside]
  | cons c seq ih =>
      rw [List.mem_cons, not_or] at h
      have hafter : after opening closing true c = true := decide_eq_true (Ne.symm h.1)
      rw [List.cons_append, endsInside_cons, outside, hafter]
      exact ih h.2

theorem endsInside_of_opening_not_mem (h : opening ∉ s) :
    endsInside opening closing false s = false := by
  induction s with
  | nil => rfl
  | cons c s ih =>
      rw [List.mem_cons, not_or] at h
      rw [endsInside_cons, after_false, decide_eq_false (Ne.symm h.1)]
      exact ih h.2

theorem outside_of_opening_not_mem (h : opening ∉ s) :
    outside opening closing false s = s := by
  induction s with
  | nil => rfl
  | cons c s ih =>
      rw [List.mem_cons, not_or] at h
      rw [outside, if_neg (Ne.symm h.1), ih h.2]

variable (opening closing) in
theorem outside_sublist (inside : Bool) (s : List α) :
    (outside opening closing inside s).Sublist s := by
  induction s generalizing inside with
  | nil => simp
  | cons c s ih =>
      cases inside with
      | true => exact (ih _).cons c
      | false =>
          rw [outside]
          split
          · exact (ih _).cons c
          · exact (ih _).cons_cons c

theorem outside_append (inside : Bool) (t : List α) :
    outside opening closing inside (s ++ t) =
      outside opening closing inside s ++
        outside opening closing (endsInside opening closing inside s) t := by
  induction s generalizing inside with
  | nil => simp
  | cons c s ih =>
      cases inside with
      | true => exact ih _
      | false =>
          rw [List.cons_append, outside, outside, endsInside_cons, after_false, ih, ih]
          split
          · rename_i hc
            rw [decide_eq_true hc]
          · rename_i hc
            rw [decide_eq_false hc]
            rfl

/-- The scan drops something exactly when there is an opening mark. -/
theorem length_outside_lt_iff :
    (outside opening closing false s).length < s.length ↔ opening ∈ s := by
  induction s with
  | nil => simp
  | cons c s ih =>
      rw [outside]
      split
      · rename_i hc
        rw [hc]
        exact iff_of_true (Nat.lt_succ_of_le (outside_sublist opening closing true s).length_le)
          List.mem_cons_self
      · rename_i hc
        rw [List.length_cons, List.length_cons, Nat.succ_lt_succ_iff, ih, List.mem_cons,
          or_iff_right (Ne.symm hc)]

/-- Behind the last opening mark the first closing mark decides. -/
theorem endsInside_of_last (hne : opening ≠ closing) {pre post : List α} (h : opening ∉ post) :
    endsInside opening closing false (pre ++ opening :: post) = true ↔ closing ∉ post := by
  have hafter (inside : Bool) : after opening closing inside opening = true := by
    cases inside
    · exact decide_eq_true rfl
    · exact decide_eq_true hne
  rw [endsInside_append, endsInside_cons, hafter]
  constructor
  · intro hinside hmem
    obtain ⟨seq, rest, rfl, hseq⟩ := List.eq_append_cons_of_mem hmem
    rw [(inside_closing hseq).1, endsInside_of_opening_not_mem] at hinside
    · cases hinside
    · exact fun hrest => h (List.mem_append_right _ (List.mem_cons_of_mem _ hrest))
  · intro hnot
    exact (inside_of_not_mem hnot).1

omit [DecidableEq α] in
theorem exists_last_of_mem (h : opening ∈ s) :
    ∃ pre post, s = pre ++ opening :: post ∧ opening ∉ post := by
  obtain ⟨post, pre, hsplit, hpost⟩ := List.eq_append_cons_of_mem (List.mem_reverse.mpr h)
  refine ⟨pre.reverse, post.reverse, ?_, by rwa [List.mem_reverse]⟩
  rw [← List.reverse_reverse s, hsplit, List.reverse_append, List.reverse_cons,
    List.append_assoc, List.singleton_append]

/-- There is a sequence, and none is open at the end, exactly when a
closing mark follows the last opening mark. -/
theorem closed_iff (hne : opening ≠ closing) :
    opening ∈ s ∧ endsInside opening closing false s = false ↔
      ∃ pre post, s = pre ++ opening :: post ∧ opening ∉ post ∧ closing ∈ post := by
  constructor
  · rintro ⟨hmem, hend⟩
    obtain ⟨pre, post, rfl, hpost⟩ := exists_last_of_mem hmem
    refine ⟨pre, post, rfl, hpost, ?_⟩
    by_contra hnot
    rw [(endsInside_of_last hne hpost).mpr hnot] at hend
    cases hend
  · rintro ⟨pre, post, rfl, hpost, hclosing⟩
    refine ⟨by simp, ?_⟩
    rw [← Bool.not_eq_true, endsInside_of_last hne hpost, not_not]
    exact hclosing

end Scan

end Bracketed
