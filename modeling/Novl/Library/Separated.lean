import Mathlib.Tactic

/-!
Texts printed by a format of literals and fields.

A field is printed as a word, a run of word characters. Where no field is
followed at once by another field or by a word character, the end of each
word can be seen in the text. Then a text determines its words, and two
printings of one format are equal only field by field.
-/

namespace Separated

variable {α τ : Type*}

/-- A piece of a format. -/
inductive Piece (α τ : Type*)
  | lit (a : α)
  | field (t : τ)
  deriving DecidableEq

/-- The text a format prints. -/
def render (print : τ → List α) : List (Piece α τ) → List α
  | [] => []
  | .lit a :: ps => a :: render print ps
  | .field t :: ps => print t ++ render print ps

/-- The fields of a format, in their order. -/
def fields : List (Piece α τ) → List τ
  | [] => []
  | .lit _ :: ps => fields ps
  | .field t :: ps => t :: fields ps

/-- No word goes on here: a format is at its end or at a literal that is no
word character. -/
def EndsWord (word : α → Bool) : List (Piece α τ) → Prop
  | [] => True
  | .lit a :: _ => word a = false
  | .field _ :: _ => False

/-- Every field is followed by the end of its word. -/
def Apart (word : α → Bool) : List (Piece α τ) → Prop
  | [] => True
  | .lit _ :: ps => Apart word ps
  | .field _ :: ps => EndsWord word ps ∧ Apart word ps

instance EndsWord.decidable (word : α → Bool) :
    (ps : List (Piece α τ)) → Decidable (EndsWord word ps)
  | [] => .isTrue trivial
  | .lit a :: _ => inferInstanceAs (Decidable (word a = false))
  | .field _ :: _ => .isFalse id

instance Apart.decidable (word : α → Bool) :
    (ps : List (Piece α τ)) → Decidable (Apart word ps)
  | [] => .isTrue trivial
  | .lit _ :: ps => Apart.decidable word ps
  | .field _ :: ps =>
    have := Apart.decidable word ps
    inferInstanceAs (Decidable (EndsWord word ps ∧ Apart word ps))

theorem mem_fields {t : τ} {ps : List (Piece α τ)} : t ∈ fields ps ↔ .field t ∈ ps := by
  induction ps with
  | nil => simp [fields]
  | cons p ps ih => cases p <;> simp [fields, ih]

/-- Two words are equal if what follows them does not go on with a word
character and the texts are equal. -/
theorem append_inj_of_words {word : α → Bool} {as bs rest rest' : List α}
    (has : ∀ a ∈ as, word a = true) (hbs : ∀ b ∈ bs, word b = true)
    (hrest : ∀ a ∈ rest.head?, word a = false) (hrest' : ∀ a ∈ rest'.head?, word a = false)
    (heq : as ++ rest = bs ++ rest') : as = bs ∧ rest = rest' := by
  induction as generalizing bs with
  | nil =>
      cases bs with
      | nil => exact ⟨rfl, heq⟩
      | cons b bs =>
          have hstop := hrest b (by rw [List.nil_append] at heq; rw [heq]; rfl)
          rw [hbs b List.mem_cons_self] at hstop
          cases hstop
  | cons a as ih =>
      cases bs with
      | nil =>
          have hstop := hrest' a (by rw [List.nil_append] at heq; rw [← heq]; rfl)
          rw [has a List.mem_cons_self] at hstop
          cases hstop
      | cons b bs =>
          obtain ⟨rfl, htail⟩ := List.cons.inj heq
          obtain ⟨rfl, hrests⟩ := ih (fun x hx => has x (List.mem_cons_of_mem _ hx))
            (fun x hx => hbs x (List.mem_cons_of_mem _ hx)) htail
          exact ⟨rfl, hrests⟩

section Render

variable {word : α → Bool} {print print' : τ → List α} {ps : List (Piece α τ)}

theorem head?_render (h : EndsWord word ps) : ∀ a ∈ (render print ps).head?, word a = false := by
  intro a ha
  match ps with
  | [] => cases ha
  | .lit b :: ps =>
      rw [render, List.head?_cons, Option.mem_some_iff] at ha
      rw [← ha]
      exact h
  | .field t :: ps => exact absurd h id

/-- Two printings of one format are equal exactly field by field. -/
theorem render_eq_iff (hapart : Apart word ps)
    (hprint : ∀ t ∈ fields ps, ∀ a ∈ print t, word a = true)
    (hprint' : ∀ t ∈ fields ps, ∀ a ∈ print' t, word a = true) :
    render print ps = render print' ps ↔ ∀ t ∈ fields ps, print t = print' t := by
  induction ps with
  | nil => simp [render, fields]
  | cons p ps ih =>
      cases p with
      | lit a =>
          rw [render, render, fields, List.cons_inj_right]
          exact ih hapart hprint hprint'
      | field t =>
          have hrest := ih hapart.2 (fun u hu => hprint u (List.mem_cons_of_mem _ hu))
            (fun u hu => hprint' u (List.mem_cons_of_mem _ hu))
          rw [render, render, fields, List.forall_mem_cons, ← hrest]
          constructor
          · intro heq
            exact append_inj_of_words (hprint t List.mem_cons_self) (hprint' t List.mem_cons_self)
              (head?_render hapart.1) (head?_render hapart.1) heq
          · rintro ⟨hfield, htail⟩
            rw [hfield, htail]

/-- A bound for the text from bounds for its fields. -/
theorem length_render_le {bound : τ → ℕ} (hbound : ∀ t ∈ fields ps, (print t).length ≤ bound t) :
    (render print ps).length ≤ ps.length + ((fields ps).map bound).sum := by
  induction ps with
  | nil => exact Nat.zero_le _
  | cons p ps ih =>
      cases p with
      | lit a =>
          have hrest := ih hbound
          rw [render, fields, List.length_cons, List.length_cons]
          omega
      | field t =>
          have hfirst := hbound t List.mem_cons_self
          have hrest := ih fun u hu => hbound u (List.mem_cons_of_mem _ hu)
          rw [render, fields, List.length_append, List.length_cons, List.map_cons, List.sum_cons]
          omega

theorem mem_render {a : α} (h : a ∈ render print ps) :
    .lit a ∈ ps ∨ ∃ t ∈ fields ps, a ∈ print t := by
  induction ps with
  | nil => cases h
  | cons p ps ih =>
      cases p with
      | lit b =>
          rcases List.mem_cons.mp h with rfl | h
          · exact Or.inl List.mem_cons_self
          · exact (ih h).imp_left (List.mem_cons_of_mem _)
      | field t =>
          rcases List.mem_append.mp h with h | h
          · exact Or.inr ⟨t, List.mem_cons_self, h⟩
          · refine (ih h).imp (List.mem_cons_of_mem _) ?_
            rintro ⟨u, hu, ha⟩
            exact ⟨u, List.mem_cons_of_mem _ hu, ha⟩

end Render

section Lines

variable {β : Type*} {print : β → List α} {Good : β → Prop} {Alike : β → β → Prop}

/-- Where the end of a line can be seen, two texts are equal line by line. -/
theorem flatMap_eq_iff (hne : ∀ x, Good x → print x ≠ [])
    (hline : ∀ x y, Good x → Good y → ∀ rest rest',
      print x ++ rest = print y ++ rest' ↔ Alike x y ∧ rest = rest')
    {xs ys : List β} (hxs : ∀ x ∈ xs, Good x) (hys : ∀ y ∈ ys, Good y) :
    xs.flatMap print = ys.flatMap print ↔ List.Forall₂ Alike xs ys := by
  induction xs generalizing ys with
  | nil =>
      cases ys with
      | nil => simp
      | cons y ys =>
          have hy := hne y (hys y List.mem_cons_self)
          simp [hy]
  | cons x xs ih =>
      have hx := hxs x List.mem_cons_self
      cases ys with
      | nil => simp [hne x hx]
      | cons y ys =>
          rw [List.flatMap_cons, List.flatMap_cons, hline x y hx (hys y List.mem_cons_self),
            List.forall₂_cons, ih (fun z hz => hxs z (List.mem_cons_of_mem _ hz))
              (fun z hz => hys z (List.mem_cons_of_mem _ hz))]

end Lines

end Separated
