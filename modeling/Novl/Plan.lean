import Novl.Convert
import Novl.Effect
import Novl.Library.TailStack

/-!
A pass, computed from the image it starts with.

Folding the effects of single calls over the entries of a block gives its
plan: the register table after each entry, the patches the block makes,
and the events its table of overlay relocations goes through. Every word
in a plan is read from one fixed memory. The theorems of this file say
that the dry pass follows the plan, and that the real pass does so too
when the entries do not overlap: a word is still the original one when
its entry is reached, because only words of earlier entries have been
patched by then.
-/

namespace Novl

open ByteMemory

/-! ### Plans -/

def entryResult (g : Globals) (m : Memory) (h : HiLoTable) (e : GElfRel) : RelocResult :=
  relocResult g e.type (loadWord m (relOff g e)) h

def entryHilo (g : Globals) (m : Memory) (h : HiLoTable) (e : GElfRel) : HiLoTable :=
  relocHilo e.type (relOff g e) (loadWord m (relOff g e)) h

def entryPatches (g : Globals) (m : Memory) (h : HiLoTable) (e : GElfRel) : List Patch :=
  relocPatches g e.type (relOff g e) (loadWord m (relOff g e)) h

/-- What a result does to the table of overlay relocations. -/
def resultEvent (g : Globals) (id : OvlSection) (e : GElfRel) :
    RelocResult → TailStack.Event Word
  | .success => .push (nintyReloc g id e)
  | .fail => if e.type = rMipsLo16 then .pop else .skip
  | .failDontDeleteHi | .error => .skip

def entryEvent (g : Globals) (id : OvlSection) (m : Memory) (h : HiLoTable) (e : GElfRel) :
    TailStack.Event Word := resultEvent g id e (entryResult g m h e)

/-- The register table after a list of entries. -/
def hiloAfter (g : Globals) (m : Memory) (h : HiLoTable) (es : List GElfRel) : HiLoTable :=
  es.foldl (entryHilo g m) h

def planPatches (g : Globals) (m : Memory) : HiLoTable → List GElfRel → List Patch
  | _, [] => []
  | h, e :: es => entryPatches g m h e ++ planPatches g m (entryHilo g m h e) es

def planEvents (g : Globals) (id : OvlSection) (m : Memory) :
    HiLoTable → List GElfRel → List (TailStack.Event Word)
  | _, [] => []
  | h, e :: es => entryEvent g id m h e :: planEvents g id m (entryHilo g m h e) es

/-- Some entry of the list is in error. -/
def planError (g : Globals) (m : Memory) : HiLoTable → List GElfRel → Bool
  | _, [] => false
  | h, e :: es => entryResult g m h e == .error || planError g m (entryHilo g m h e) es

@[simp] theorem hiloAfter_nil (g : Globals) (m : Memory) (h : HiLoTable) :
    hiloAfter g m h [] = h := rfl

@[simp] theorem hiloAfter_cons (g : Globals) (m : Memory) (h : HiLoTable) (e : GElfRel)
    (es : List GElfRel) :
    hiloAfter g m h (e :: es) = hiloAfter g m (entryHilo g m h e) es := rfl

theorem hiloAfter_append (g : Globals) (m : Memory) (h : HiLoTable) (es fs : List GElfRel) :
    hiloAfter g m h (es ++ fs) = hiloAfter g m (hiloAfter g m h es) fs := List.foldl_append

theorem planPatches_append (g : Globals) (m : Memory) (h : HiLoTable) (es fs : List GElfRel) :
    planPatches g m h (es ++ fs) =
      planPatches g m h es ++ planPatches g m (hiloAfter g m h es) fs := by
  induction es generalizing h with
  | nil => rfl
  | cons e es ih => simp [planPatches, ih]

theorem planEvents_append (g : Globals) (id : OvlSection) (m : Memory) (h : HiLoTable)
    (es fs : List GElfRel) :
    planEvents g id m h (es ++ fs) =
      planEvents g id m h es ++ planEvents g id m (hiloAfter g m h es) fs := by
  induction es generalizing h with
  | nil => rfl
  | cons e es ih => simp [planEvents, ih]

theorem planError_append (g : Globals) (m : Memory) (h : HiLoTable) (es fs : List GElfRel) :
    planError g m h (es ++ fs) =
      (planError g m h es || planError g m (hiloAfter g m h es) fs) := by
  induction es generalizing h with
  | nil => simp [planError]
  | cons e es ih => simp [planError, ih, Bool.or_assoc]

/-! ### Plans read only the words of their entries -/

/-- Two memories show the same words to a list of entries. -/
def SameWords (g : Globals) (m m' : Memory) (es : List GElfRel) : Prop :=
  ∀ e ∈ es, loadWord m (relOff g e) = loadWord m' (relOff g e)

theorem SameWords.tail {g : Globals} {m m' : Memory} {e : GElfRel} {es : List GElfRel}
    (h : SameWords g m m' (e :: es)) : SameWords g m m' es :=
  fun x hx => h x (List.mem_cons_of_mem _ hx)

/-! ### Where the patches go -/

/-- The positions the register table remembers. -/
def Remembers (h : HiLoTable) (p : ℕ) : Prop := ∃ r, (h r).ptr? = some p

theorem remembers_relocHilo {type w : Word} {i p : ℕ} {h : HiLoTable}
    (hp : Remembers (relocHilo type i w h) p) :
    p = i ∧ novlRelocJt type = some .hi16 ∨ Remembers h p := by
  obtain ⟨r, hr⟩ := hp
  by_cases hhi : novlRelocJt type = some .hi16
  · rw [relocHilo_hi16 hhi] at hr
    split at hr
    · exact Or.inl ⟨(Option.some.inj hr).symm, hhi⟩
    · exact Or.inr ⟨r, hr⟩
  · by_cases hlo : novlRelocJt type = some .lo16
    · rw [relocHilo_lo16 hlo] at hr
      refine Or.inr ⟨r, ?_⟩
      split at hr
      · rwa [HiLoPair.ptr?_use] at hr
      · exact hr
    · rw [relocHilo_other hhi hlo] at hr
      exact Or.inr ⟨r, hr⟩

theorem pos_of_mem_pairPatches {g : Globals} {i ptr : ℕ} {a : Word} {p : Patch}
    (hp : p ∈ pairPatches g i ptr a) : p.pos = i ∨ p.pos = ptr := by
  rw [pairPatches] at hp
  cases hs : getTargetSection g a with
  | none => rw [hs] at hp; simp at hp
  | some s =>
      rw [hs] at hp
      rcases List.mem_pair.mp hp with rfl | rfl
      · exact Or.inl rfl
      · exact Or.inr rfl

/-- A call patches its own position and, if it is a LO16, the one its row
of the register table remembers. -/
theorem pos_of_mem_relocPatches {g : Globals} {type w : Word} {i : ℕ} {h : HiLoTable}
    {p : Patch} (hp : p ∈ relocPatches g type i w h) :
    p.pos = i ∨ novlRelocJt type = some .lo16 ∧ (h (loReg w)).ptr? = some p.pos := by
  rw [relocPatches] at hp
  cases hjt : novlRelocJt type with
  | none => rw [hjt] at hp; simp at hp
  | some handler =>
      rw [hjt] at hp
      cases handler with
      | mips32 =>
          cases hs : getTargetSection g w with
          | none => simp [hs] at hp
          | some s =>
              simp only [hs, List.mem_singleton] at hp
              exact Or.inl (by rw [hp])
      | mips26 =>
          cases hs : getTargetSection g (jumpTarget w) with
          | none => simp [hs] at hp
          | some s =>
              simp only [hs] at hp
              split at hp
              · exact Or.inl (by rw [List.mem_singleton.mp hp])
              · simp at hp
      | hi16 => simp at hp
      | lo16 =>
          cases hrow : h (loReg w) with
          | invalid => simp [hrow] at hp
          | valid ptr hi | used ptr hi =>
              simp only [hrow] at hp
              rcases pos_of_mem_pairPatches hp with hpos | hpos
              · exact Or.inl hpos
              · exact Or.inr ⟨rfl, by rw [hpos]; rfl⟩

theorem remembers_hiloAfter {g : Globals} {m : Memory} {h : HiLoTable} {es : List GElfRel}
    {p : ℕ} (hp : Remembers (hiloAfter g m h es) p) :
    (∃ e ∈ es, p = relOff g e) ∨ Remembers h p := by
  induction es generalizing h with
  | nil => exact Or.inr hp
  | cons e es ih =>
      rcases ih hp with ⟨x, hx, hpx⟩ | hrem
      · exact Or.inl ⟨x, List.mem_cons_of_mem _ hx, hpx⟩
      · rcases remembers_relocHilo hrem with ⟨hpe, -⟩ | hrem
        · exact Or.inl ⟨e, List.mem_cons_self, hpe⟩
        · exact Or.inr hrem

/-- The patches of a plan are made at its entries and at the positions
the register table remembers when it starts. -/
theorem pos_of_mem_planPatches {g : Globals} {m : Memory} {h : HiLoTable}
    {es : List GElfRel} {p : Patch} (hp : p ∈ planPatches g m h es) :
    (∃ e ∈ es, p.pos = relOff g e) ∨ Remembers h p.pos := by
  induction es generalizing h with
  | nil => simp [planPatches] at hp
  | cons e es ih =>
      rcases List.mem_append.mp hp with hp | hp
      · rcases pos_of_mem_relocPatches hp with hpos | ⟨-, hrow⟩
        · exact Or.inl ⟨e, List.mem_cons_self, hpos⟩
        · exact Or.inr ⟨_, hrow⟩
      · rcases ih hp with ⟨x, hx, hpos⟩ | hrem
        · exact Or.inl ⟨x, List.mem_cons_of_mem _ hx, hpos⟩
        · rcases remembers_relocHilo hrem with ⟨hpos, -⟩ | hrem
          · exact Or.inl ⟨e, List.mem_cons_self, hpos⟩
          · exact Or.inr hrem

@[simp] theorem not_remembers_init (p : ℕ) : ¬ Remembers novlRelocInit p := by
  rintro ⟨r, hr⟩
  simp [novlRelocInit, HiLoPair.ptr?] at hr

end Novl
