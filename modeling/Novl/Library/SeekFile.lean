import Mathlib.Data.List.Basic
import Mathlib.Tactic

/-!
A byte file open for writing.

The position may be moved past the end of the file; the gap a later write
leaves behind reads as zeros. Writing no bytes changes nothing. The
lemmas describe the two ways a file is produced: bytes appended at the
end, possibly behind a gap, and bytes written over a block of the same
length in the middle.
-/

structure SeekFile where
  bytes : List (BitVec 8)
  pos : ℕ

namespace SeekFile

/-- A freshly created file. -/
def empty : SeekFile := ⟨[], 0⟩

def seek (f : SeekFile) (p : ℕ) : SeekFile := { f with pos := p }

def write (f : SeekFile) (bs : List (BitVec 8)) : SeekFile :=
  if bs = [] then f
  else
    { bytes := f.bytes.take f.pos ++ List.replicate (f.pos - f.bytes.length) 0 ++ bs ++
        f.bytes.drop (f.pos + bs.length)
      pos := f.pos + bs.length }

@[simp] theorem seek_bytes (f : SeekFile) (p : ℕ) : (f.seek p).bytes = f.bytes := rfl

@[simp] theorem seek_pos (f : SeekFile) (p : ℕ) : (f.seek p).pos = p := rfl

@[simp] theorem write_pos (f : SeekFile) (bs : List (BitVec 8)) :
    (f.write bs).pos = f.pos + bs.length := by
  by_cases h : bs = []
  · simp [write, h]
  · simp [write, h]

/-- Writing at or past the end fills the gap with zeros. -/
theorem write_bytes_of_length_le {f : SeekFile} {bs : List (BitVec 8)}
    (hpos : f.bytes.length ≤ f.pos) (hne : bs ≠ []) :
    (f.write bs).bytes = f.bytes ++ List.replicate (f.pos - f.bytes.length) 0 ++ bs := by
  rw [write, if_neg hne]
  simp only
  rw [List.take_of_length_le hpos, List.drop_eq_nil_of_le (by omega), List.append_nil]

/-- Writing at the end appends. -/
theorem write_bytes_at_end {f : SeekFile} (bs : List (BitVec 8))
    (hpos : f.pos = f.bytes.length) : (f.write bs).bytes = f.bytes ++ bs := by
  by_cases hne : bs = []
  · simp [write, hne]
  · rw [write_bytes_of_length_le hpos.ge hne, hpos, Nat.sub_self]
    simp

theorem length_write (f : SeekFile) {bs : List (BitVec 8)} (hne : bs ≠ []) :
    (f.write bs).bytes.length = max f.bytes.length (f.pos + bs.length) := by
  rw [write, if_neg hne]
  simp only [List.length_append, List.length_take, List.length_replicate, List.length_drop]
  omega

/-- A write never shortens the file. -/
theorem length_le_write (f : SeekFile) (bs : List (BitVec 8)) :
    f.bytes.length ≤ (f.write bs).bytes.length := by
  by_cases hne : bs = []
  · simp [write, hne]
  · rw [length_write f hne]
    exact le_max_left _ _

/-- A write inside the file keeps its length. -/
theorem length_write_inside {f : SeekFile} {bs : List (BitVec 8)}
    (hin : f.pos + bs.length ≤ f.bytes.length) :
    (f.write bs).bytes.length = f.bytes.length := by
  by_cases hne : bs = []
  · simp [write, hne]
  · rw [length_write f hne, max_eq_left hin]

/-- A row of writes at the end appends them all. -/
theorem foldl_write_at_end {α : Type*} (enc : α → List (BitVec 8)) (xs : List α) {f : SeekFile}
    (hpos : f.pos = f.bytes.length) :
    (xs.foldl (fun f x => f.write (enc x)) f).bytes = f.bytes ++ xs.flatMap enc ∧
      (xs.foldl (fun f x => f.write (enc x)) f).pos =
        (xs.foldl (fun f x => f.write (enc x)) f).bytes.length := by
  induction xs generalizing f with
  | nil => exact ⟨by simp, hpos⟩
  | cons x xs ih =>
      have hbytes := write_bytes_at_end (enc x) hpos
      have hpos' : (f.write (enc x)).pos = (f.write (enc x)).bytes.length := by
        rw [hbytes, write_pos, List.length_append, hpos]
      obtain ⟨hrest, hend⟩ := ih hpos'
      refine ⟨?_, hend⟩
      rw [List.foldl_cons, hrest, hbytes, List.flatMap_cons, List.append_assoc]

/-- Writing over a block of the same length replaces that block. -/
theorem write_bytes_over {f : SeekFile} {a old b bs : List (BitVec 8)}
    (hbytes : f.bytes = a ++ old ++ b) (hpos : f.pos = a.length)
    (hlen : bs.length = old.length) : (f.write bs).bytes = a ++ bs ++ b := by
  by_cases hne : bs = []
  · have hold : old = [] := List.length_eq_zero_iff.mp (by rw [← hlen, hne]; rfl)
    simp [write, hne, hbytes, hold]
  · rw [write, if_neg hne]
    have htake : f.bytes.take f.pos = a := by
      rw [hbytes, hpos, List.append_assoc, List.take_left]
    have hdrop : f.bytes.drop (f.pos + bs.length) = b := by
      rw [hbytes, hpos, hlen, ← List.length_append, List.drop_left]
    have hgap : f.pos - f.bytes.length = 0 := by
      rw [hbytes, hpos]
      simp
    simp only [htake, hdrop, hgap, List.replicate_zero, List.append_nil]

end SeekFile
