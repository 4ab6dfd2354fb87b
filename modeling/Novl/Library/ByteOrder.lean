import Mathlib.Tactic

/-!
Unsigned numbers as bytes, in either order, and as the fields of a record
at a position of a file.

A record is a list of fields, each with its width and its value. A field is
found again behind the widths of the fields in front of it, whatever stands
around the record.
-/

/-- Whether the least byte comes first or last. -/
inductive ByteOrder
  | little
  | big
  deriving DecidableEq, Repr

namespace ByteOrder

/-- The number with the given bytes, the first one the least. -/
def ofLittle : List (BitVec 8) → ℕ
  | [] => 0
  | b :: bs => b.toNat + 256 * ofLittle bs

/-- The low bytes of a number, the least one first. -/
def toLittle : ℕ → ℕ → List (BitVec 8)
  | 0, _ => []
  | n + 1, v => BitVec.ofNat 8 v :: toLittle n (v / 256)

def load : ByteOrder → List (BitVec 8) → ℕ
  | little, bs => ofLittle bs
  | big, bs => ofLittle bs.reverse

def store : ByteOrder → ℕ → ℕ → List (BitVec 8)
  | little, n, v => toLittle n v
  | big, n, v => (toLittle n v).reverse

/-- The `n` bytes at position `p` of a file, as far as it has them. -/
def slice (file : List (BitVec 8)) (p n : ℕ) : List (BitVec 8) := (file.drop p).take n

/-- The field of `n` bytes at position `p` of a file. -/
def field (o : ByteOrder) (file : List (BitVec 8)) (p n : ℕ) : ℕ := o.load (slice file p n)

/-- The fields of a record, each given by its width and its value, one
behind the other. -/
def record (o : ByteOrder) (fs : List (ℕ × ℕ)) : List (BitVec 8) :=
  fs.flatMap fun f => o.store f.1 f.2

/-- The bytes the fields take up together. -/
def widths (fs : List (ℕ × ℕ)) : ℕ := (fs.map Prod.fst).sum

/-! ### Numbers -/

@[simp] theorem length_toLittle (n v : ℕ) : (toLittle n v).length = n := by
  induction n generalizing v with
  | zero => rfl
  | succ n ih => rw [toLittle, List.length_cons, ih]

@[simp] theorem length_store (o : ByteOrder) (n v : ℕ) : (o.store n v).length = n := by
  cases o with
  | little => exact length_toLittle n v
  | big => rw [store, List.length_reverse, length_toLittle]

theorem ofLittle_toLittle (n v : ℕ) : ofLittle (toLittle n v) = v % 256 ^ n := by
  induction n generalizing v with
  | zero => rw [pow_zero, Nat.mod_one]; rfl
  | succ n ih =>
      have hsplit : v % 256 ^ (n + 1) = v % 256 + 256 * (v / 256 % 256 ^ n) := by
        rw [Nat.pow_succ', Nat.mod_mul]
      rw [toLittle, ofLittle, ih, BitVec.toNat_ofNat, hsplit]

theorem load_store (o : ByteOrder) (n v : ℕ) : o.load (o.store n v) = v % 256 ^ n := by
  cases o with
  | little => exact ofLittle_toLittle n v
  | big => rw [store, load, List.reverse_reverse, ofLittle_toLittle]

theorem ofLittle_lt (bs : List (BitVec 8)) : ofLittle bs < 256 ^ bs.length := by
  induction bs with
  | nil => exact Nat.one_pos
  | cons b bs ih =>
      have hb := b.isLt
      rw [ofLittle, List.length_cons, pow_succ]
      omega

theorem load_lt (o : ByteOrder) (bs : List (BitVec 8)) : o.load bs < 256 ^ bs.length := by
  cases o with
  | little => exact ofLittle_lt bs
  | big =>
      have hlt := ofLittle_lt bs.reverse
      rwa [List.length_reverse] at hlt

/-! ### Slices and fields -/

section Slice

variable {o : ByteOrder} {file front back : List (BitVec 8)} {p n : ℕ}

theorem length_slice_le : (slice file p n).length ≤ n := List.length_take_le _ _

theorem length_slice (h : p + n ≤ file.length) : (slice file p n).length = n := by
  rw [slice, List.length_take, List.length_drop]
  omega

theorem slice_zero : slice file 0 file.length = file := List.take_length

theorem slice_append_left (h : p + n ≤ front.length) :
    slice (front ++ back) p n = slice front p n := by
  rw [slice, slice, List.drop_append_of_le_length (by omega),
    List.take_append_of_le_length (by rw [List.length_drop]; omega)]

theorem slice_append_right : slice (front ++ back) (front.length + p) n = slice back p n := by
  rw [slice, slice, Nat.add_comm, List.drop_append, List.drop_eq_nil_of_le (by omega),
    Nat.add_sub_cancel, List.nil_append]

theorem slice_middle {mid : List (BitVec 8)} (hn : n = mid.length) :
    slice (front ++ (mid ++ back)) front.length n = mid := by
  rw [← Nat.add_zero front.length, slice_append_right, slice_append_left (by omega), hn,
    slice_zero]

theorem getD_slice {k : ℕ} (hk : k < n) : (slice file p n).getD k 0 = file.getD (p + k) 0 := by
  rw [slice, List.getD_eq_getElem?_getD, List.getElem?_take_of_lt hk, List.getElem?_drop,
    List.getD_eq_getElem?_getD]

theorem field_lt : field o file p n < 256 ^ n :=
  (load_lt o _).trans_le (Nat.pow_le_pow_right (by decide) length_slice_le)

theorem field_append_left (h : p + n ≤ front.length) :
    field o (front ++ back) p n = field o front p n := by
  rw [field, field, slice_append_left h]

theorem field_append_right : field o (front ++ back) (front.length + p) n = field o back p n := by
  rw [field, field, slice_append_right]

theorem field_store (v : ℕ) : field o (o.store n v ++ back) 0 n = v % 256 ^ n := by
  have hstored : slice (o.store n v) 0 n = o.store n v := by
    conv_lhs => rw [← length_store o n v]
    rw [length_store, slice, List.drop_zero, List.take_of_length_le (by simp)]
  rw [field_append_left (by simp), field, hstored, load_store]

end Slice

/-! ### Records -/

section Record

variable {o : ByteOrder} {rest : List (BitVec 8)}

@[simp] theorem length_record (o : ByteOrder) (fs : List (ℕ × ℕ)) :
    (o.record fs).length = widths fs := by
  rw [record, List.length_flatMap, widths]
  congr 1
  exact List.map_congr_left fun f _ => length_store o f.1 f.2

/-- A field of a record, in front of anything. -/
theorem field_record {fs pre post : List (ℕ × ℕ)} {p n v : ℕ} (hfs : fs = pre ++ (n, v) :: post)
    (hp : p = widths pre) : field o (o.record fs ++ rest) p n = v % 256 ^ n := by
  have hsplit : o.record fs ++ rest =
      o.record pre ++ (o.store n v ++ (o.record post ++ rest)) := by
    rw [hfs, record, List.flatMap_append, List.flatMap_cons, List.append_assoc, List.append_assoc]
    rfl
  have hpos : p = (o.record pre).length + 0 := by rw [hp, length_record, Nat.add_zero]
  rw [hsplit, hpos, field_append_right, field_store]

/-- A field of a record that stands inside a file. -/
theorem field_record_inside (pre : List (ℕ × ℕ)) {fs post : List (ℕ × ℕ)}
    {front : List (BitVec 8)} {p n v : ℕ}
    (hfs : fs = pre ++ (n, v) :: post) (hp : p = front.length + widths pre) (hv : v < 256 ^ n) :
    field o (front ++ (o.record fs ++ rest)) p n = v := by
  rw [hp, field_append_right, field_record hfs rfl, Nat.mod_eq_of_lt hv]

end Record

/-! ### Tables -/

section Table

variable {α : Type*} {write : α → List (BitVec 8)} {size : ℕ} {xs : List α}

theorem length_table (hsize : ∀ x, (write x).length = size) :
    (xs.flatMap write).length = xs.length * size := by
  induction xs with
  | nil => rw [List.length_nil, Nat.zero_mul]; rfl
  | cons x xs ih =>
      rw [List.flatMap_cons, List.length_append, hsize, ih, List.length_cons, Nat.succ_mul,
        Nat.add_comm]

/-- A table of entries of one size, read entry by entry. -/
theorem map_range_table (read : List (BitVec 8) → ℕ → α) (hsize : ∀ x, (write x).length = size)
    (hread : ∀ x ∈ xs, ∀ front rest, read (front ++ (write x ++ rest)) front.length = x)
    (front back : List (BitVec 8)) :
    (List.range xs.length).map
      (fun i => read (front ++ (xs.flatMap write ++ back)) (front.length + i * size)) = xs := by
  induction xs generalizing front with
  | nil => rfl
  | cons x xs ih =>
      have hfirst := hread x (by simp) front (xs.flatMap write ++ back)
      have hrest := ih (fun y hy => hread y (by simp [hy])) (front ++ write x)
      rw [List.length_cons, List.range_succ_eq_map, List.map_cons, List.map_map]
      refine congrArg₂ List.cons ?_ ?_
      · rw [Nat.zero_mul, Nat.add_zero, List.flatMap_cons, List.append_assoc]
        exact hfirst
      · conv_rhs => rw [← hrest]
        refine List.map_congr_left fun i _ => ?_
        have hpos : front.length + i.succ * size = (front ++ write x).length + i * size := by
          rw [List.length_append, hsize, Nat.succ_mul]
          omega
        rw [Function.comp_apply, hpos, List.flatMap_cons, List.append_assoc, List.append_assoc]

end Table

end ByteOrder
