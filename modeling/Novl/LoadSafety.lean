import Novl.Overlay

/-!
What loading a file relies on.

The reader tests one thing, that the offset in the last word is not larger
than the file and a multiple of four. Where the test refuses the file, the
object is freed before the pointer in it is read. The offset, the
relocation count and the sizes are taken from the file and used as they
are. So loading makes defined accesses only, and stays inside the file,
exactly when the words it is driven by describe parts of the file.
-/

namespace Novl

open ByteMemory FallibleRun

/-- `ovl->filesize`: the length as an `int`. -/
def fileSize (bytes : List Byte) : ℤ := (BitVec.ofNat 32 bytes.length).toInt

/-- The bytes that are read. -/
def fileData (bytes : List Byte) : List Byte := bytes.take (fileSize bytes).toNat

theorem length_fileData {bytes : List Byte} (hsize : 0 ≤ fileSize bytes) :
    ((fileData bytes).length : ℤ) = fileSize bytes := by
  have hle : fileSize bytes ≤ bytes.length := by
    rw [fileSize, BitVec.toInt_eq_toNat_cond, BitVec.toNat_ofNat]
    split <;> omega
  rw [fileData, List.length_take]
  omega

/-- Every range the loaded overlay gives access to lies in the file. -/
def Ovl.InsideFile (ovl : Ovl) : Prop :=
  0 ≤ ovl.relocationCount ∧
    ∀ i, i ≠ .bss → 0 ≤ (ovl.sections i).size ∧
      (ovl.sections i).addr.toNat + (ovl.sections i).size ≤ ovl.filesize

/-- Loading reports an error, or makes no access outside what it owns and
returns an overlay that stays inside the file. -/
def LoadsInside (bytes : List Byte) : Prop :=
  match ovlLoad bytes with
  | .error e => e ≠ .undefinedBehaviour
  | .ok ovl => ovl.InsideFile

/-- The last word, which is the distance from the end back to the header. -/
def headerOffset (data : List Byte) : ℤ :=
  (loadWord (fileMemory data) (data.length - 4)).toInt

/-- The `k`-th word of the header. -/
def headerField (data : List Byte) (k : ℕ) : Word :=
  loadWord (fileMemory data) (data.length - headerOffset data + 4 * k).toNat

/-- The words that drive the reader describe parts of the file. -/
structure SoundHeader (data : List Byte) : Prop where
  aligned : (headerOffset data).tmod 4 = 0
  inside : headerOffset data ≤ data.length
  header : 20 ≤ headerOffset data
  count : 0 ≤ (headerField data 4).toInt
  table : 20 + 4 * (headerField data 4).toInt ≤ headerOffset data
  sizes : ∀ i : OvlSection, i ≠ .bss → 0 ≤ (headerField data i.index).toInt
  sections : (headerField data 0).toInt + (headerField data 1).toInt + (headerField data 2).toInt ≤
    data.length

/-! ### Rows of words -/

theorem mapM_fileWord_eq (bytes : List Byte) (p : ℤ) (n : ℕ) :
    (List.range n).mapM (fun (i : ℕ) => fileWord bytes (p + 4 * i)) =
      if n = 0 ∨ 0 ≤ p ∧ p + 4 * n ≤ bytes.length then
        some ((List.range n).map fun (i : ℕ) => loadWord (fileMemory bytes) (p + 4 * i).toNat)
      else none := by
  split
  · rename_i hin
    apply mapM_eq_some_map
    intro i hi
    have hlt := List.mem_range.mp hi
    rw [fileWord, if_pos (by omega)]
  · rename_i hout
    by_cases hp : p < 0
    · exact mapM_eq_none (List.mem_range.mpr (show 0 < n by omega))
        (by rw [fileWord, if_neg (by omega)])
    · exact mapM_eq_none (List.mem_range.mpr (show n - 1 < n by omega))
        (by rw [fileWord, if_neg (by omega)])

theorem exists_fileWord_last {data : List Byte} (h : 4 ≤ data.length) :
    ∃ w, fileWord data (data.length - 4) = some w ∧ w.toInt = headerOffset data := by
  refine ⟨_, if_pos (by omega), ?_⟩
  rw [headerOffset]
  congr 3
  omega

/-! ### The reader on any file -/

/-- The header is read, and where. -/
theorem ovlGetHeader_of_inside {data : List Byte} (h : 4 ≤ data.length)
    (haligned : (headerOffset data).tmod 4 = 0) (hle : headerOffset data ≤ data.length) :
    ovlGetHeader data data.length =
      if 20 ≤ headerOffset data then
        .ok (⟨fun i => headerField data i.index, headerField data 4⟩,
          data.length - headerOffset data)
      else .error .undefinedBehaviour := by
  have hwords := mapM_fileWord_eq data (data.length - headerOffset data) 5
  obtain ⟨w, hlast, hw⟩ := exists_fileWord_last h
  rw [ovlGetHeader, hlast]
  simp only [hw]
  rw [if_neg (by omega), hwords]
  by_cases hin : 20 ≤ headerOffset data
  · rw [if_pos (by omega), if_pos hin]
    have hfield (i : OvlSection) : ((List.range 5).map fun (k : ℕ) =>
        loadWord (fileMemory data) (data.length - headerOffset data + 4 * k).toNat).getD i.index 0 =
          headerField data i.index := by
      cases i <;> rfl
    simp only [hfield]
    rfl
  · rw [if_neg (by omega), if_neg hin]

theorem ovlGetHeader_of_refused {data : List Byte} (h : 4 ≤ data.length)
    (hrefused : headerOffset data > data.length ∨ (headerOffset data).tmod 4 ≠ 0) :
    ovlGetHeader data data.length = .error .notAnOverlay := by
  obtain ⟨w, hlast, hw⟩ := exists_fileWord_last h
  rw [ovlGetHeader, hlast]
  simp only [hw]
  rw [if_pos hrefused]

theorem ovlGetHeader_of_short {data : List Byte} (h : data.length < 4) :
    ovlGetHeader data data.length = .error .undefinedBehaviour := by
  rw [ovlGetHeader, fileWord, if_neg (by omega)]

theorem toInt_of_nonneg {x : Word} (hx : 0 ≤ x.toInt) :
    x.toInt = x.toNat ∧ x.toNat < 2 ^ 31 := by
  have hlt := x.isLt
  rw [BitVec.toInt_eq_toNat_cond] at hx ⊢
  split at hx <;> omega

/-- The sections a header describes lie in the file exactly when its sizes
are not negative and add up to no more than the file. -/
theorem sections_inside_iff (sizes : OvlSection → Word) {n : ℕ} (hn : n < 2 ^ 31) :
    (∀ i, i ≠ .bss → 0 ≤ (ovlSections sizes i).size ∧
      (ovlSections sizes i).addr.toNat + (ovlSections sizes i).size ≤ n) ↔
    (∀ i, i ≠ .bss → 0 ≤ (sizes i).toInt) ∧
      (sizes .text).toInt + (sizes .data).toInt + (sizes .rodata).toInt ≤ n := by
  constructor
  · intro h
    have hsize (i : OvlSection) (hi : i ≠ .bss) : 0 ≤ (sizes i).toInt := by
      have hle := (h i hi).1
      rw [ovlSections_eq] at hle
      cases i <;> exact hle
    refine ⟨hsize, ?_⟩
    obtain ⟨htext, -⟩ := toInt_of_nonneg (hsize .text (by decide))
    obtain ⟨hdata, -⟩ := toInt_of_nonneg (hsize .data (by decide))
    have hend₁ := (h .data (by decide)).2
    have hend₂ := (h .rodata (by decide)).2
    rw [ovlSections_eq] at hend₁ hend₂
    simp only [BitVec.toNat_add] at hend₁ hend₂
    omega
  · rintro ⟨hsize, hsum⟩ i hi
    obtain ⟨htext, -⟩ := toInt_of_nonneg (hsize .text (by decide))
    obtain ⟨hdata, -⟩ := toInt_of_nonneg (hsize .data (by decide))
    obtain ⟨hrodata, -⟩ := toInt_of_nonneg (hsize .rodata (by decide))
    rw [ovlSections_eq]
    cases i with
    | text => exact ⟨hsize .text hi, by simp; omega⟩
    | data => exact ⟨hsize .data hi, by simp only; omega⟩
    | rodata => exact ⟨hsize .rodata hi, by simp only [BitVec.toNat_add]; omega⟩
    | bss => exact absurd rfl hi

/-- There is no defined way out of a header that is not read. -/
theorem ovlLoad_of_error {bytes : List Byte} {e : LoadStop} (hsize : 0 ≤ fileSize bytes)
    (hhead : ovlGetHeader (fileData bytes) (fileSize bytes) = .error e) :
    ovlLoad bytes = .error .undefinedBehaviour := by
  simp only [fileData, fileSize] at hsize hhead
  rw [ovlLoad, if_neg (not_lt.mpr hsize)]
  simp only [hhead]

theorem not_loadsInside_of_error {bytes : List Byte} {e : LoadStop} (hsize : 0 ≤ fileSize bytes)
    (hhead : ovlGetHeader (fileData bytes) (fileSize bytes) = .error e) : ¬ LoadsInside bytes := by
  rw [LoadsInside, ovlLoad_of_error hsize hhead]
  exact fun h => h rfl

/-- Once the header is read, loading succeeds if the table lies in the
file. -/
theorem ovlLoad_of_header {bytes : List Byte} {head : OvlHeader} {ptr : ℤ}
    (hsize : 0 ≤ fileSize bytes)
    (hhead : ovlGetHeader (fileData bytes) (fileSize bytes) = .ok (head, ptr)) :
    if head.relocationCount.toInt.toNat = 0 ∨
        0 ≤ ptr + 20 ∧
          ptr + 20 + 4 * head.relocationCount.toInt.toNat ≤ (fileData bytes).length then
      ∃ relocations, ovlLoad bytes = .ok ⟨ovlSections head.sizes, head.relocationCount.toInt,
        fileData bytes, fileSize bytes, relocations⟩
    else ovlLoad bytes = .error .undefinedBehaviour := by
  have hwords := mapM_fileWord_eq (fileData bytes) (ptr + 20) head.relocationCount.toInt.toNat
  have hload : ovlLoad bytes =
      ((List.range head.relocationCount.toInt.toNat).mapM fun (i : ℕ) =>
        fileWord (fileData bytes) (ptr + 20 + 4 * i)).elim (.error .undefinedBehaviour)
          fun relocations => .ok ⟨ovlSections head.sizes, head.relocationCount.toInt,
            fileData bytes, fileSize bytes, relocations⟩ := by
    simp only [fileData, fileSize] at hsize hhead ⊢
    rw [ovlLoad, if_neg (not_lt.mpr hsize)]
    simp only [hhead]
    cases (List.range head.relocationCount.toInt.toNat).mapM fun (i : ℕ) =>
      fileWord (bytes.take (BitVec.ofNat 32 bytes.length).toInt.toNat) (ptr + 20 + 4 * i) <;> rfl
  split
  · rename_i hin
    rw [if_pos hin] at hwords
    exact ⟨_, by rw [hload, hwords]; rfl⟩
  · rename_i hout
    rw [if_neg hout] at hwords
    rw [hload, hwords]
    rfl

/-- With a last word that is accepted, the header decides. -/
theorem loadsInside_iff_soundHeader {bytes : List Byte} (hsize : 4 ≤ fileSize bytes)
    (haligned : (headerOffset (fileData bytes)).tmod 4 = 0)
    (hle : headerOffset (fileData bytes) ≤ fileSize bytes) :
    LoadsInside bytes ↔ SoundHeader (fileData bytes) := by
  have hread : 0 ≤ fileSize bytes := by omega
  have hlen := length_fileData hread
  rw [← hlen] at hle
  have hhead := ovlGetHeader_of_inside (by omega) haligned hle
  rw [hlen] at hhead
  by_cases hheader : 20 ≤ headerOffset (fileData bytes)
  · rw [if_pos hheader] at hhead
    have hload := ovlLoad_of_header hread hhead
    simp only at hload
    split at hload
    · rename_i htable
      obtain ⟨relocations, hload⟩ := hload
      have hshort : (fileData bytes).length < 2 ^ 31 := by
        have hlt := BitVec.toInt_lt (x := BitVec.ofNat 32 bytes.length)
        rw [← fileSize] at hlt
        omega
      have hsections := sections_inside_iff (fun i => headerField (fileData bytes) i.index) hshort
      rw [LoadsInside, hload]
      simp only [Ovl.InsideFile, ← hlen, hsections]
      constructor
      · rintro ⟨hcount, hsizes, hsum⟩
        exact ⟨haligned, hle, hheader, hcount, by omega, hsizes, hsum⟩
      · intro hsound
        exact ⟨hsound.count, hsound.sizes, hsound.sections⟩
    · rename_i htable
      rw [LoadsInside, hload]
      refine iff_of_false (fun h => h rfl) fun hsound => ?_
      have hcount := hsound.count
      have htab := hsound.table
      omega
  · rw [if_neg hheader] at hhead
    exact iff_of_false (not_loadsInside_of_error hread hhead) fun hsound =>
      hheader hsound.header

/-- Loading stays inside the file exactly when the file is too long to be
read at all, or its header is sound. -/
theorem ovlLoad_inside_iff (bytes : List Byte) :
    LoadsInside bytes ↔
      fileSize bytes < 0 ∨ 4 ≤ fileSize bytes ∧ SoundHeader (fileData bytes) := by
  rcases lt_or_ge (fileSize bytes) 0 with hneg | hsize
  · have hload : ovlLoad bytes = .error .mallocFailed := by rw [ovlLoad]; exact if_pos hneg
    rw [LoadsInside, hload]
    exact iff_of_true (by decide) (Or.inl hneg)
  have hlen := length_fileData hsize
  rw [or_iff_right (not_lt.mpr hsize)]
  by_cases hfour : 4 ≤ fileSize bytes
  · rw [and_iff_right hfour]
    by_cases hrefused : headerOffset (fileData bytes) > fileSize bytes ∨
        (headerOffset (fileData bytes)).tmod 4 ≠ 0
    · have hfits : 4 ≤ (fileData bytes).length := by omega
      have hhead := ovlGetHeader_of_refused hfits (by rw [hlen]; exact hrefused)
      rw [hlen] at hhead
      refine iff_of_false (not_loadsInside_of_error hsize hhead) fun hsound => ?_
      have hinside := hsound.inside
      exact hrefused.elim (fun hlarge => by omega) fun hodd => hodd hsound.aligned
    · obtain ⟨hle, haligned⟩ := not_or.mp hrefused
      exact loadsInside_iff_soundHeader hfour (not_not.mp haligned) (not_lt.mp hle)
  · have hcut : (fileData bytes).length < 4 := by omega
    have hhead := ovlGetHeader_of_short hcut
    rw [hlen] at hhead
    exact iff_of_false (not_loadsInside_of_error hsize hhead) fun h => hfour h.1

/-- A file of 32 bytes with no section data, whose header gives `.text`
4096 bytes. -/
def oversizedFile : List Byte := [0x1000, 0, 0, 0, 0, 0, 0, 0x20].flatMap wordBytes

theorem oversizedFile_not_inside : ¬ LoadsInside oversizedFile := by
  obtain ⟨ovl, hload, hovl⟩ := exists_ok_of_map (x := ovlLoad oversizedFile)
    (fun ovl => ovl.filesize = 32 ∧ (ovl.sections .text).size = 4096) (by decide +kernel)
  obtain ⟨hfile, hsize⟩ := of_decide_eq_true hovl
  rw [LoadsInside, hload]
  rintro ⟨-, hinside⟩
  have hend := (hinside .text (by decide)).2
  omega

end Novl
