import Novl.LoadSafety
import Novl.Layout

/-!
The relocation listing of `main.c`.

A word of the table is taken apart into three indices: a section, a type
and a place in the section. The listing looks the first two up in tables
and reads the file at the third, and tests none of them, so what the
header promises is not enough for it. A sound header gives the sections
their places, and the rest is up to each word.
-/

namespace Novl

open ByteMemory FallibleRun

/-- `novl_str_reloc_types`, less the `NULL` behind the last name. -/
def novlStrRelocTypes : List String :=
  ["R_MIPS_NONE", "R_MIPS_16",
    "R_MIPS_32", "R_MIPS_REL32",
    "R_MIPS_26", "R_MIPS_HI16",
    "R_MIPS_LO16", "R_MIPS_GPREL16",
    "R_MIPS_LITERAL", "R_MIPS_GOT16",
    "R_MIPS_PC16", "R_MIPS_CALL16",
    "R_MIPS_GPREL32", "R_MIPS_SHIFT5",
    "R_MIPS_SHIFT6", "R_MIPS_64",
    "R_MIPS_GOT_DISP", "R_MIPS_GOT_PAGE",
    "R_MIPS_GOT_OFST", "R_MIPS_GOT_HI16",
    "R_MIPS_GOT_LO16", "R_MIPS_SUB",
    "R_MIPS_INSERT_A", "R_MIPS_INSERT_B",
    "R_MIPS_DELETE", "R_MIPS_HIGHER",
    "R_MIPS_HIGHEST", "R_MIPS_CALL_HI16",
    "R_MIPS_CALL_LO16", "R_MIPS_SCN_DISP",
    "R_MIPS_REL16", "R_MIPS_ADD_IMMEDIATE",
    "R_MIPS_PJUMP", "R_MIPS_RELGOT",
    "R_MIPS_JALR", "R_MIPS_TLS_DTPMOD32",
    "R_MIPS_TLS_DTPREL32", "R_MIPS_TLS_DTPMOD64",
    "R_MIPS_TLS_DTPREL64", "R_MIPS_TLS_GD",
    "R_MIPS_TLS_LDM", "R_MIPS_TLS_DTPREL_HI16",
    "R_MIPS_TLS_DTPREL_LO16", "R_MIPS_TLS_GOTTPREL",
    "R_MIPS_TLS_TPREL32", "R_MIPS_TLS_TPREL64",
    "R_MIPS_TLS_TPREL_HI16", "R_MIPS_TLS_TPREL_LO16",
    "R_MIPS_GLOB_DAT", "R_MIPS_COPY",
    "R_MIPS_JUMP_SLOT"]

/-- `novl_str_reloc`: the name of a type, if it has one. -/
def novlStrReloc (reloc : Word) : Option String := novlStrRelocTypes[reloc.toNat]?

/-- `OVL_RELOC_GET_ABS_ADDR`, assigned to an `int`. The section index is
used without a test; one past the sections has none. -/
def ovlRelocGetAbsAddr (ovl : Ovl) (r : Word) : Option ℤ :=
  match OvlSection.all[(ovlRelocGetSec r).toNat]? with
  | none => none
  | some i => some ((ovl.sections i).addr + ovlRelocGetAddr r).toInt

/-- One line of the listing: the address, the names of section and type,
and the word there. There is none when a table has no entry for the word
or the place is not in the file. -/
def listRelocation (base : Word) (ovl : Ovl) (r : Word) :
    Option (Word × List Char × String × Word) :=
  match ovlRelocGetAbsAddr ovl r, OvlSection.all[(ovlRelocGetSec r).toNat]?,
      novlStrReloc (ovlRelocGetType r) with
  | some a, some i, some type =>
    match fileWord ovl.data a with
    | some w => some (BitVec.ofInt 32 a + base, i.name, type, w)
    | none => none
  | _, _, _ => none

/-- `list_relocations`, less its heading. -/
def listRelocations (base : Word) (ovl : Ovl) :
    Option (List (Word × List Char × String × Word)) :=
  ovl.relocations.mapM (listRelocation base ovl)

/-- The three uses a line makes of its word stay inside: a section index
below four, a type with a name, a word that ends in the file. -/
structure ListedInside (ovl : Ovl) (r : Word) : Prop where
  section_ : (ovlRelocGetSec r).toNat < 4
  type : novlStrReloc (ovlRelocGetType r) ≠ none
  word : ∃ a, ovlRelocGetAbsAddr ovl r = some a ∧ 0 ≤ a ∧ a + 4 ≤ ovl.filesize

/-! ### The three indices -/

theorem toNat_ovlRelocGetAddr (r : Word) : (ovlRelocGetAddr r).toNat = r.toNat % 2 ^ 24 :=
  LowMask.toNat_and_mask (n := 24) (by omega) r

theorem toNat_ovlRelocGetType (r : Word) :
    (ovlRelocGetType r).toNat = r.toNat / 2 ^ 24 % 64 := by
  have hmask : (ovlRelocGetType r).toNat = (r >>> 24).toNat % 64 :=
    LowMask.toNat_and_mask (n := 6) (by omega) (r >>> 24)
  rw [hmask, BitVec.toNat_ushiftRight, Nat.shiftRight_eq_div_pow]

/-- The section number is one more than the index; number zero wraps
around to the largest index. -/
theorem toNat_ovlRelocGetSec (r : Word) :
    (ovlRelocGetSec r).toNat = if r.toNat / 2 ^ 30 = 0 then 2 ^ 32 - 1 else r.toNat / 2 ^ 30 - 1 := by
  have hlt := r.isLt
  rw [ovlRelocGetSec, BitVec.toNat_sub, BitVec.toNat_ushiftRight, Nat.shiftRight_eq_div_pow]
  split
  · rename_i hzero
    rw [hzero]
    rfl
  · simp only [BitVec.toNat_ofNat]
    omega

theorem OvlSection.all_getElem?_eq_some {n : ℕ} {i : OvlSection} :
    OvlSection.all[n]? = some i ↔ n = i.index := by
  match n with
  | 0 | 1 | 2 | 3 => cases i <;> decide
  | n + 4 => cases i <;> simp [OvlSection.all, OvlSection.index]

theorem novlStrReloc_ne_none (type : Word) : novlStrReloc type ≠ none ↔ type.toNat ≤ 50 := by
  rw [novlStrReloc, ne_eq, List.getElem?_eq_none_iff, not_le]
  exact Nat.lt_succ_iff

/-! ### The listing on a sound file -/

/-- The sizes in the header. -/
def headerSizes (data : List Byte) : OvlSection → Word := fun i => headerField data i.index

theorem ovlLoad_of_soundHeader {bytes : List Byte} {ovl : Ovl}
    (hsound : SoundHeader (fileData bytes)) (hload : ovlLoad bytes = .ok ovl) :
    ovl.sections = ovlSections (headerSizes (fileData bytes)) ∧ ovl.data = fileData bytes ∧
      ovl.filesize = (fileData bytes).length ∧ (fileData bytes).length < 2 ^ 31 := by
  have hsize : 0 ≤ fileSize bytes := by
    by_contra hneg
    rw [ovlLoad, ← fileSize, if_pos (not_le.mp hneg)] at hload
    cases hload
  have hlen := length_fileData hsize
  have hshort := BitVec.toInt_lt (x := BitVec.ofNat 32 bytes.length)
  rw [← fileSize] at hshort
  have hheader := hsound.header
  have hinside := hsound.inside
  have hfour : 4 ≤ (fileData bytes).length := by omega
  have hhead := ovlGetHeader_of_inside hfour hsound.aligned hinside
  rw [if_pos hheader, hlen] at hhead
  have hread := ovlLoad_of_header hsize hhead
  simp only at hread
  split at hread
  · obtain ⟨relocations, hok⟩ := hread
    rw [hok] at hload
    cases hload
    exact ⟨rfl, rfl, hlen.symm, by omega⟩
  · rw [hread] at hload
    cases hload

/-- In a sound file every section that is in it starts where the sizes
before it add up to. -/
theorem SoundHeader.addr_eq {data : List Byte} (hsound : SoundHeader data)
    (hshort : data.length < 2 ^ 31) {i : OvlSection} (hi : i ≠ .bss) :
    (ovlSections (headerSizes data) i).addr.toNat = fileStart (headerSizes data) i ∧
      fileStart (headerSizes data) i ≤ data.length := by
  have htext := hsound.sizes .text (by decide)
  have hdata := hsound.sizes .data (by decide)
  have hrodata := hsound.sizes .rodata (by decide)
  have hsum := hsound.sections
  have htext' : (headerField data 0).toInt = (headerField data 0).toNat :=
    (toInt_of_nonneg htext).1
  have hdata' : (headerField data 1).toInt = (headerField data 1).toNat :=
    (toInt_of_nonneg hdata).1
  have hrodata' : (headerField data 2).toInt = (headerField data 2).toNat :=
    (toInt_of_nonneg hrodata).1
  rw [ovlSections_eq]
  cases i with
  | text => exact ⟨rfl, Nat.zero_le _⟩
  | data =>
      refine ⟨rfl, ?_⟩
      simp only [fileStart, headerSizes, OvlSection.index]
      omega
  | rodata =>
      simp only [fileStart, headerSizes, OvlSection.index, BitVec.toNat_add]
      omega
  | bss => exact absurd rfl hi

/-- What the listing asks of a word, in the word's own fields. -/
def NamesWordInFile (data : List Byte) (r : Word) : Prop :=
  ∃ i, i ≠ OvlSection.bss ∧ r.toNat / 2 ^ 30 = i.index + 1 ∧ r.toNat / 2 ^ 24 % 64 ≤ 50 ∧
    fileStart (headerSizes data) i + r.toNat % 2 ^ 24 + 4 ≤ data.length

theorem ovlRelocGetAbsAddr_of_section {ovl : Ovl} {r : Word} {i : OvlSection}
    (hi : r.toNat / 2 ^ 30 = i.index + 1) :
    ovlRelocGetAbsAddr ovl r = some ((ovl.sections i).addr + ovlRelocGetAddr r).toInt := by
  have hsec : OvlSection.all[(ovlRelocGetSec r).toNat]? = some i := by
    rw [OvlSection.all_getElem?_eq_some, toNat_ovlRelocGetSec, if_neg (by omega)]
    omega
  rw [ovlRelocGetAbsAddr, hsec]

theorem exists_section_of_lt {r : Word} (hsec : (ovlRelocGetSec r).toNat < 4) :
    ∃ i, i ≠ OvlSection.bss ∧ r.toNat / 2 ^ 30 = i.index + 1 := by
  have hlt := r.isLt
  rw [toNat_ovlRelocGetSec] at hsec
  split at hsec
  · omega
  · have hcases : r.toNat / 2 ^ 30 = 1 ∨ r.toNat / 2 ^ 30 = 2 ∨ r.toNat / 2 ^ 30 = 3 := by omega
    rcases hcases with hone | htwo | hthree
    · exact ⟨.text, by decide, hone⟩
    · exact ⟨.data, by decide, htwo⟩
    · exact ⟨.rodata, by decide, hthree⟩

/-- An `int` position is in a file shorter than 2 GiB exactly when its sum
does not run past the end: a sum that comes out negative is larger than any
such file. -/
theorem toInt_add_inside_iff {x y : Word} {s k n : ℕ} (hx : x.toNat = s) (hy : y.toNat = k)
    (hs : s ≤ n) (hn : n < 2 ^ 31) (hk : k < 2 ^ 24) :
    0 ≤ (x + y).toInt ∧ (x + y).toInt + 4 ≤ n ↔ s + k + 4 ≤ n := by
  rw [BitVec.toInt_eq_toNat_cond, BitVec.toNat_add, hx, hy]
  split <;> omega

/-- A word's three uses stay inside exactly when the word names a section,
a type with a name and a place where a word ends in the file. -/
theorem listedInside_iff {bytes : List Byte} {ovl : Ovl} (hsound : SoundHeader (fileData bytes))
    (hload : ovlLoad bytes = .ok ovl) (r : Word) :
    ListedInside ovl r ↔ NamesWordInFile (fileData bytes) r := by
  obtain ⟨hsections, -, hfilesize, hshort⟩ := ovlLoad_of_soundHeader hsound hload
  have hword {i : OvlSection} (hi : i ≠ .bss) (hsec : r.toNat / 2 ^ 30 = i.index + 1) :
      (∃ a, ovlRelocGetAbsAddr ovl r = some a ∧ 0 ≤ a ∧ a + 4 ≤ ovl.filesize) ↔
        fileStart (headerSizes (fileData bytes)) i + r.toNat % 2 ^ 24 + 4 ≤
          (fileData bytes).length := by
    obtain ⟨haddr, hle⟩ := hsound.addr_eq hshort hi
    rw [ovlRelocGetAbsAddr_of_section hsec, hsections, hfilesize,
      ← toInt_add_inside_iff haddr (toNat_ovlRelocGetAddr r) hle hshort (by omega)]
    simp
  constructor
  · rintro ⟨hsec, htype, hinside⟩
    obtain ⟨i, hi, hindex⟩ := exists_section_of_lt hsec
    rw [novlStrReloc_ne_none, toNat_ovlRelocGetType] at htype
    exact ⟨i, hi, hindex, htype, (hword hi hindex).mp hinside⟩
  · rintro ⟨i, hi, hindex, htype, hend⟩
    refine ⟨?_, ?_, (hword hi hindex).mpr hend⟩
    · have hlt := r.isLt
      rw [toNat_ovlRelocGetSec, if_neg (by omega)]
      omega
    · rw [novlStrReloc_ne_none, toNat_ovlRelocGetType]
      exact htype

/-- A line is printed exactly when its word's uses stay inside. -/
theorem listRelocation_ne_none {bytes : List Byte} {ovl : Ovl} {base : Word}
    (hsound : SoundHeader (fileData bytes)) (hload : ovlLoad bytes = .ok ovl) (r : Word) :
    listRelocation base ovl r ≠ none ↔ ListedInside ovl r := by
  obtain ⟨-, hdata, hfilesize, -⟩ := ovlLoad_of_soundHeader hsound hload
  rw [listRelocation]
  constructor
  · intro hline
    split at hline
    · rename_i a i type ha hi htype
      rw [fileWord] at hline
      split at hline
      · rename_i w hw
        split at hw
        · rename_i hin
          refine ⟨?_, by rw [htype]; simp, a, ha, hin.1, ?_⟩
          · rw [OvlSection.all_getElem?_eq_some.mp hi]
            cases i <;> decide
          · rw [hfilesize, ← hdata]
            exact hin.2
        · cases hw
      · exact absurd rfl hline
    · exact absurd rfl hline
  · rintro ⟨hsec, htype, a, ha, hpos, hend⟩
    obtain ⟨type, htype⟩ := Option.ne_none_iff_exists'.mp htype
    have hi := List.getElem?_eq_getElem (l := OvlSection.all) hsec
    rw [hfilesize, ← hdata] at hend
    have hw : fileWord ovl.data a = some (loadWord (fileMemory ovl.data) a.toNat) :=
      if_pos ⟨hpos, hend⟩
    simp only [ha, hi, htype, hw]
    exact Option.some_ne_none _

/-- On a file with a sound header the listing stays inside its tables and
the file for just those words that name a section, a type with a name and
a place where a word ends in the file. -/
theorem listRelocations_inside_iff {bytes : List Byte} {ovl : Ovl}
    (hsound : SoundHeader (fileData bytes)) (hload : ovlLoad bytes = .ok ovl) :
    (∀ r, ListedInside ovl r ↔ NamesWordInFile (fileData bytes) r) ∧
      ∀ base, listRelocations base ovl ≠ none ↔
        ∀ r ∈ ovl.relocations, NamesWordInFile (fileData bytes) r := by
  have hinside := listedInside_iff hsound hload
  refine ⟨hinside, fun base => ?_⟩
  rw [listRelocations, mapM_ne_none_iff]
  refine forall₂_congr fun r _ => ?_
  rw [listRelocation_ne_none hsound hload, hinside]

/-- A file of 48 bytes: 16 bytes of `.text` and a pointer at their end. -/
def pointerFile : List Byte :=
  [0, 0, 0, 0x8080000C, 16, 0, 0, 0, 1, 0x4200000C, 0, 32].flatMap wordBytes

theorem pointerFile_soundHeader : SoundHeader (fileData pointerFile) where
  aligned := by decide +kernel
  inside := by decide +kernel
  header := by decide +kernel
  count := by decide +kernel
  table := by decide +kernel
  sizes := by
    intro i hi
    cases i <;> decide +kernel
  sections := by decide +kernel

theorem pointerFile_listed :
    ∃ ovl, ovlLoad pointerFile = .ok ovl ∧ ListedInside ovl 0x4200000C ∧
      listRelocations 0x80800000 ovl ≠ none := by
  obtain ⟨ovl, hload, hovl⟩ := exists_ok_of_map (x := ovlLoad pointerFile)
    (fun ovl => decide (ovl.relocations = [0x4200000C])) (by decide +kernel)
  obtain ⟨hinside, hlisted⟩ := listRelocations_inside_iff pointerFile_soundHeader hload
  have hnamed : NamesWordInFile (fileData pointerFile) 0x4200000C :=
    ⟨.text, by decide, by decide, by decide, by decide +kernel⟩
  refine ⟨ovl, hload, (hinside _).mpr hnamed, (hlisted _).mpr ?_⟩
  rw [of_decide_eq_true hovl, List.forall_mem_singleton]
  exact hnamed

/-- A file of 32 bytes without section data, with a table of one null
word. -/
def nullWordFile : List Byte := [0, 0, 0, 0, 1, 0, 0, 32].flatMap wordBytes

/-- Its header is sound and it loads, but the word has section number 0. -/
theorem nullWordFile_not_inside :
    SoundHeader (fileData nullWordFile) ∧
      ∃ ovl, ovlLoad nullWordFile = .ok ovl ∧ 0 ∈ ovl.relocations ∧ ¬ ListedInside ovl 0 := by
  refine ⟨?_, ?_⟩
  · constructor
    case sizes =>
      intro i hi
      cases i <;> decide +kernel
    all_goals decide +kernel
  · obtain ⟨ovl, hload, hovl⟩ := exists_ok_of_map (x := ovlLoad nullWordFile)
      (fun ovl => decide (0 ∈ ovl.relocations)) (by decide +kernel)
    refine ⟨ovl, hload, of_decide_eq_true hovl, fun hinside => ?_⟩
    exact absurd hinside.section_ (by decide)

end Novl
