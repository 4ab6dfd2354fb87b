import Novl.PrintedListing
import Novl.RelocationListing
import Novl.SizeFormat

/-!
What the printed tables tell, `list_sections` and `list_relocations` in
`main.c`.

The columns are padded with blanks, and no name has one in it, so a line
can be taken apart again. The two tables of an overlay together tell its
sections and its relocation words: a line of the second names the section
and the type of its word, and its address is counted from the start of the
section, which the first one shows.
-/

namespace Novl

open ByteMemory FallibleRun Separated

/-! ### The lines -/

/-- `%-10s` and the like. -/
def padRight (n : ℕ) (s : List Char) : List Char := s ++ List.replicate (n - s.length) ' '

/-- `%i`. -/
def printInt (n : ℤ) : List Char :=
  if n < 0 then '-' :: Nat.toDigits 10 n.natAbs else Nat.toDigits 10 n.natAbs

/-- A line of `list_sections`; `human` is the flag `-h`. -/
def sectionLine (human : Bool) (row : List Char × Word × ℤ) : List Char :=
  padRight 10 row.1 ++ " 0x".toList ++ hexPrint upperDigits 8 row.2.1.toNat ++ "     ".toList ++
    (if human then formatValue (BitVec.ofInt 32 row.2.2) else printInt row.2.2) ++ ['\n']

/-- A line of `list_relocations`. -/
def relocationLine (row : Word × List Char × String × Word) : List Char :=
  "0x".toList ++ hexPrint upperDigits 8 row.1.toNat ++ "  ".toList ++ padRight 8 row.2.1 ++
    "  ".toList ++ padRight 14 row.2.2.1.toList ++ "  0x".toList ++
    hexPrint upperDigits 8 row.2.2.2.toNat ++ ['\n']

/-- What `list_sections` prints. -/
def listSectionsOutput (filename : List Char) (human : Bool) (base : Word) (ovl : Ovl) :
    List Char :=
  "Dump of sections from \"".toList ++ filename ++ "\":\n".toList ++
    "NAME       ADDRESS        SIZE\n".toList ++
    (listSections base ovl).flatMap (sectionLine human) ++ "\n\n".toList

/-- What `list_relocations` prints. -/
def listRelocationsOutput (filename : List Char) (base : Word) (ovl : Ovl) :
    Option (List Char) :=
  (listRelocations base ovl).map fun rows =>
    "Dump of relocations from \"".toList ++ filename ++ "\":\n".toList ++
      "ADDRESS     SECTION   REL TYPE        VALUE\n".toList ++ rows.flatMap relocationLine ++
      "\n\n".toList

example : sectionLine true (OvlSection.text.name, 0x80800000, 1536) =
    ".text      0x80800000     1.50k\n".toList := by decide +kernel

/-! ### Columns -/

/-- A column of a name without blanks ends at its first blank. -/
theorem padRight_append_eq_iff {n : ℕ} {s s' rest rest' : List Char} (hs : ' ' ∉ s)
    (hs' : ' ' ∉ s') :
    padRight n s ++ ' ' :: rest = padRight n s' ++ ' ' :: rest' ↔ s = s' ∧ rest = rest' := by
  have hword {l : List Char} (hl : ' ' ∉ l) : ∀ c ∈ l, (c != ' ') = true := by
    intro c hc
    exact bne_iff_ne.mpr fun heq => hl (heq ▸ hc)
  have hblank {k : ℕ} {l : List Char} :
      ∀ c ∈ (List.replicate k ' ' ++ ' ' :: l).head?, (c != ' ') = false := by
    intro c hc
    cases k with
    | zero =>
        obtain rfl := Option.some.inj hc
        rfl
    | succ k =>
        obtain rfl := Option.some.inj hc
        rfl
  constructor
  · intro heq
    rw [padRight, padRight, List.append_assoc, List.append_assoc] at heq
    obtain ⟨rfl, hrest⟩ := append_inj_of_words (hword hs) (hword hs') hblank hblank heq
    rw [List.append_cancel_left_eq] at hrest
    exact ⟨rfl, (List.cons.inj hrest).2⟩
  · rintro ⟨rfl, rfl⟩
    rfl

theorem isDigit_toDigits (n : ℕ) : ∀ c ∈ Nat.toDigits 10 n, c.isDigit = true :=
  fun _ hc => Nat.isDigit_of_mem_toDigits (by decide) (by decide) hc

theorem toDigits_inj {m n : ℕ} (h : Nat.toDigits 10 m = Nat.toDigits 10 n) : m = n := by
  rw [← Nat.ofDigitChars_ten_toDigits (n := m), h, Nat.ofDigitChars_ten_toDigits]

theorem newline_notMem_printInt (n : ℤ) : '\n' ∉ printInt n := by
  have hdigits : '\n' ∉ Nat.toDigits 10 n.natAbs := fun hmem =>
    absurd (isDigit_toDigits _ _ hmem) (by decide)
  rw [printInt]
  split_ifs
  · simp [hdigits]
  · exact hdigits

/-- The sign is no digit. -/
theorem printInt_inj {m n : ℤ} (h : printInt m = printInt n) : m = n := by
  have hsign {k l : ℕ} (heq : '-' :: Nat.toDigits 10 k = Nat.toDigits 10 l) : False := by
    have hmem : '-' ∈ Nat.toDigits 10 l := heq ▸ List.mem_cons_self
    exact absurd (isDigit_toDigits _ _ hmem) (by decide)
  rw [printInt, printInt] at h
  split_ifs at h
  · have habs := toDigits_inj (List.cons.inj h).2
    omega
  · exact (hsign h).elim
  · exact (hsign h.symm).elim
  · have habs := toDigits_inj h
    omega

theorem sectionLine_append_eq_iff {row row' : List Char × Word × ℤ} (h : ' ' ∉ row.1)
    (h' : ' ' ∉ row'.1) (rest rest' : List Char) :
    sectionLine false row ++ rest = sectionLine false row' ++ rest' ↔
      row = row' ∧ rest = rest' := by
  have hline (row : List Char × Word × ℤ) (rest : List Char) :
      sectionLine false row ++ rest = padRight 10 row.1 ++ ' ' :: ("0x".toList ++
        (hexPrint upperDigits 8 row.2.1.toNat ++ ("     ".toList ++
          (printInt row.2.2 ++ ['\n'] ++ rest)))) := by
    have hlit : " 0x".toList = ' ' :: "0x".toList := by decide
    unfold sectionLine
    simp only [hlit, List.append_assoc, List.cons_append, Bool.false_eq_true, if_false]
  rw [hline, hline, padRight_append_eq_iff h h', List.append_cancel_left_eq,
    hexPrint_append_eq_iff, List.append_cancel_left_eq,
    append_newline_eq_iff (newline_notMem_printInt _) (newline_notMem_printInt _), Prod.ext_iff,
    Prod.ext_iff, and_assoc, and_assoc]
  exact and_congr_right fun _ => and_congr_right fun _ =>
    and_congr_left fun _ => ⟨printInt_inj, congrArg printInt⟩

theorem relocationLine_append_eq_iff {row row' : Word × List Char × String × Word}
    (hname : ' ' ∉ row.2.1) (hname' : ' ' ∉ row'.2.1) (htype : ' ' ∉ row.2.2.1.toList)
    (htype' : ' ' ∉ row'.2.2.1.toList) (rest rest' : List Char) :
    relocationLine row ++ rest = relocationLine row' ++ rest' ↔ row = row' ∧ rest = rest' := by
  have hline (row : Word × List Char × String × Word) (rest : List Char) :
      relocationLine row ++ rest = "0x".toList ++ (hexPrint upperDigits 8 row.1.toNat ++
        ("  ".toList ++ (padRight 8 row.2.1 ++ ' ' :: (" ".toList ++
          (padRight 14 row.2.2.1.toList ++ ' ' :: (" 0x".toList ++
            (hexPrint upperDigits 8 row.2.2.2.toNat ++ (['\n'] ++ rest)))))))) := by
    have hgap : "  ".toList = ' ' :: " ".toList := by decide
    have hlit : "  0x".toList = ' ' :: " 0x".toList := by decide
    unfold relocationLine
    simp only [hlit, List.append_assoc, List.cons_append]
    rw [hgap]
    rfl
  rw [hline, hline, List.append_cancel_left_eq, hexPrint_append_eq_iff,
    List.append_cancel_left_eq, padRight_append_eq_iff hname hname', List.append_cancel_left_eq,
    padRight_append_eq_iff htype htype', List.append_cancel_left_eq, hexPrint_append_eq_iff,
    List.append_cancel_left_eq, String.toList_inj]
  simp only [Prod.ext_iff, and_assoc]

/-! ### Words of the table -/

theorem OvlSection.blank_notMem_name (i : OvlSection) : ' ' ∉ i.name := by
  cases i <;> decide

theorem blank_notMem_type : ∀ type ∈ novlStrRelocTypes, ' ' ∉ type.toList := by
  decide +kernel

theorem nodup_novlStrRelocTypes : novlStrRelocTypes.Nodup := by
  decide +kernel

/-- What a line says of its word. -/
theorem listRelocation_eq_some {base : Word} {ovl : Ovl} {r : Word}
    {row : Word × List Char × String × Word} (h : listRelocation base ovl r = some row) :
    ∃ i : OvlSection, (ovlRelocGetSec r).toNat = i.index ∧
      novlStrReloc (ovlRelocGetType r) = some row.2.2.1 ∧ row.2.1 = i.name ∧
      row.1 = (ovl.sections i).addr + ovlRelocGetAddr r + base := by
  rw [listRelocation] at h
  split at h
  · rename_i a i type ha hi htype
    rw [ovlRelocGetAbsAddr, hi] at ha
    obtain rfl := Option.some.inj ha
    split at h
    · obtain rfl := Option.some.inj h
      exact ⟨i, OvlSection.all_getElem?_eq_some.mp hi, htype, rfl, by rw [BitVec.ofInt_toInt]⟩
    · cases h
  · cases h

theorem novlStrReloc_inj {a b : Word} {type : String} (ha : novlStrReloc a = some type)
    (hb : novlStrReloc b = some type) : a = b := by
  rw [novlStrReloc] at ha hb
  obtain ⟨halt, hatype⟩ := List.getElem?_eq_some_iff.mp ha
  obtain ⟨hblt, hbtype⟩ := List.getElem?_eq_some_iff.mp hb
  rw [← BitVec.toNat_inj]
  exact nodup_novlStrRelocTypes.getElem_inj_iff.mp (hatype.trans hbtype.symm)

/-- A word of the table is put together from its three indices. -/
theorem eq_of_indices {r r' : Word} (hsec : ovlRelocGetSec r = ovlRelocGetSec r')
    (htype : ovlRelocGetType r = ovlRelocGetType r')
    (haddr : ovlRelocGetAddr r = ovlRelocGetAddr r') : r = r' := by
  rw [← BitVec.toNat_inj] at hsec htype haddr ⊢
  rw [toNat_ovlRelocGetSec, toNat_ovlRelocGetSec] at hsec
  rw [toNat_ovlRelocGetType, toNat_ovlRelocGetType] at htype
  rw [toNat_ovlRelocGetAddr, toNat_ovlRelocGetAddr] at haddr
  have hlt := r.isLt
  have hlt' := r'.isLt
  split_ifs at hsec <;> omega

/-- Where two overlays place their sections alike, one line is that of one
word. -/
theorem listRelocation_inj {base : Word} {ovl ovl' : Ovl}
    (hsections : ∀ i, (ovl.sections i).addr = (ovl'.sections i).addr) {r r' : Word}
    {row : Word × List Char × String × Word} (h : listRelocation base ovl r = some row)
    (h' : listRelocation base ovl' r' = some row) : r = r' := by
  obtain ⟨i, hsec, htype, hname, haddr⟩ := listRelocation_eq_some h
  obtain ⟨j, hsec', htype', hname', haddr'⟩ := listRelocation_eq_some h'
  obtain rfl : i = j := OvlSection.name_injective (hname.symm.trans hname')
  refine eq_of_indices ?_ (novlStrReloc_inj htype htype') ?_
  · rw [← BitVec.toNat_inj, hsec, hsec']
  · rw [haddr, ← hsections i, BitVec.add_left_inj, BitVec.add_right_inj] at haddr'
    exact haddr'

/-- The word that a word of the table relocates. -/
def relocatedWord (ovl : Ovl) (r : Word) : Option Word :=
  match ovlRelocGetAbsAddr ovl r with
  | none => none
  | some a => fileWord ovl.data a

/-- A line shows nothing but the places of the sections and the words. -/
theorem listRelocation_congr {base : Word} {ovl ovl' : Ovl}
    (hsections : ∀ i, (ovl.sections i).addr = (ovl'.sections i).addr) {r : Word}
    (hword : relocatedWord ovl r = relocatedWord ovl' r) :
    listRelocation base ovl r = listRelocation base ovl' r := by
  have haddr : ovlRelocGetAbsAddr ovl r = ovlRelocGetAbsAddr ovl' r := by
    rw [ovlRelocGetAbsAddr, ovlRelocGetAbsAddr]
    split
    · rfl
    · rw [hsections]
  rw [relocatedWord, relocatedWord, ← haddr] at hword
  rw [listRelocation, listRelocation, ← haddr]
  split
  · rename_i a i type ha hi htype
    simp only [ha] at hword
    rw [hword]
  · rfl

theorem relocatedWord_of_listRelocation {base : Word} {ovl : Ovl} {r : Word}
    {row : Word × List Char × String × Word} (h : listRelocation base ovl r = some row) :
    relocatedWord ovl r = some row.2.2.2 := by
  rw [listRelocation] at h
  rw [relocatedWord]
  split at h
  · rename_i a i type ha hi htype
    simp only [ha]
    split at h
    · rename_i w hw
      obtain rfl := Option.some.inj h
      exact hw
    · cases h
  · cases h

/-! ### The two tables -/

theorem listRelocations_good {base : Word} {ovl : Ovl}
    {rows : List (Word × List Char × String × Word)} (h : listRelocations base ovl = some rows) :
    ∀ row ∈ rows, ' ' ∉ row.2.1 ∧ ' ' ∉ row.2.2.1.toList := by
  intro row hrow
  obtain ⟨r, -, hr⟩ := exists_of_mem_mapM h hrow
  obtain ⟨i, -, htype, hname, -⟩ := listRelocation_eq_some hr
  refine ⟨?_, blank_notMem_type _ (List.mem_of_getElem? htype)⟩
  rw [hname]
  exact i.blank_notMem_name

theorem listSectionsOutput_eq_iff {filename : List Char} {base : Word} {ovl ovl' : Ovl} :
    listSectionsOutput filename false base ovl = listSectionsOutput filename false base ovl' ↔
      ∀ i, (ovl.sections i).addr = (ovl'.sections i).addr ∧
        (ovl.sections i).size = (ovl'.sections i).size := by
  have hgood (ovl : Ovl) : ∀ row ∈ listSections base ovl, ' ' ∉ row.1 := by
    intro row hrow
    obtain ⟨i, -, rfl⟩ := List.mem_map.mp hrow
    exact i.blank_notMem_name
  have hne (row : List Char × Word × ℤ) : sectionLine false row ≠ [] :=
    List.append_ne_nil_of_right_ne_nil _ (List.cons_ne_nil _ _)
  unfold listSectionsOutput
  rw [List.append_cancel_right_eq, List.append_cancel_left_eq,
    flatMap_eq_iff (fun row _ => hne row)
      (fun _ _ h h' rest rest' => sectionLine_append_eq_iff h h' rest rest') (hgood ovl)
      (hgood ovl'), List.forall₂_eq_eq_eq, listSections, listSections, List.map_inj_left]
  simp

theorem listRelocationsOutput_eq_iff {filename : List Char} {base : Word} {ovl ovl' : Ovl}
    {rows rows' : List (Word × List Char × String × Word)}
    (h : listRelocations base ovl = some rows) (h' : listRelocations base ovl' = some rows') :
    listRelocationsOutput filename base ovl = listRelocationsOutput filename base ovl' ↔
      rows = rows' := by
  have hne (row : Word × List Char × String × Word) : relocationLine row ≠ [] :=
    List.append_ne_nil_of_right_ne_nil _ (List.cons_ne_nil _ _)
  unfold listRelocationsOutput
  rw [h, h', Option.map_some, Option.map_some, Option.some.injEq, List.append_cancel_right_eq,
    List.append_cancel_left_eq,
    flatMap_eq_iff (fun row _ => hne row)
      (fun _ _ h h' rest rest' => relocationLine_append_eq_iff h.1 h'.1 h.2 h'.2 rest rest')
      (listRelocations_good h) (listRelocations_good h'), List.forall₂_eq_eq_eq]

/-- Printed without `-h`, the two tables together tell the sections, the
relocation words and the words these relocate, and nothing else. With `-h`
the sizes are rounded and no longer told apart. -/
theorem listings_output_eq_iff (filename : List Char) {base : Word} {ovl ovl' : Ovl}
    (h : listRelocations base ovl ≠ none) (h' : listRelocations base ovl' ≠ none) :
    (listSectionsOutput filename false base ovl = listSectionsOutput filename false base ovl' ∧
        listRelocationsOutput filename base ovl = listRelocationsOutput filename base ovl') ↔
      (∀ i, (ovl.sections i).addr = (ovl'.sections i).addr ∧
          (ovl.sections i).size = (ovl'.sections i).size) ∧
        ovl.relocations = ovl'.relocations ∧
        ∀ r ∈ ovl.relocations, relocatedWord ovl r = relocatedWord ovl' r := by
  obtain ⟨rows, hrows⟩ := Option.ne_none_iff_exists'.mp h
  obtain ⟨rows', hrows'⟩ := Option.ne_none_iff_exists'.mp h'
  rw [listSectionsOutput_eq_iff, listRelocationsOutput_eq_iff hrows hrows']
  refine and_congr_right fun hsections => ?_
  have haddrs (i : OvlSection) := (hsections i).1
  have hmap := mapM_eq_some_iff.mp hrows
  have hmap' := mapM_eq_some_iff.mp hrows'
  constructor
  · rintro rfl
    have hsame : ovl.relocations = ovl'.relocations :=
      eq_of_mapM_eq (fun r r' row => listRelocation_inj haddrs) hrows hrows'
    refine ⟨hsame, fun r hr => ?_⟩
    rw [← hmap', ← hsame] at hmap
    have hline := List.map_inj_left.mp hmap r hr
    obtain ⟨row, hrow⟩ := Option.ne_none_iff_exists'.mp (mapM_ne_none_iff.mp h r hr)
    rw [relocatedWord_of_listRelocation hrow,
      relocatedWord_of_listRelocation (hline.symm.trans hrow)]
  · rintro ⟨hsame, hwords⟩
    have hlines : ovl.relocations.map (listRelocation base ovl) =
        ovl.relocations.map (listRelocation base ovl') :=
      List.map_congr_left fun r hr => listRelocation_congr haddrs (hwords r hr)
    rw [hmap, hsame, hmap'] at hlines
    exact (List.map_injective_iff.mpr (Option.some_injective _)) hlines

/-- The file of 16 bytes of `.text` with another word at its start. -/
def otherPointerFile : List Byte :=
  [0x03E00008, 0, 0, 0x8080000C, 16, 0, 0, 0, 1, 0x4200000C, 0, 32].flatMap wordBytes

theorem pointerFile_tables :
    ∃ ovl ovl', ovlLoad pointerFile = .ok ovl ∧ ovlLoad otherPointerFile = .ok ovl' ∧
      listSectionsOutput "a.ovl".toList false 0x80800000 ovl =
        listSectionsOutput "a.ovl".toList false 0x80800000 ovl' ∧
      listRelocationsOutput "a.ovl".toList 0x80800000 ovl =
        listRelocationsOutput "a.ovl".toList 0x80800000 ovl' := by
  let check (ovl : Ovl) : Bool := decide (ovl.relocations = [0x4200000C#32] ∧
    (∀ i ∈ OvlSection.all, ovl.sections i =
      ovlSections (fun i => if i = .text then 16 else 0) i) ∧
    relocatedWord ovl 0x4200000C = some 0x8080000C#32 ∧
    (listRelocations 0x80800000 ovl).isSome = true)
  obtain ⟨ovl, hload, hovl⟩ := exists_ok_of_map (x := ovlLoad pointerFile) check (by decide +kernel)
  obtain ⟨ovl', hload', hovl'⟩ :=
    exists_ok_of_map (x := ovlLoad otherPointerFile) check (by decide +kernel)
  obtain ⟨hrelocs, hsections, hword, hlisted⟩ := of_decide_eq_true hovl
  obtain ⟨hrelocs', hsections', hword', hlisted'⟩ := of_decide_eq_true hovl'
  have htables := (listings_output_eq_iff "a.ovl".toList
    (Option.isSome_iff_ne_none.mp hlisted) (Option.isSome_iff_ne_none.mp hlisted')).mpr
  refine ⟨ovl, ovl', hload, hload', htables ⟨fun i => ?_, hrelocs.trans hrelocs'.symm, ?_⟩⟩
  · rw [hsections i i.mem_all, hsections' i i.mem_all]
    exact ⟨rfl, rfl⟩
  · intro r hr
    rw [hrelocs, List.mem_singleton] at hr
    rw [hr]
    exact hword.trans hword'.symm

end Novl
