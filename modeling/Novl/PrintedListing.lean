import Novl.DisassemblyText

/-!
What the printed disassembly tells.

A line is printed at an address of eight digits and ends with its text, and
a heading cannot be taken for an instruction. So the output can be read
back line by line. With `-V` it tells all words and their addresses;
without, all but the bits that the texts do not show.
-/

namespace Novl

open Separated

/-- The lines that `disassemble` prints. -/
def DisassemblyLine.Listed (filename : List Char) : DisassemblyLine → Prop
  | .heading f section_ => f = filename ∧ ∃ i : OvlSection, section_ = i.name
  | .instruction addr w text => text = mr4kdDisassemble w addr

/-- Two lines between which the output does not tell: the words may differ
in bits that are not shown. -/
def DisassemblyLine.Alike : DisassemblyLine → DisassemblyLine → Prop
  | .heading _ section_, .heading _ section' => section_ = section'
  | .instruction addr w _, .instruction addr' w' _ =>
    addr = addr' ∧ decodeOp w = decodeOp w' ∧ w &&& shownBits w = w' &&& shownBits w
  | _, _ => False

theorem disassembleWords_listed (filename : List Char) {ovl : Ovl} {i : OvlSection} {turns n : ℕ}
    {addr last : Word} {lines : List DisassemblyLine}
    (h : disassembleWords ovl i turns n addr = some (lines, last)) :
    ∀ l ∈ lines, l.Listed filename := by
  induction turns generalizing n addr last lines with
  | zero =>
      obtain ⟨rfl, -⟩ := Prod.mk.inj (Option.some.inj h)
      simp
  | succ turns ih =>
      rw [disassembleWords] at h
      split at h
      · cases h
      split at h
      · cases h
      next hrest =>
        obtain ⟨rfl, -⟩ := Prod.mk.inj (Option.some.inj h)
        intro l hl
        rcases List.mem_cons.mp hl with rfl | hl
        · rfl
        · exact ih hrest l hl

theorem disassembleSections_listed {filename : List Char} {ovl : Ovl} {is : List OvlSection}
    {addr : Word} {lines : List DisassemblyLine}
    (h : disassembleSections filename ovl is addr = some lines) :
    ∀ l ∈ lines, l.Listed filename := by
  induction is generalizing addr lines with
  | nil =>
      obtain rfl := Option.some.inj h
      simp
  | cons i is ih =>
      rw [disassembleSections] at h
      split at h
      · cases h
      next hwords =>
        split at h
        · cases h
        next hrest =>
          obtain rfl := Option.some.inj h
          intro l hl
          rcases List.mem_cons.mp hl with rfl | hl
          · exact ⟨rfl, i, rfl⟩
          rcases List.mem_append.mp hl with hl | hl
          · exact disassembleWords_listed filename hwords l hl
          · exact ih hrest l hl

theorem disassemble_listed {filename : List Char} {all : Bool} {base : Word} {ovl : Ovl}
    {lines : List DisassemblyLine} (h : disassemble filename all base ovl = some lines) :
    ∀ l ∈ lines, l.Listed filename :=
  disassembleSections_listed h

/-! ### One line -/

theorem hexPrint_word_eq_iff {a b : Word} :
    hexPrint upperDigits 8 a.toNat = hexPrint upperDigits 8 b.toNat ↔ a = b := by
  rw [hexPrint_eq_iff (by decide), Nat.mod_eq_of_lt, Nat.mod_eq_of_lt, BitVec.toNat_inj]
  · exact b.isLt
  · exact a.isLt

/-- An address of eight digits ends behind them. -/
theorem hexPrint_append_eq_iff {a b : Word} {rest rest' : List Char} :
    hexPrint upperDigits 8 a.toNat ++ rest = hexPrint upperDigits 8 b.toNat ++ rest' ↔
      a = b ∧ rest = rest' := by
  constructor
  · intro heq
    obtain ⟨hdigits, hrest⟩ := List.append_inj heq (by rw [length_hexPrint, length_hexPrint])
    exact ⟨hexPrint_word_eq_iff.mp hdigits, hrest⟩
  · rintro ⟨rfl, rfl⟩
    rfl

/-- The text of a line ends at the end of the line. -/
theorem append_newline_eq_iff {text text' rest rest' : List Char} (h : '\n' ∉ text)
    (h' : '\n' ∉ text') :
    text ++ ['\n'] ++ rest = text' ++ ['\n'] ++ rest' ↔ text = text' ∧ rest = rest' := by
  have hword {l : List Char} (hl : '\n' ∉ l) : ∀ c ∈ l, (c != '\n') = true := by
    intro c hc
    exact bne_iff_ne.mpr fun heq => hl (heq ▸ hc)
  have hend {l : List Char} : ∀ c ∈ (['\n'] ++ l).head?, (c != '\n') = false := by
    intro c hc
    obtain rfl := Option.some.inj hc
    rfl
  constructor
  · intro heq
    rw [List.append_assoc, List.append_assoc] at heq
    obtain ⟨htext, hrest⟩ := append_inj_of_words (hword h) (hword h') hend hend heq
    exact ⟨htext, (List.cons.inj hrest).2⟩
  · rintro ⟨rfl, rfl⟩
    rfl

theorem newline_notMem_mr4kdDisassemble (w pc : Word) : '\n' ∉ mr4kdDisassemble w pc := by
  intro hmem
  exact absurd (printable_mr4kdDisassemble w pc _ hmem) (by decide)

/-- What stands between the address and the text. -/
def rawColumn (verbose : Bool) (w : Word) : List Char :=
  if verbose then ": (".toList ++ hexPrint upperDigits 8 w.toNat ++ ") ".toList else ": ".toList

theorem print_heading (verbose : Bool) (filename section_ : List Char) :
    (DisassemblyLine.heading filename section_).print verbose =
      "Disassembly of \"".toList ++ filename ++ "\": section ".toList ++ section_ ++ ['\n'] :=
  rfl

theorem print_instruction (verbose : Bool) (addr w : Word) (text : List Char) :
    (DisassemblyLine.instruction addr w text).print verbose =
      hexPrint upperDigits 8 addr.toNat ++ rawColumn verbose w ++ text ++ ['\n'] :=
  rfl

theorem rawColumn_eq_iff {verbose : Bool} {w w' : Word} :
    rawColumn verbose w = rawColumn verbose w' ↔ (verbose = true → w = w') := by
  cases verbose with
  | false => simp [rawColumn]
  | true =>
      unfold rawColumn
      rw [if_pos rfl, if_pos rfl, List.append_cancel_right_eq, List.append_cancel_left_eq,
        hexPrint_word_eq_iff]
      simp

theorem length_rawColumn (verbose : Bool) (w w' : Word) :
    (rawColumn verbose w).length = (rawColumn verbose w').length := by
  cases verbose with
  | false => rfl
  | true =>
      unfold rawColumn
      rw [if_pos rfl, if_pos rfl, List.length_append, List.length_append, List.length_append,
        List.length_append, length_hexPrint, length_hexPrint]

theorem instruction_print_append_eq_iff (verbose : Bool) {addr addr' w w' : Word}
    {rest rest' : List Char} :
    (DisassemblyLine.instruction addr w (mr4kdDisassemble w addr)).print verbose ++ rest =
        (DisassemblyLine.instruction addr' w' (mr4kdDisassemble w' addr')).print verbose ++ rest' ↔
      (addr = addr' ∧ (verbose = true → w = w') ∧
        mr4kdDisassemble w addr = mr4kdDisassemble w' addr') ∧ rest = rest' := by
  have hprint (a v : Word) (tail : List Char) :
      (DisassemblyLine.instruction a v (mr4kdDisassemble v a)).print verbose ++ tail =
        hexPrint upperDigits 8 a.toNat ++ (rawColumn verbose v ++
          (mr4kdDisassemble v a ++ ['\n'] ++ tail)) := by
    rw [print_instruction, List.append_assoc, List.append_assoc, List.append_assoc,
      List.append_assoc]
  rw [hprint, hprint, hexPrint_append_eq_iff]
  constructor
  · rintro ⟨haddr, heq⟩
    obtain ⟨hraw, heq⟩ := List.append_inj heq (length_rawColumn verbose _ _)
    obtain ⟨htext, hrest⟩ := (append_newline_eq_iff (newline_notMem_mr4kdDisassemble _ _)
      (newline_notMem_mr4kdDisassemble _ _)).mp heq
    exact ⟨⟨haddr, rawColumn_eq_iff.mp hraw, htext⟩, hrest⟩
  · rintro ⟨⟨haddr, hraw, htext⟩, rfl⟩
    exact ⟨haddr, by rw [rawColumn_eq_iff.mpr hraw, htext]⟩

theorem heading_print_append_eq_iff (verbose : Bool) {filename : List Char} {i j : OvlSection}
    {rest rest' : List Char} :
    (DisassemblyLine.heading filename i.name).print verbose ++ rest =
        (DisassemblyLine.heading filename j.name).print verbose ++ rest' ↔
      i.name = j.name ∧ rest = rest' := by
  have hname (i : OvlSection) : '\n' ∉ i.name := by
    cases i <;> decide
  rw [← append_newline_eq_iff (hname i) (hname j)]
  simp only [print_heading, List.append_assoc, List.append_cancel_left_eq]

/-- A heading cannot be taken for an instruction: its second letter is no
digit. -/
theorem heading_print_append_ne (verbose : Bool)
    (filename section_ rest : List Char) (addr w : Word) (text rest' : List Char) :
    (DisassemblyLine.heading filename section_).print verbose ++ rest ≠
      (DisassemblyLine.instruction addr w text).print verbose ++ rest' := by
  have hstart : "Disassembly of \"".toList = 'D' :: 'i' :: "sassembly of \"".toList := by
    decide +kernel
  have hdigit : ∀ k < 16, upperDigits.getD k '0' ≠ 'i' := by decide
  intro heq
  rw [print_heading, print_instruction, hstart, hexPrint_succ, hexPrint_succ] at heq
  obtain ⟨-, htail⟩ := List.cons.inj heq
  obtain ⟨hletter, -⟩ := List.cons.inj htail
  exact hdigit _ (Nat.mod_lt _ (by decide)) hletter.symm

/-- A line printed at the start of a text is told apart from any other, up
to what its own text does not show. -/
theorem print_append_eq_iff {filename : List Char} (verbose : Bool) {l l' : DisassemblyLine}
    (h : l.Listed filename) (h' : l'.Listed filename) (rest rest' : List Char) :
    l.print verbose ++ rest = l'.print verbose ++ rest' ↔
      (if verbose then l = l' else l.Alike l') ∧ rest = rest' := by
  cases l with
  | heading f section_ =>
      obtain ⟨rfl, i, rfl⟩ := h
      cases l' with
      | heading f' section' =>
          obtain ⟨rfl, j, rfl⟩ := h'
          rw [heading_print_append_eq_iff]
          cases verbose <;> simp [DisassemblyLine.Alike]
      | instruction addr' w' text' =>
          have hne := heading_print_append_ne verbose f i.name rest addr' w' text' rest'
          cases verbose <;> simp [DisassemblyLine.Alike, hne]
  | instruction addr w text =>
      obtain rfl : text = mr4kdDisassemble w addr := h
      cases l' with
      | heading f' section' =>
          have hne := heading_print_append_ne verbose f' section' rest' addr w
            (mr4kdDisassemble w addr) rest
          cases verbose <;> simp [DisassemblyLine.Alike, hne.symm]
      | instruction addr' w' text' =>
          obtain rfl : text' = mr4kdDisassemble w' addr' := h'
          rw [instruction_print_append_eq_iff]
          cases verbose with
          | true =>
              refine and_congr_left fun _ => ?_
              rw [if_pos rfl]
              constructor
              · rintro ⟨rfl, hword, -⟩
                obtain rfl := hword rfl
                rfl
              · rintro ⟨⟩
                exact ⟨rfl, fun _ => rfl, rfl⟩
          | false =>
              refine and_congr_left fun _ => ?_
              rw [if_neg Bool.false_ne_true, DisassemblyLine.Alike]
              constructor
              · rintro ⟨rfl, -, htext⟩
                exact ⟨rfl, (mr4kdDisassemble_eq_iff w w' addr).mp htext⟩
              · rintro ⟨rfl, hbits⟩
                exact ⟨rfl, fun h => absurd h Bool.false_ne_true,
                  (mr4kdDisassemble_eq_iff w w' addr).mpr hbits⟩

theorem print_ne_nil (verbose : Bool) (l : DisassemblyLine) : l.print verbose ≠ [] := by
  cases l with
  | heading f section_ =>
      rw [print_heading]
      exact List.append_ne_nil_of_right_ne_nil _ (List.cons_ne_nil _ _)
  | instruction addr w text =>
      rw [print_instruction]
      exact List.append_ne_nil_of_right_ne_nil _ (List.cons_ne_nil _ _)

/-- The output determines the lines. With `-V` two disassemblies of one
file name are printed alike only if they have, under the same section
headings, the same words at the same addresses; without, exactly if they
have, under the same section headings, words of the same rows that agree in
the bits which are shown. -/
theorem disassemble_output_eq_iff {filename : List Char} {all all' : Bool} {base base' : Word}
    {ovl ovl' : Ovl} {lines lines' : List DisassemblyLine}
    (h : disassemble filename all base ovl = some lines)
    (h' : disassemble filename all' base' ovl' = some lines') :
    (lines.flatMap (DisassemblyLine.print true) = lines'.flatMap (DisassemblyLine.print true) ↔
        lines = lines') ∧
      (lines.flatMap (DisassemblyLine.print false) =
          lines'.flatMap (DisassemblyLine.print false) ↔
        List.Forall₂ DisassemblyLine.Alike lines lines') := by
  have hlines (verbose : Bool) := flatMap_eq_iff (fun l _ => print_ne_nil verbose l)
    (fun l l' (hl : l.Listed filename) hl' => print_append_eq_iff verbose hl hl')
    (disassemble_listed h) (disassemble_listed h')
  refine ⟨?_, ?_⟩
  · rw [hlines true]
    simp only [if_true, List.forall₂_eq_eq_eq]
  · rw [hlines false]
    simp only [Bool.false_eq_true, if_false]

/-! Two words that differ in a bit `JR` does not have an operand for. -/

def oneWordOvl (w : Word) : Ovl where
  sections i := ⟨0, if i = .text then 4 else 0, some 0⟩
  relocationCount := 0
  data := wordBytes w
  filesize := 4
  relocations := []

def oneWordLines (w : Word) : List DisassemblyLine :=
  [.heading "a.ovl".toList OvlSection.text.name,
    .instruction 0x80800000 w "jr              ra".toList]

theorem oneWordOvl_output :
    (oneWordLines 0x03E00008).flatMap (DisassemblyLine.print false) =
        (oneWordLines 0x03E00048).flatMap (DisassemblyLine.print false) ∧
      (oneWordLines 0x03E00008).flatMap (DisassemblyLine.print true) ≠
        (oneWordLines 0x03E00048).flatMap (DisassemblyLine.print true) := by
  have hlines : disassemble "a.ovl".toList false 0x80800000 (oneWordOvl 0x03E00008) =
      some (oneWordLines 0x03E00008) := by decide +kernel
  have hlines' : disassemble "a.ovl".toList false 0x80800000 (oneWordOvl 0x03E00048) =
      some (oneWordLines 0x03E00048) := by decide +kernel
  obtain ⟨hverbose, hplain⟩ := disassemble_output_eq_iff hlines hlines'
  have halike : DisassemblyLine.Alike
      (.instruction 0x80800000 0x03E00008 "jr              ra".toList)
      (.instruction 0x80800000 0x03E00048 "jr              ra".toList) :=
    ⟨rfl, by decide +kernel, by decide +kernel⟩
  refine ⟨hplain.mpr (.cons rfl (.cons halike .nil)), fun heq => ?_⟩
  exact absurd (hverbose.mp heq) (by decide)

end Novl
