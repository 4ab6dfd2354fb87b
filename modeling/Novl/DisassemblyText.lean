import Mathlib.Data.List.Nodup
import Novl.Disassembly
import Novl.Library.Separated

/-!
What can be read off a disassembled instruction.

The name ends at the first blank, and no two rows of the tables have the
same one, so the text tells the row. Its operands stand apart from each
other, so the text tells each of them, and with it the bits of the word it
was printed from. Other bits are not shown. A word without a row is shown
as it is.
-/

namespace Novl

open Separated SplitWord

/-! ### Formats as pieces -/

/-- A format taken apart into tokens and ordinary text. -/
def formatPieces : List Char → List (Piece Char (Char × Char))
  | '%' :: a :: b :: fmt => .field (a, b) :: formatPieces fmt
  | c :: fmt => .lit c :: formatPieces fmt
  | [] => []

theorem mr4kdSprintf_eq_render (name : String) (w pc : Word) (fmt : List Char) :
    mr4kdSprintf name w pc fmt =
      render (fun t => mr4kdToken name w pc t.1 t.2) (formatPieces fmt) := by
  induction fmt using formatPieces.induct with
  | case1 a b fmt ih => rw [mr4kdSprintf, formatPieces, render, ih]
  | case2 c fmt hne ih => rw [mr4kdSprintf, formatPieces, render, ih] <;> exact hne
  | case3 => rfl

/-- The tables of all groups. -/
def opGroups : List (List (ℕ × String × String)) :=
  [specialOps, regimmOps, tlbOps, cop0Ops, branchOps, singleOps, doubleOps, wordOps, longOps,
    cop1Ops, mainOps]

/-- All rows, with the one for the null word. -/
def allOps : List (String × String) := ("NOP", "%n0") :: opGroups.flatten.map Prod.snd

theorem mem_allOps_of_lookup {l : List (ℕ × String × String)} {n : ℕ} {row : String × String}
    (hl : l ∈ opGroups) (h : l.lookup n = some row) : row ∈ allOps := by
  obtain ⟨pre, post, rfl, -⟩ := List.lookup_eq_some_iff.mp h
  have hrow : (n, row) ∈ opGroups.flatten := List.mem_flatten.mpr ⟨_, hl, by simp⟩
  exact List.mem_cons_of_mem _ (List.mem_map_of_mem hrow)

/-- The rows are those of the tables. -/
theorem mem_allOps {w : Word} {row : String × String} (h : decodeOp w = some row) :
    row ∈ allOps := by
  rw [decodeOp] at h
  split at h
  · rw [special] at h
    split at h
    · obtain rfl := Option.some.inj h
      exact List.mem_cons_self
    · exact mem_allOps_of_lookup (by simp [opGroups]) h
  · exact mem_allOps_of_lookup (by simp [opGroups]) h
  · rw [cop0] at h
    split at h <;> exact mem_allOps_of_lookup (by simp [opGroups]) h
  · rw [cop1] at h
    split at h <;> exact mem_allOps_of_lookup (by simp [opGroups]) h
  · exact mem_allOps_of_lookup (by simp [opGroups]) h

/-! ### Numbers -/

@[simp] theorem length_hexPrint (digits : List Char) (n v : ℕ) :
    (hexPrint digits n v).length = n := by
  rw [hexPrint, List.length_map, List.length_reverse, List.length_range]

theorem hexPrint_succ (digits : List Char) (n v : ℕ) :
    hexPrint digits (n + 1) v = digits.getD (v / 16 ^ n % 16) '0' :: hexPrint digits n v := by
  rw [hexPrint, List.range_succ, List.reverse_append, List.map_append]
  rfl

/-- Numbers are printed alike exactly when they agree in the digits printed. -/
theorem hexPrint_eq_iff {digits : List Char}
    (hdigits : ((List.range 16).map fun k => digits.getD k '0').Nodup) {n v v' : ℕ} :
    hexPrint digits n v = hexPrint digits n v' ↔ v % 16 ^ n = v' % 16 ^ n := by
  induction n with
  | zero => simp [hexPrint, Nat.mod_one]
  | succ n ih =>
      have hpos : 0 < 16 ^ n := Nat.pow_pos (by decide)
      have hlt (x : ℕ) : x % 16 ^ n < 16 ^ n := Nat.mod_lt _ hpos
      have hdigit (x : ℕ) : x % 16 ∈ List.range 16 :=
        List.mem_range.mpr (Nat.mod_lt _ (by decide))
      rw [hexPrint_succ, hexPrint_succ, List.cons.injEq, ih, Nat.mod_pow_succ, Nat.mod_pow_succ]
      constructor
      · rintro ⟨hhead, hrest⟩
        rw [hrest, List.inj_on_of_nodup_map hdigits (hdigit _) (hdigit _) hhead]
      · intro heq
        have hrest : v % 16 ^ n = v' % 16 ^ n := by
          have hmod := congrArg (· % 16 ^ n) heq
          simpa [Nat.add_mul_mod_self_left, Nat.mod_eq_of_lt (hlt _)] using hmod
        refine ⟨?_, hrest⟩
        rw [hrest, Nat.add_left_cancel_iff] at heq
        rw [Nat.eq_of_mul_eq_mul_left hpos heq]

theorem hexWord_eq_iff {a b : Word} : hexWord a = hexWord b ↔ a = b := by
  rw [hexWord, hexWord, List.cons_inj_right, List.cons_inj_right,
    hexPrint_eq_iff (by decide), ← BitVec.toNat_inj, Nat.mod_eq_of_lt, Nat.mod_eq_of_lt]
  · exact b.isLt
  · exact a.isLt

/-! ### Operands -/

/-- The bits of the word that a token shows. -/
def tokenMask : Char × Char → Word
  | ('r', 's') => 0x1F#32 <<< 21
  | ('r', 't') | ('f', 't') => 0x1F#32 <<< 16
  | ('r', 'd') | ('f', 's') | ('c', 'p') => 0x1F#32 <<< 11
  | ('f', 'd') | ('s', 'a') => 0x1F#32 <<< 6
  | ('i', 'h') | ('b', 'r') => 0xFFFF#32
  | ('j', 'm') => 0x3FFFFFF#32
  | _ => 0

/-- The tokens for operands. -/
def operandTokens : List (Char × Char) :=
  [('r', 's'), ('r', 't'), ('r', 'd'), ('f', 's'), ('f', 't'), ('f', 'd'), ('c', 'p'), ('i', 'h'),
    ('b', 'r'), ('j', 'm'), ('s', 'a')]

/-- A field of five bits printed by a table without repetitions. -/
theorem print_field_eq_iff {print : ℕ → List Char} (hprint : ((List.range 32).map print).Nodup)
    (k : ℕ) (hk : 0x1F#32 <<< k >>> k = 0x1F#32) {w w' : Word} :
    print (w >>> k &&& 0x1F#32).toNat = print (w' >>> k &&& 0x1F#32).toNat ↔
      w &&& 0x1F#32 <<< k = w' &&& 0x1F#32 <<< k := by
  have hlt (x : Word) : (x >>> k &&& 0x1F#32).toNat ∈ List.range 32 := by
    have hmod := LowMask.toNat_and_mask (w := 32) (n := 5) (by decide) (x >>> k)
    rw [List.mem_range]
    exact lt_of_eq_of_lt hmod (Nat.mod_lt _ (by decide))
  rw [← LowMask.ushiftRight_and_eq_iff hk, ← BitVec.toNat_inj]
  exact ⟨List.inj_on_of_nodup_map hprint (hlt w) (hlt w'), congrArg print⟩

theorem printedTarget_eq_iff {w w' pc : Word} :
    printedTarget w pc = printedTarget w' pc ↔ w &&& 0x3FFFFFF#32 = w' &&& 0x3FFFFFF#32 := by
  have hmask (x : Word) : (x &&& 0x3FFFFFF#32).toNat = x.toNat % 2 ^ 26 :=
    LowMask.toNat_and_mask (w := 32) (n := 26) (by decide) x
  rw [← BitVec.toNat_inj, ← BitVec.toNat_inj, toNat_printedTarget, toNat_printedTarget, hmask,
    hmask]
  omega

theorem branchAddress_eq_iff {w w' pc : Word} :
    branchAddress w pc = branchAddress w' pc ↔ w &&& 0xFFFF#32 = w' &&& 0xFFFF#32 := by
  have hmask (x : Word) : (x &&& 0xFFFF#32).toNat = x.toNat % 2 ^ 16 :=
    LowMask.toNat_and_mask (w := 32) (n := 16) (by decide) x
  have hoffset (x : Word) : ((x.setWidth 16).signExtend 32 * 4#32).toNat =
      (if x.toNat % 2 ^ 16 < 2 ^ 15 then x.toNat % 2 ^ 16
        else x.toNat % 2 ^ 16 + (2 ^ 32 - 2 ^ 16)) * 4 % 2 ^ 32 := by
    rw [BitVec.toNat_mul, toNat_signExtend_half, BitVec.toNat_setWidth]
    rfl
  rw [branchAddress, branchAddress, BitVec.add_right_inj, ← BitVec.toNat_inj, ← BitVec.toNat_inj,
    hmask, hmask]
  have hw := hoffset w
  have hw' := hoffset w'
  constructor
  · intro heq
    have hsame := hw.symm.trans (heq.trans hw')
    split_ifs at hsame <;> omega
  · intro heq
    rw [heq] at hw
    exact hw.trans hw'.symm

theorem nodup_registers :
    ((List.range 32).map mr4kdRcpyGpr).Nodup ∧ ((List.range 32).map mr4kdRcpyFpr).Nodup ∧
      ((List.range 32).map fun n => (registersACop.getD n "").toList).Nodup ∧
      ((List.range 32).map (Nat.toDigits 10)).Nodup := by
  decide +kernel

/-- An operand shows the bits it is printed from, and no others. -/
theorem mr4kdToken_eq_iff {t : Char × Char} (ht : t ∈ operandTokens) (name : String)
    {w w' pc : Word} :
    mr4kdToken name w pc t.1 t.2 = mr4kdToken name w' pc t.1 t.2 ↔
      w &&& tokenMask t = w' &&& tokenMask t := by
  obtain ⟨hgpr, hfpr, hcop, hdigits⟩ := nodup_registers
  simp only [operandTokens, List.mem_cons, List.not_mem_nil, or_false] at ht
  rcases ht with rfl | rfl | rfl | rfl | rfl | rfl | rfl | rfl | rfl | rfl | rfl
  · exact print_field_eq_iff hgpr 21 (by decide)
  · exact print_field_eq_iff hgpr 16 (by decide)
  · exact print_field_eq_iff hgpr 11 (by decide)
  · exact print_field_eq_iff hfpr 11 (by decide)
  · exact print_field_eq_iff hfpr 16 (by decide)
  · exact print_field_eq_iff hfpr 6 (by decide)
  · exact print_field_eq_iff hcop 11 (by decide)
  · have hmask (x : Word) : opImmediate x % 16 ^ 4 = opImmediate x := by
      have hlow : opImmediate x = x.toNat % 2 ^ 16 :=
        LowMask.toNat_and_mask (w := 32) (n := 16) (by decide) x
      omega
    simp only [mr4kdToken, tokenMask, List.cons_inj_right]
    rw [hexPrint_eq_iff (by decide), hmask, hmask, opImmediate,
      opImmediate, BitVec.toNat_inj]
  · exact hexWord_eq_iff.trans branchAddress_eq_iff
  · exact hexWord_eq_iff.trans printedTarget_eq_iff
  · exact print_field_eq_iff hdigits 6 (by decide)

/-- A word of the text: letters and digits, and not more than ten. -/
def IsWord (l : List Char) : Prop := (∀ a ∈ l, a.isAlphanum = true) ∧ l.length ≤ 10

theorem isWord_iff {l : List Char} :
    IsWord l ↔ l.all Char.isAlphanum = true ∧ l.length ≤ 10 := by
  rw [IsWord, List.all_eq_true]

/-- By the list, and not by all characters. -/
instance (l : List Char) : Decidable (IsWord l) := decidable_of_iff' _ isWord_iff

theorem isWord_registers :
    (∀ k < 32, IsWord (mr4kdRcpyGpr k)) ∧ (∀ k < 32, IsWord (mr4kdRcpyFpr k)) ∧
      (∀ k < 32, IsWord (registersACop.getD k "").toList) ∧
      (∀ k < 32, IsWord (Nat.toDigits 10 k)) := by
  decide +kernel

theorem isAlphanum_hexPrint {digits : List Char}
    (hdigits : ∀ k < 16, (digits.getD k '0').isAlphanum = true) {n v : ℕ} :
    ∀ a ∈ hexPrint digits n v, a.isAlphanum = true := by
  intro a ha
  obtain ⟨k, -, rfl⟩ := List.mem_map.mp ha
  exact hdigits _ (Nat.mod_lt _ (by decide))

theorem isWord_hexPrint {n : ℕ} (hn : n ≤ 8) (v : ℕ) :
    IsWord ('0' :: 'x' :: hexPrint lowerDigits n v) := by
  refine ⟨fun a ha => ?_, ?_⟩
  · rcases List.mem_cons.mp ha with rfl | ha
    · decide
    rcases List.mem_cons.mp ha with rfl | ha
    · decide
    · exact isAlphanum_hexPrint (by decide) a ha
  · rw [List.length_cons, List.length_cons, length_hexPrint]
    omega

theorem isWord_mr4kdToken {t : Char × Char} (ht : t ∈ operandTokens) (name : String)
    (w pc : Word) : IsWord (mr4kdToken name w pc t.1 t.2) := by
  obtain ⟨hgpr, hfpr, hcop, hdigits⟩ := isWord_registers
  have hlt (k : ℕ) : (w >>> k &&& 0x1F#32).toNat < 32 := by
    have hmod := LowMask.toNat_and_mask (w := 32) (n := 5) (by decide) (w >>> k)
    exact lt_of_eq_of_lt hmod (Nat.mod_lt _ (by decide))
  simp only [operandTokens, List.mem_cons, List.not_mem_nil, or_false] at ht
  rcases ht with rfl | rfl | rfl | rfl | rfl | rfl | rfl | rfl | rfl | rfl | rfl
  · exact hgpr _ (hlt 21)
  · exact hgpr _ (hlt 16)
  · exact hgpr _ (hlt 11)
  · exact hfpr _ (hlt 11)
  · exact hfpr _ (hlt 16)
  · exact hfpr _ (hlt 6)
  · exact hcop _ (hlt 11)
  · exact isWord_hexPrint (by decide) _
  · exact isWord_hexPrint (by decide) _
  · exact isWord_hexPrint (by decide) _
  · exact hdigits _ (hlt 6)

/-! ### Rows -/

/-- What a format prints behind the name. -/
def operandFormat (fmt : String) : List (Piece Char (Char × Char)) :=
  formatPieces (fmt.toList.drop 3)

/-- A piece behind the name is an operand or one of the marks between them. -/
def IsMark : Piece Char (Char × Char) → Prop
  | .lit a => a ∈ ", ()".toList
  | .field t => t ∈ operandTokens

instance : DecidablePred IsMark
  | .lit a => inferInstanceAs (Decidable (a ∈ _))
  | .field t => inferInstanceAs (Decidable (t ∈ operandTokens))

/-- A row whose text can be read: a short name of small letters, digits and
dots, in its column or alone, and operands apart from each other. -/
structure Readable (row : String × String) : Prop where
  nonempty : lowerCase row.1 ≠ []
  short : (lowerCase row.1).length ≤ 9
  letters : ∀ c ∈ lowerCase row.1, c = '.' ∨ c.isLower = true ∨ c.isDigit = true
  format : row.2.toList = "%n0".toList ∨ row.2.toList.take 3 = "%ns".toList
  apart : Apart Char.isAlphanum (operandFormat row.2)
  marks : ∀ p ∈ operandFormat row.2, IsMark p
  few : (operandFormat row.2).length ≤ 7 ∧ (fields (operandFormat row.2)).length ≤ 3

theorem readable_of_mem {row : String × String} (h : row ∈ allOps) : Readable row := by
  have hall : ∀ row ∈ allOps, lowerCase row.1 ≠ [] ∧ (lowerCase row.1).length ≤ 9 ∧
      (lowerCase row.1).all (fun c => c = '.' ∨ c.isLower = true ∨ c.isDigit = true) = true ∧
      (row.2.toList = "%n0".toList ∨ row.2.toList.take 3 = "%ns".toList) ∧
      Apart Char.isAlphanum (operandFormat row.2) ∧ (∀ p ∈ operandFormat row.2, IsMark p) ∧
      (operandFormat row.2).length ≤ 7 ∧ (fields (operandFormat row.2)).length ≤ 3 := by
    decide +kernel
  obtain ⟨hnonempty, hshort, hletters, hformat, hapart, hmarks, hfew⟩ := hall row h
  refine ⟨hnonempty, hshort, fun c hc => ?_, hformat, hapart, hmarks, hfew⟩
  exact of_decide_eq_true (List.all_eq_true.mp hletters c hc)

/-- A name as a number, to compare names quickly. -/
def nameCode (name : List Char) : ℕ := name.foldl (fun n c => 256 * n + c.toNat) 0

theorem nodup_names : (allOps.map fun row => lowerCase row.1).Nodup := by
  refine List.Nodup.of_map nameCode ?_
  rw [List.map_map]
  decide +kernel

/-! ### The text of a word -/

/-- The operands of a row, as they are printed. -/
def operandText (row : String × String) (w pc : Word) : List Char :=
  render (fun t => mr4kdToken row.1 w pc t.1 t.2) (operandFormat row.2)

/-- The blanks between the name and the operands. -/
def nameBlanks (row : String × String) : ℕ :=
  if row.2.toList = "%n0".toList then 0 else 16 - (lowerCase row.1).length

/-- The text of a row: the name, blanks, and the operands. -/
theorem Readable.mr4kdSprintf_eq {row : String × String} (h : Readable row) (w pc : Word) :
    mr4kdSprintf row.1 w pc row.2.toList =
        lowerCase row.1 ++ (List.replicate (nameBlanks row) ' ' ++ operandText row w pc) ∧
      (nameBlanks row = 0 → operandText row w pc = []) := by
  have hnone : "%n0".toList = ['%', 'n', '0'] := by decide
  have hname : "%ns".toList = ['%', 'n', 's'] := by decide
  have hshort := h.short
  rw [nameBlanks, operandText, operandFormat]
  rcases h.format with hfmt | hfmt
  · rw [if_pos hfmt, hfmt, hnone]
    simp [mr4kdSprintf, mr4kdToken, formatPieces, render]
  · have hsplit : row.2.toList = '%' :: 'n' :: 's' :: row.2.toList.drop 3 := by
      rw [← List.take_append_drop 3 row.2.toList, hfmt, hname]
      rfl
    have hne : row.2.toList ≠ "%n0".toList := by
      rw [hsplit, hnone]
      simp
    rw [if_neg hne]
    refine ⟨?_, fun hzero => absurd hzero (by omega)⟩
    nth_rewrite 1 [hsplit]
    rw [mr4kdSprintf, mr4kdSprintf_eq_render, ← List.append_assoc]
    rfl

theorem mr4kdDisassemble_row {w : Word} {row : String × String} (hrow : decodeOp w = some row)
    (pc : Word) :
    mr4kdDisassemble w pc =
      lowerCase row.1 ++ (List.replicate (nameBlanks row) ' ' ++ operandText row w pc) := by
  rw [mr4kdDisassemble, hrow]
  exact ((readable_of_mem (mem_allOps hrow)).mr4kdSprintf_eq w pc).1

/-- The name of a row is the text up to the first blank. -/
theorem takeWhile_mr4kdDisassemble {w : Word} {row : String × String}
    (hrow : decodeOp w = some row) (pc : Word) :
    (mr4kdDisassemble w pc).takeWhile (· != ' ') = lowerCase row.1 := by
  have hreadable := readable_of_mem (mem_allOps hrow)
  have hname : ∀ c ∈ lowerCase row.1, (c != ' ') = true := by
    intro c hc
    rcases hreadable.letters c hc with rfl | hlower | hdigit
    · decide
    · exact bne_iff_ne.mpr fun heq => by subst heq; exact absurd hlower (by decide)
    · exact bne_iff_ne.mpr fun heq => by subst heq; exact absurd hdigit (by decide)
  rw [mr4kdDisassemble_row hrow, List.takeWhile_append_of_pos hname]
  cases hblanks : nameBlanks row with
  | zero =>
      rw [(hreadable.mr4kdSprintf_eq w pc).2 hblanks]
      simp
  | succ n => simp [List.replicate_succ]

theorem operandText_eq_iff {row : String × String} (h : Readable row) {w w' pc : Word} :
    operandText row w pc = operandText row w' pc ↔
      ∀ t ∈ fields (operandFormat row.2), w &&& tokenMask t = w' &&& tokenMask t := by
  have htokens : ∀ t ∈ fields (operandFormat row.2), t ∈ operandTokens := fun t ht =>
    h.marks _ (mem_fields.mp ht)
  rw [operandText, operandText, render_eq_iff h.apart
    (fun t ht => (isWord_mr4kdToken (htokens t ht) _ _ _).1)
    (fun t ht => (isWord_mr4kdToken (htokens t ht) _ _ _).1)]
  exact forall₂_congr fun t ht => mr4kdToken_eq_iff (htokens t ht) _

theorem reserv_eq_iff {w w' : Word} : reserv w = reserv w' ↔ w = w' := by
  refine ⟨fun heq => ?_, congrArg reserv⟩
  have hlast := (List.append_inj' heq (by rw [length_hexPrint, length_hexPrint])).2
  rwa [hexPrint_eq_iff (by decide), Nat.mod_eq_of_lt, Nat.mod_eq_of_lt, BitVec.toNat_inj] at hlast
  · exact w'.isLt
  · exact w.isLt

/-- The bits of a word that its text shows: those of its operands, and all
of them where there is no row. -/
def shownBits (w : Word) : Word :=
  match decodeOp w with
  | some row => (fields (operandFormat row.2)).foldr (fun t m => tokenMask t ||| m) 0
  | none => BitVec.allOnes 32

theorem and_foldr_or_eq_iff {mask : Char × Char → Word} {ts : List (Char × Char)} {w w' : Word} :
    w &&& ts.foldr (fun t m => mask t ||| m) 0 = w' &&& ts.foldr (fun t m => mask t ||| m) 0 ↔
      ∀ t ∈ ts, w &&& mask t = w' &&& mask t := by
  induction ts with
  | nil => simp
  | cons t ts ih =>
      rw [List.foldr_cons, List.forall_mem_cons, ← ih]
      constructor
      · intro heq
        have hpart {m : Word} (hm : (mask t ||| ts.foldr (fun t m => mask t ||| m) 0) &&& m = m) :
            w &&& m = w' &&& m := by
          rw [← hm, ← BitVec.and_assoc, heq, BitVec.and_assoc]
        refine ⟨hpart ?_, hpart ?_⟩
        · ext i hi
          simpa using fun hbit : (mask t)[i] = true => Or.inl hbit
        · ext i hi
          simpa using fun hbit => Or.inr hbit
      · rintro ⟨hhead, htail⟩
        rw [BitVec.and_or_distrib_left, hhead, htail, BitVec.and_or_distrib_left]

/-- The text of a word without a row starts with a capital letter. -/
theorem mr4kdDisassemble_ne {w w' : Word} {row : String × String} (hrow : decodeOp w = some row)
    (hnone : decodeOp w' = none) (pc : Word) :
    mr4kdDisassemble w pc ≠ mr4kdDisassemble w' pc := by
  have hreadable := readable_of_mem (mem_allOps hrow)
  intro heq
  rw [mr4kdDisassemble_row hrow, mr4kdDisassemble, hnone] at heq
  cases hname : lowerCase row.1 with
  | nil => exact hreadable.nonempty hname
  | cons c cs =>
      rw [hname] at heq
      obtain rfl : c = 'I' := (List.cons.inj heq).1
      have hletter := hreadable.letters 'I' (by rw [hname]; exact List.mem_cons_self)
      exact absurd hletter (by decide)

/-- Two words have one text at an address exactly when they are of one row
and agree in the bits that it shows. -/
theorem mr4kdDisassemble_eq_iff (w w' pc : Word) :
    mr4kdDisassemble w pc = mr4kdDisassemble w' pc ↔
      decodeOp w = decodeOp w' ∧ w &&& shownBits w = w' &&& shownBits w := by
  cases hrow : decodeOp w with
  | none =>
      cases hrow' : decodeOp w' with
      | none =>
          rw [mr4kdDisassemble, mr4kdDisassemble, shownBits, hrow, hrow']
          simp only [reserv_eq_iff, BitVec.and_allOnes, true_and]
      | some row' =>
          have hne := mr4kdDisassemble_ne hrow' hrow pc
          simp [hne.symm]
  | some row =>
      cases hrow' : decodeOp w' with
      | none =>
          have hne := mr4kdDisassemble_ne hrow hrow' pc
          simp [hne]
      | some row' =>
          have hoperands : operandText row w pc = operandText row w' pc ↔ _ :=
            operandText_eq_iff (readable_of_mem (mem_allOps hrow))
          rw [← and_foldr_or_eq_iff] at hoperands
          rw [shownBits, hrow, ← hoperands, Option.some.injEq]
          constructor
          · intro heq
            have hnames := congrArg (List.takeWhile (· != ' ')) heq
            rw [takeWhile_mr4kdDisassemble hrow, takeWhile_mr4kdDisassemble hrow'] at hnames
            obtain rfl : row = row' := List.inj_on_of_nodup_map nodup_names (mem_allOps hrow)
              (mem_allOps hrow') hnames
            rw [mr4kdDisassemble_row hrow, mr4kdDisassemble_row hrow',
              List.append_cancel_left_eq, List.append_cancel_left_eq] at heq
            exact ⟨rfl, heq⟩
          · rintro ⟨rfl, heq⟩
            rw [mr4kdDisassemble_row hrow, mr4kdDisassemble_row hrow', heq]

/-! ### The size of the text -/

/-- A character of printable ASCII. -/
def Printable (c : Char) : Prop := 0x20 ≤ c.toNat ∧ c.toNat ≤ 0x7E

instance : DecidablePred Printable := fun _ => inferInstanceAs (Decidable (_ ∧ _))

theorem printable_of_isAlphanum {c : Char} (h : c.isAlphanum = true) : Printable c := by
  change (decide (c.val ≥ 'A'.val ∧ c.val ≤ 'Z'.val) ||
    decide (c.val ≥ 'a'.val) && decide (c.val ≤ 'z'.val) ||
    decide (c.val ≥ '0'.val) && decide (c.val ≤ '9'.val)) = true at h
  simp only [Bool.or_eq_true, Bool.and_eq_true, decide_eq_true_eq, UInt32.le_iff_toNat_le,
    ge_iff_le] at h
  change ((65 ≤ c.toNat ∧ c.toNat ≤ 90) ∨ (97 ≤ c.toNat ∧ c.toNat ≤ 122)) ∨
    (48 ≤ c.toNat ∧ c.toNat ≤ 57) at h
  rw [Printable]
  omega

theorem Readable.printable_name {row : String × String} (h : Readable row) :
    ∀ c ∈ lowerCase row.1, Printable c := by
  intro c hc
  rcases h.letters c hc with rfl | hlower | hdigit
  · decide
  · have hletter : c.isAlpha = true := Bool.or_eq_true_iff.mpr (Or.inr hlower)
    exact printable_of_isAlphanum (Bool.or_eq_true_iff.mpr (Or.inl hletter))
  · exact printable_of_isAlphanum (Bool.or_eq_true_iff.mpr (Or.inr hdigit))

theorem Readable.printable_operandText {row : String × String} (h : Readable row) (w pc : Word) :
    ∀ c ∈ operandText row w pc, Printable c := by
  intro c hc
  have hmarks : ", ()".toList.all (Printable ·) = true := by decide
  rcases mem_render hc with hlit | ⟨t, ht, hct⟩
  · exact of_decide_eq_true (List.all_eq_true.mp hmarks c (h.marks _ hlit))
  · exact printable_of_isAlphanum
      ((isWord_mr4kdToken (h.marks _ (mem_fields.mp ht)) _ _ _).1 c hct)

theorem Readable.length_operandText_le {row : String × String} (h : Readable row)
    (w pc : Word) : (operandText row w pc).length ≤ 37 := by
  have hbound : (operandText row w pc).length ≤
      (operandFormat row.2).length + ((fields (operandFormat row.2)).map fun _ => 10).sum :=
    length_render_le fun t ht => (isWord_mr4kdToken (h.marks _ (mem_fields.mp ht)) row.1 w pc).2
  have hfew := h.few
  rw [List.map_const', List.sum_replicate, smul_eq_mul] at hbound
  exact hbound.trans (by omega)

theorem printable_reserv_literals :
    (∀ c ∈ "INVLD(".toList, Printable c) ∧ ∀ c ∈ ")       0x".toList, Printable c := by
  have hall : "INVLD(".toList.all (Printable ·) = true ∧
      ")       0x".toList.all (Printable ·) = true := by decide +kernel
  exact ⟨fun c hc => of_decide_eq_true (List.all_eq_true.mp hall.1 c hc),
    fun c hc => of_decide_eq_true (List.all_eq_true.mp hall.2 c hc)⟩

theorem length_reserv_literals :
    "INVLD(".toList.length = 6 ∧ ")       0x".toList.length = 10 := by
  decide +kernel

theorem printable_reserv (w : Word) : ∀ c ∈ reserv w, Printable c := by
  have hhex {n v : ℕ} {c : Char} (hc : c ∈ hexPrint upperDigits n v) : Printable c :=
    printable_of_isAlphanum (isAlphanum_hexPrint (by decide) c hc)
  intro c hc
  unfold reserv at hc
  rcases List.mem_append.mp hc with hc | hc
  · rcases List.mem_append.mp hc with hc | hc
    · rcases List.mem_append.mp hc with hc | hc
      · exact printable_reserv_literals.1 c hc
      · exact hhex hc
    · exact printable_reserv_literals.2 c hc
  · exact hhex hc

theorem length_reserv (w : Word) : (reserv w).length = 26 := by
  unfold reserv
  rw [List.length_append, List.length_append, List.length_append,
    length_reserv_literals.1, length_reserv_literals.2, length_hexPrint, length_hexPrint]

theorem printable_mr4kdDisassemble (w pc : Word) : ∀ c ∈ mr4kdDisassemble w pc, Printable c := by
  cases hrow : decodeOp w with
  | none =>
      have htext : mr4kdDisassemble w pc = reserv w := by rw [mr4kdDisassemble, hrow]
      rw [htext]
      exact printable_reserv w
  | some row =>
      have hreadable := readable_of_mem (mem_allOps hrow)
      intro c hc
      rw [mr4kdDisassemble_row hrow] at hc
      rcases List.mem_append.mp hc with hname | hc
      · exact hreadable.printable_name c hname
      rcases List.mem_append.mp hc with hblank | hoperand
      · obtain rfl := List.eq_of_mem_replicate hblank
        decide
      · exact hreadable.printable_operandText w pc c hoperand

/-- Every text fits in the buffer of `disassemble` and every name in those
of `mr4kd_sprintf`, and nothing but printable characters is written. -/
theorem mr4kdDisassemble_fits (w pc : Word) :
    (mr4kdDisassemble w pc).length < 512 ∧ (∀ c ∈ mr4kdDisassemble w pc, Printable c) ∧
      ∀ row, decodeOp w = some row → (lowerCase row.1).length < 32 := by
  refine ⟨?_, printable_mr4kdDisassemble w pc, fun row hrow => ?_⟩
  · cases hrow : decodeOp w with
    | none =>
        have htext : mr4kdDisassemble w pc = reserv w := by rw [mr4kdDisassemble, hrow]
        rw [htext, length_reserv]
        decide
    | some row =>
        have hreadable := readable_of_mem (mem_allOps hrow)
        have hshort := hreadable.short
        have hlength := hreadable.length_operandText_le w pc
        have hblanks : nameBlanks row ≤ 16 := by
          rw [nameBlanks]
          split_ifs <;> omega
        rw [mr4kdDisassemble_row hrow, List.length_append, List.length_append,
          List.length_replicate]
        omega
  · exact lt_of_le_of_lt (readable_of_mem (mem_allOps hrow)).short (by decide)

end Novl
