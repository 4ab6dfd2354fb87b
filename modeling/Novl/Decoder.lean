import Novl.Opprintf

/-!
The disassembler, `decoder.c`.

The source has a function for each instruction, which prints its name with
a format, and a `switch` for each group of instructions. Here a group is a
table with a row for each case: the case, the name and the format.
-/

namespace Novl

def specialOps : List (ℕ × String × String) :=
  [(0x00, "SLL", "%ns%rd, %rt, %sa"), (0x02, "SRL", "%ns%rd, %rt, %sa"),
    (0x03, "SRA", "%ns%rd, %rt, %sa"), (0x04, "SLLV", "%ns%rd, %rt, %rs"),
    (0x06, "SRLV", "%ns%rd, %rt, %rs"), (0x07, "SRAV", "%ns%rd, %rt, %rs"),
    (0x08, "JR", "%ns%rs"), (0x09, "JALR", "%ns%rd, %rs"), (0x0C, "SYSCALL", "%n0"),
    (0x0D, "BREAK", "%n0"), (0x0F, "SYNC", "%n0"), (0x10, "MFHI", "%ns%rd"),
    (0x11, "MTHI", "%ns%rs"), (0x12, "MFLO", "%ns%rd"), (0x13, "MTLO", "%ns%rs"),
    (0x14, "DSLLV", "%ns%rd, %rt, %rs"), (0x16, "DSRLV", "%ns%rd, %rt, %rs"),
    (0x17, "DSRAV", "%ns%rd, %rt, %rs"), (0x18, "MULT", "%ns%rs, %rt"),
    (0x19, "MULTU", "%ns%rs, %rt"), (0x1A, "DIV", "%ns%rs, %rt"), (0x1B, "DIVU", "%ns%rs, %rt"),
    (0x1C, "DMULT", "%ns%rs, %rt"), (0x1D, "DMULTU", "%ns%rs, %rt"),
    (0x1E, "DDIV", "%ns%rs, %rt"), (0x1F, "DDIVU", "%ns%rs, %rt"),
    (0x20, "ADD", "%ns%rd, %rs, %rt"), (0x21, "ADDU", "%ns%rd, %rs, %rt"),
    (0x22, "SUB", "%ns%rd, %rs, %rt"), (0x23, "SUBU", "%ns%rd, %rs, %rt"),
    (0x24, "AND", "%ns%rd, %rs, %rt"), (0x25, "OR", "%ns%rd, %rs, %rt"),
    (0x26, "XOR", "%ns%rd, %rs, %rt"), (0x27, "NOR", "%ns%rd, %rs, %rt"),
    (0x2A, "SLT", "%ns%rd, %rs, %rt"), (0x2B, "SLTU", "%ns%rd, %rs, %rt"),
    (0x2C, "DADD", "%ns%rd, %rs, %rt"), (0x2D, "DADDU", "%ns%rd, %rs, %rt"),
    (0x2E, "DSUB", "%ns%rd, %rs, %rt"), (0x2F, "DSUBU", "%ns%rd, %rs, %rt"),
    (0x30, "TGE", "%ns%rs, %rt"), (0x31, "TGEU", "%ns%rs, %rt"), (0x32, "TLT", "%ns%rs, %rt"),
    (0x33, "TLTU", "%ns%rs, %rt"), (0x34, "TEQ", "%ns%rs, %rt"), (0x36, "TNE", "%ns%rs, %rt"),
    (0x38, "DSLL", "%ns%rd, %rt, %sa"), (0x3A, "DSRL", "%ns%rd, %rt, %sa"),
    (0x3B, "DSRA", "%ns%rd, %rt, %sa"), (0x3C, "DSLL32", "%ns%rd, %rt, %sa"),
    (0x3E, "DSRL32", "%ns%rd, %rt, %sa"), (0x3F, "DSRA32", "%ns%rd, %rt, %sa")]

def regimmOps : List (ℕ × String × String) :=
  [(0x00, "BLTZ", "%ns%rs, %br"), (0x01, "BGEZ", "%ns%rs, %br"), (0x02, "BLTZL", "%ns%rs, %br"),
    (0x03, "BGEZL", "%ns%rs, %br"), (0x08, "TGEI", "%ns%rs, %ih"), (0x09, "TGEIU", "%ns%rs, %ih"),
    (0x0A, "TLTI", "%ns%rs, %ih"), (0x0B, "TLTIU", "%ns%rs, %ih"), (0x0C, "TEQI", "%ns%rs, %ih"),
    (0x0E, "TNEI", "%ns%rs, %ih"), (0x10, "BLTZAL", "%ns%rs, %br"),
    (0x11, "BGEZAL", "%ns%rs, %br"), (0x12, "BLTZALL", "%ns%rs, %br"),
    (0x13, "BGEZALL", "%ns%rs, %br")]

def tlbOps : List (ℕ × String × String) :=
  [(0x01, "TLBR", "%n0"), (0x02, "TLBWI", "%n0"), (0x06, "TLBWR", "%n0"), (0x08, "TLBP", "%n0"),
    (0x18, "ERET", "%n0")]

def cop0Ops : List (ℕ × String × String) :=
  [(0x00, "MFC0", "%ns%rt, %cp"), (0x04, "MTC0", "%ns%rt, %cp")]

def branchOps : List (ℕ × String × String) :=
  [(0x00, "BC1F", "%ns%br"), (0x01, "BC1T", "%ns%br"), (0x02, "BC1FL", "%ns%br"),
    (0x03, "BC1TL", "%ns%br")]

def singleOps : List (ℕ × String × String) :=
  [(0x00, "ADD.S", "%ns%fd, %fs, %ft"), (0x01, "SUB.S", "%ns%fd, %fs, %ft"),
    (0x02, "MUL.S", "%ns%fd, %fs, %ft"), (0x03, "DIV.S", "%ns%fd, %fs, %ft"),
    (0x04, "SQRT.S", "%ns%fd, %fs"), (0x05, "ABS.S", "%ns%fd, %fs"),
    (0x06, "MOV.S", "%ns%fd, %fs"), (0x07, "NEG.S", "%ns%fd, %fs"),
    (0x08, "ROUND.L.S", "%ns%fd, %fs"), (0x09, "TRUNC.L.S", "%ns%fd, %fs"),
    (0x0A, "CEIL.L.S", "%ns%fd, %fs"), (0x0B, "FLOOR.L.S", "%ns%fd, %fs"),
    (0x0C, "ROUND.W.S", "%ns%fd, %fs"), (0x0D, "TRUNC.W.S", "%ns%fd, %fs"),
    (0x0E, "CEIL.W.S", "%ns%fd, %fs"), (0x0F, "FLOOR.W.S", "%ns%fd, %fs"),
    (0x21, "CVT.D.S", "%ns%fd, %fs"), (0x24, "CVT.W.S", "%ns%fd, %fs"),
    (0x25, "CVT.L.S", "%ns%fd, %fs"), (0x30, "C.F.S", "%ns%fs, %ft"),
    (0x31, "C.UN.S", "%ns%fs, %ft"), (0x32, "C.EQ.S", "%ns%fs, %ft"),
    (0x33, "C.UEQ.S", "%ns%fs, %ft"), (0x34, "C.OLT.S", "%ns%fs, %ft"),
    (0x35, "C.ULT.S", "%ns%fs, %ft"), (0x36, "C.OLE.S", "%ns%fs, %ft"),
    (0x37, "C.ULE.S", "%ns%fs, %ft"), (0x38, "C.SF.S", "%ns%fs, %ft"),
    (0x39, "C.NGLE.S", "%ns%fs, %ft"), (0x3A, "C.SEQ.S", "%ns%fs, %ft"),
    (0x3B, "C.NGL.S", "%ns%fs, %ft"), (0x3C, "C.LT.S", "%ns%fs, %ft"),
    (0x3D, "C.NGE.S", "%ns%fs, %ft"), (0x3E, "C.LE.S", "%ns%fs, %ft"),
    (0x3F, "C.NGT.S", "%ns%fs, %ft")]

def doubleOps : List (ℕ × String × String) :=
  [(0x00, "ADD.D", "%ns%fd, %fs, %ft"), (0x01, "SUB.D", "%ns%fd, %fs, %ft"),
    (0x02, "MUL.D", "%ns%fd, %fs, %ft"), (0x03, "DIV.D", "%ns%fd, %fs, %ft"),
    (0x04, "SQRT.D", "%ns%fd, %fs"), (0x05, "ABS.D", "%ns%fd, %fs"),
    (0x06, "MOV.D", "%ns%fd, %fs"), (0x07, "NEG.D", "%ns%fd, %fs"),
    (0x08, "ROUND.L.D", "%ns%fd, %fs"), (0x09, "TRUNC.L.D", "%ns%fd, %fs"),
    (0x0A, "CEIL.L.D", "%ns%fd, %fs"), (0x0B, "FLOOR.L.D", "%ns%fd, %fs"),
    (0x0C, "ROUND.W.D", "%ns%fd, %fs"), (0x0D, "TRUNC.W.D", "%ns%fd, %fs"),
    (0x0E, "CEIL.W.D", "%ns%fd, %fs"), (0x0F, "FLOOR.W.D", "%ns%fd, %fs"),
    (0x20, "CVT.S.D", "%ns%fd, %fs"), (0x24, "CVT.W.D", "%ns%fd, %fs"),
    (0x25, "CVT.L.D", "%ns%fd, %fs"), (0x30, "C.F.D", "%ns%fs, %ft"),
    (0x31, "C.UN.D", "%ns%fs, %ft"), (0x32, "C.EQ.D", "%ns%fs, %ft"),
    (0x33, "C.UEQ.D", "%ns%fs, %ft"), (0x34, "C.OLT.D", "%ns%fs, %ft"),
    (0x35, "C.ULT.D", "%ns%fs, %ft"), (0x36, "C.OLE.D", "%ns%fs, %ft"),
    (0x37, "C.ULE.D", "%ns%fs, %ft"), (0x38, "C.SF.D", "%ns%fs, %ft"),
    (0x39, "C.NGLE.D", "%ns%fs, %ft"), (0x3A, "C.SEQ.D", "%ns%fs, %ft"),
    (0x3B, "C.NGL.D", "%ns%fs, %ft"), (0x3C, "C.LT.D", "%ns%fs, %ft"),
    (0x3D, "C.NGE.D", "%ns%fs, %ft"), (0x3E, "C.LE.D", "%ns%fs, %ft"),
    (0x3F, "C.NGT.D", "%ns%fs, %ft")]

def wordOps : List (ℕ × String × String) :=
  [(0x20, "CVT.S.W", "%ns%fd, %fs"), (0x21, "CVT.D.W", "%ns%fd, %fs")]

def longOps : List (ℕ × String × String) :=
  [(0x20, "CVT.S.L", "%ns%fd, %fs"), (0x21, "CVT.D.L", "%ns%fd, %fs")]

def cop1Ops : List (ℕ × String × String) :=
  [(0x00, "MFC1", "%ns%rt, %fs"), (0x01, "DMFC1", "%ns%rt, %fs"), (0x02, "CFC1", "%ns%rt, %fs"),
    (0x04, "MTC1", "%ns%rt, %fs"), (0x05, "DMTC1", "%ns%rt, %fs"), (0x06, "CTC1", "%ns%rt, %fs")]

/-- The cases of `mr4kd_disassemble` itself. -/
def mainOps : List (ℕ × String × String) :=
  [(0x02, "J", "%ns%jm"), (0x03, "JAL", "%ns%jm"), (0x04, "BEQ", "%ns%rs, %rt, %br"),
    (0x05, "BNE", "%ns%rs, %rt, %br"), (0x06, "BLEZ", "%ns%rs, %br"),
    (0x07, "BGTZ", "%ns%rs, %br"), (0x08, "ADDI", "%ns%rt, %rs, %ih"),
    (0x09, "ADDIU", "%ns%rt, %rs, %ih"), (0x0A, "SLTI", "%ns%rt, %rs, %ih"),
    (0x0B, "SLTIU", "%ns%rt, %rs, %ih"), (0x0C, "ANDI", "%ns%rt, %rs, %ih"),
    (0x0D, "ORI", "%ns%rt, %rs, %ih"), (0x0E, "XORI", "%ns%rt, %rs, %ih"),
    (0x0F, "LUI", "%ns%rt, %ih"), (0x14, "BEQL", "%ns%rs, %rt, %br"),
    (0x15, "BNEL", "%ns%rs, %rt, %br"), (0x16, "BLEZL", "%ns%rs, %br"),
    (0x17, "BGTZL", "%ns%rs, %br"), (0x18, "DADDI", "%ns%rt, %rs, %ih"),
    (0x19, "DADDIU", "%ns%rt, %rs, %ih"), (0x1A, "LDL", "%ns%rt, %ih(%rs)"),
    (0x1B, "LDR", "%ns%rt, %ih(%rs)"), (0x20, "LB", "%ns%rt, %ih(%rs)"),
    (0x21, "LH", "%ns%rt, %ih(%rs)"), (0x22, "LWL", "%ns%rt, %ih(%rs)"),
    (0x23, "LW", "%ns%rt, %ih(%rs)"), (0x24, "LBU", "%ns%rt, %ih(%rs)"),
    (0x25, "LHU", "%ns%rt, %ih(%rs)"), (0x26, "LWR", "%ns%rt, %ih(%rs)"),
    (0x27, "LWU", "%ns%rt, %ih(%rs)"), (0x28, "SB", "%ns%rt, %ih(%rs)"),
    (0x29, "SH", "%ns%rt, %ih(%rs)"), (0x2A, "SWL", "%ns%rt, %ih(%rs)"),
    (0x2B, "SW", "%ns%rt, %ih(%rs)"), (0x2C, "SDL", "%ns%rt, %ih(%rs)"),
    (0x2D, "SDR", "%ns%rt, %ih(%rs)"), (0x2E, "SWR", "%ns%rt, %ih(%rs)"),
    (0x2F, "CACHE", "%ns%rt, %ih(%rs)"), (0x30, "LL", "%ns%rt, %ih(%rs)"),
    (0x31, "LWC1", "%ns%ft, %ih(%rs)"), (0x34, "LLD", "%ns%rt, %ih(%rs)"),
    (0x35, "LDC1", "%ns%ft, %ih(%rs)"), (0x37, "LD", "%ns%rt, %ih(%rs)"),
    (0x38, "SC", "%ns%rt, %ih(%rs)"), (0x39, "SWC1", "%ns%ft, %ih(%rs)"),
    (0x3C, "SCD", "%ns%rt, %ih(%rs)"), (0x3D, "SDC1", "%ns%rt, %ih(%rs)"),
    (0x3F, "SD", "%ns%rt, %ih(%rs)")]

/-- The low six bits, which most groups go by. -/
def opFunc (mot : Word) : ℕ := (mot &&& 0x3F#32).toNat

/-- `special`. `SLL` prints another name for the null word. -/
def special (mot : Word) : Option (String × String) :=
  if mot = 0 then some ("NOP", "%n0") else specialOps.lookup (opFunc mot)

def regimm (mot : Word) : Option (String × String) := regimmOps.lookup (opRt mot)

def tlb (mot : Word) : Option (String × String) := tlbOps.lookup (opFunc mot)

def cop0 (mot : Word) : Option (String × String) :=
  match opRs mot with
  | 0x10 => tlb mot
  | n => cop0Ops.lookup n

/-- `BC`. -/
def branch (mot : Word) : Option (String × String) := branchOps.lookup (opRt mot % 4)

def cop1 (mot : Word) : Option (String × String) :=
  match opRs mot with
  | 0x08 => branch mot
  | 0x10 => singleOps.lookup (opFunc mot)
  | 0x11 => doubleOps.lookup (opFunc mot)
  | 0x14 => wordOps.lookup (opFunc mot)
  | 0x15 => longOps.lookup (opFunc mot)
  | n => cop1Ops.lookup n

/-- The name and the format of an instruction, if it has them. -/
def decodeOp (mot : Word) : Option (String × String) :=
  match opcode mot with
  | 0x00 => special mot
  | 0x01 => regimm mot
  | 0x10 => cop0 mot
  | 0x11 => cop1 mot
  | n => mainOps.lookup n

/-- `RESERV`. -/
def reserv (mot : Word) : List Char :=
  "INVLD(".toList ++ hexPrint upperDigits 2 (opcode mot) ++ ")       0x".toList ++
    hexPrint upperDigits 8 mot.toNat

/-- `mr4kd_disassemble`. -/
def mr4kdDisassemble (instruction counter : Word) : List Char :=
  match decodeOp instruction with
  | some (name, fmt) => mr4kdSprintf name instruction counter fmt.toList
  | none => reserv instruction

/-- A jump is printed as its name and its target. -/
theorem mr4kdDisassemble_jump {w : Word} {name : String} (pc : Word)
    (hname : opcode w = 2 ∧ name = "J" ∨ opcode w = 3 ∧ name = "JAL") :
    mr4kdDisassemble w pc = nameColumn name ++ hexWord (printedTarget w pc) := by
  have hdecode : decodeOp w = some (name, "%ns%jm") := by
    rcases hname with ⟨hop, rfl⟩ | ⟨hop, rfl⟩
    · rw [decodeOp, hop]
      rfl
    · rw [decodeOp, hop]
      rfl
  have hfmt : "%ns%jm".toList = ['%', 'n', 's', '%', 'j', 'm'] := by decide
  rw [mr4kdDisassemble, hdecode]
  simp only [hfmt]
  rw [mr4kdSprintf, mr4kdSprintf, mr4kdSprintf, List.append_nil]
  rfl

example : mr4kdDisassemble 0x27BDFFE8 0x80800000 = "addiu           sp, sp, 0xffe8".toList := by
  decide +kernel

end Novl
