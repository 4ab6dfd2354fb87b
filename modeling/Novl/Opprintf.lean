import Novl.Elf

/-!
How an instruction is printed, `opprintf.c`.

A format is ordinary text and tokens of a percent sign and two letters.
The configuration word is that of the source, which nothing changes: names
of instructions and registers and hexadecimal digits in lower case, sixteen
columns for the name, no prefix and no colours. Tokens that no format of
the decoder uses are left out.
-/

namespace Novl

/-! ### Numbers -/

def lowerDigits : List Char := "0123456789abcdef".toList

def upperDigits : List Char := "0123456789ABCDEF".toList

/-- The last `n` hexadecimal digits of a number. -/
def hexPrint (digits : List Char) (n v : ℕ) : List Char :=
  (List.range n).reverse.map fun k => digits.getD (v / 16 ^ k % 16) '0'

/-- `0x%08x`. -/
def hexWord (w : Word) : List Char := '0' :: 'x' :: hexPrint lowerDigits 8 w.toNat

/-! ### Fields and registers -/

def opcode (x : Word) : ℕ := (x >>> 26 &&& 0x3F#32).toNat

def opRs (x : Word) : ℕ := (x >>> 21 &&& 0x1F#32).toNat

def opRt (x : Word) : ℕ := (x >>> 16 &&& 0x1F#32).toNat

def opRd (x : Word) : ℕ := (x >>> 11 &&& 0x1F#32).toNat

/-- `_FS` and `_FT` are `_RD` and `_RT`; `_FD` and `_SHAM` are one field. -/
def opFd (x : Word) : ℕ := (x >>> 6 &&& 0x1F#32).toNat

def opImmediate (x : Word) : ℕ := (x &&& 0xFFFF#32).toNat

/-- `_TARGET`. -/
def opTarget (x : Word) : Word := (x &&& 0x3FFFFFF#32) <<< 2

def registersAGpr : List String :=
  ["R0", "AT", "V0", "V1", "A0", "A1", "A2", "A3", "T0", "T1", "T2", "T3", "T4", "T5", "T6", "T7",
    "S0", "S1", "S2", "S3", "S4", "S5", "S6", "S7", "T8", "T9", "K0", "K1", "GP", "SP", "S8", "RA"]

def registersAFpr : List String :=
  ["F0", "F1", "F2", "F3", "F4", "F5", "F6", "F7", "F8", "F9", "F10", "F11", "F12", "F13", "F14",
    "F15", "F16", "F17", "F18", "F19", "F20", "F21", "F22", "F23", "F24", "F25", "F26", "F27",
    "F28", "F29", "F30", "F31"]

def registersACop : List String :=
  ["Index", "Random", "EntryLo0", "EntryLo1", "Context", "PageMask", "Wired", "Resrvd07",
    "BadVAddr", "Count", "EntryHi", "Compare", "Status", "Cause", "EPC", "PRevID", "Config",
    "LLAddr", "WatchLo", "WatchHi", "XContext", "Resrvd21", "Resrvd22", "Resrvd23", "Resrvd24",
    "Resrvd25", "PErr", "CacheErr", "TagLo", "TagHi", "ErrorEPC", "Resrvd31"]

def lowerCase (s : String) : List Char := s.toList.map Char.toLower

/-- `mr4kd_rcpy_gpr`. -/
def mr4kdRcpyGpr (reg : ℕ) : List Char := lowerCase (registersAGpr.getD reg "")

/-- `mr4kd_rcpy_fpr`. -/
def mr4kdRcpyFpr (reg : ℕ) : List Char := lowerCase (registersAFpr.getD reg "")

/-! ### Formats -/

/-- `%ns`: the name, on the left of sixteen columns. -/
def nameColumn (name : String) : List Char :=
  lowerCase name ++ List.replicate (16 - (lowerCase name).length) ' '

/-- `%br`. -/
def branchAddress (instruction pc : Word) : Word :=
  pc + 4 + (instruction.setWidth 16).signExtend 32 * 4

/-- `%jm`. -/
def printedTarget (instruction pc : Word) : Word :=
  opTarget instruction ||| pc &&& 0xF0000000#32

/-- The `switch` over the tokens. -/
def mr4kdToken (name : String) (instruction pc : Word) : Char → Char → List Char
  | 'r', 's' => mr4kdRcpyGpr (opRs instruction)
  | 'r', 't' => mr4kdRcpyGpr (opRt instruction)
  | 'r', 'd' => mr4kdRcpyGpr (opRd instruction)
  | 'f', 's' => mr4kdRcpyFpr (opRd instruction)
  | 'f', 't' => mr4kdRcpyFpr (opRt instruction)
  | 'f', 'd' => mr4kdRcpyFpr (opFd instruction)
  | 'c', 'p' => (registersACop.getD (opRd instruction) "").toList
  | 'i', 'h' => '0' :: 'x' :: hexPrint lowerDigits 4 (opImmediate instruction)
  | 'b', 'r' => hexWord (branchAddress instruction pc)
  | 'j', 'm' => hexWord (printedTarget instruction pc)
  | 's', 'a' => Nat.toDigits 10 (opFd instruction)
  | 'n', '0' => lowerCase name
  | 'n', 's' => nameColumn name
  | _, _ => []

/-- `mr4kd_sprintf`. -/
def mr4kdSprintf (name : String) (instruction pc : Word) : List Char → List Char
  | '%' :: a :: b :: fmt =>
    mr4kdToken name instruction pc a b ++ mr4kdSprintf name instruction pc fmt
  | c :: fmt => c :: mr4kdSprintf name instruction pc fmt
  | [] => []

end Novl
