import Novl.Library.ByteMemory

/-!
The data the converter works on: section kinds, and the view libelf gives
of an input file.

A section read from a file has at most one data descriptor: `elf_getdata`
yields it first and then nothing, since further descriptors exist only
for sections built in memory. What `gelf_getrel` returns for the indices
`0, 1, …` until it fails is kept as a list. Section names are C strings
without their terminator.
-/

namespace Novl

abbrev Byte := BitVec 8

/-- `uint32_t`. -/
abbrev Word := BitVec 32

/-- `enum OvlSections`. -/
inductive OvlSection
  | text
  | data
  | rodata
  | bss
  deriving DecidableEq, Repr

/-- The sections in the order of their numbers. -/
def OvlSection.all : List OvlSection := [.text, .data, .rodata, .bss]

/-- `OVL_S_TEXT`, `OVL_S_DATA`, `OVL_S_RODATA` and `OVL_S_BSS`. -/
def OvlSection.index : OvlSection → ℕ
  | .text => 0
  | .data => 1
  | .rodata => 2
  | .bss => 3

/-- `section_names`. -/
def OvlSection.name : OvlSection → List Char
  | .text => ['.', 't', 'e', 'x', 't']
  | .data => ['.', 'd', 'a', 't', 'a']
  | .rodata => ['.', 'r', 'o', 'd', 'a', 't', 'a']
  | .bss => ['.', 'b', 's', 's']

@[simp] theorem OvlSection.mem_all (s : OvlSection) : s ∈ OvlSection.all := by
  cases s <;> decide

/-- `GElf_Rel`. -/
structure GElfRel where
  rOffset : BitVec 64
  rInfo : BitVec 64
  deriving DecidableEq, Repr

/-- `(int)rel.r_info`, which is how the converter reads the type. -/
def GElfRel.type (rel : GElfRel) : Word := rel.rInfo.setWidth 32

/-- `(uint32_t)rel.r_offset`. -/
def GElfRel.addr (rel : GElfRel) : Word := rel.rOffset.setWidth 32

/-- A data descriptor: its bytes, and its relocation entries. -/
structure ElfData where
  buf : List Byte
  rels : List GElfRel

structure ElfSection where
  name : List Char
  shType : Word
  shAddr : BitVec 64
  shSize : BitVec 64
  /-- What `elf_getdata` yields, if it yields anything. -/
  data : Option ElfData

/-- `Elf_Kind`, as far as the converter tells kinds apart. -/
inductive ElfKind
  | ar
  | elf
  | other
  deriving DecidableEq, Repr

structure Elf where
  kind : ElfKind
  eMachine : BitVec 16
  eEntry : BitVec 64
  /-- The sections in the order `elf_nextscn` visits them. -/
  sections : List ElfSection

/-- `EM_MIPS`. -/
def emMips : BitVec 16 := 8

/-- `SHT_PROGBITS`. -/
def shtProgbits : Word := 1

/-- `sizeof(memory)`. -/
def memorySize : ℕ := 4 * 1024 * 1024

end Novl
