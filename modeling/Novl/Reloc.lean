import Novl.Elf
import Novl.Library.LowMask

/-!
The relocator, `novl-reloc.c`.

A position in `memory` stands for the pointer to it. The handlers read
and write words in big-endian order, which is what `g_ntohl` and
`g_htonl` amount to on the image. In the dry pass they decide everything
and write nothing.
-/

namespace Novl

open ByteMemory

/-- The globals the relocator reads. -/
structure Globals where
  elfEp : Word
  elfStarts : OvlSection → Word
  ovlStarts : OvlSection → Word
  sizes : OvlSection → Word

/-- The values a handler returns: `FALSE`, `NOVL_RELOC_FAIL`,
`NOVL_RELOC_SUCCESS` and `NOVL_RELOC_FAIL_DONTDELETEHI`. -/
inductive RelocResult
  | error
  | fail
  | success
  | failDontDeleteHi
  deriving DecidableEq, Repr

/-- One register's row of `hilopair_status`, `hilopair_ptrs` and
`hilopair_regs`. A row whose status is `HILO_STATUS_INVALID` holds no
pointer. -/
inductive HiLoPair
  | invalid
  | valid (ptr : ℕ) (reg : Word)
  | used (ptr : ℕ) (reg : Word)
  deriving DecidableEq, Repr

/-- An index into the tables of 32 registers. -/
abbrev Reg := Fin 32

abbrev HiLoTable := Reg → HiLoPair

/-- The state the handlers work on. -/
structure RelocState where
  memory : Memory
  hilo : HiLoTable

/-- The relocation types with a handler. -/
def rMips32 : Word := 2
def rMips26 : Word := 4
def rMipsHi16 : Word := 5
def rMipsLo16 : Word := 6

/-- The first section, in the order of their numbers, whose extent holds
the address. The end of an extent is computed in 32 bits. -/
def getTargetSection (g : Globals) (address : Word) : Option OvlSection :=
  OvlSection.all.find? fun i =>
    !(address < g.elfStarts i || address ≥ g.elfStarts i + g.sizes i)

/-- The adjusted address is returned beside the result; it differs from
the given one only where the C code writes through its pointer. -/
def adjustAddress (g : Globals) (addr : Word) (type : Word) (dryrun : Bool) :
    RelocResult × Word :=
  match getTargetSection g addr with
  | none => (.fail, addr)
  | some s =>
    if type = rMips26 ∧ s ≠ .text then (.error, addr)
    else if dryrun then (.success, addr)
    else (.success, addr + (g.ovlStarts s - g.elfStarts s))

/-- Relocate a 32-bit pointer. -/
def novlRelocMips32 (g : Globals) (i : ℕ) (dryrun : Bool) (st : RelocState) :
    RelocResult × RelocState :=
  let w := loadWord st.memory i
  match adjustAddress g w rMips32 dryrun with
  | (.success, w) =>
    if dryrun then (.success, st)
    else (.success, { st with memory := storeWord st.memory i w })
  | (ret, _) => (ret, st)

/-- The address an instruction word with a 26-bit target jumps to, as the
relocator rebuilds it. -/
def jumpTarget (w : Word) : Word := (w &&& 0x03FFFFFF#32) <<< 2 ||| 0x80000000#32

/-- The instruction word with its target field replaced. -/
def withJumpTarget (w addr : Word) : Word :=
  w &&& ~~~0x03FFFFFF#32 ||| addr >>> 2 &&& 0x03FFFFFF#32

/-- Relocate a 26-bit (jump target) pointer. -/
def novlRelocMips26 (g : Globals) (i : ℕ) (dryrun : Bool) (st : RelocState) :
    RelocResult × RelocState :=
  let w := loadWord st.memory i
  match adjustAddress g (jumpTarget w) rMips26 dryrun with
  | (.success, addr) =>
    if dryrun then (.success, st)
    else (.success, { st with memory := storeWord st.memory i (withJumpTarget w addr) })
  | (ret, _) => (ret, st)

theorem toNat_and_regMask_lt (w : Word) : (w &&& 0x1F#32).toNat < 32 := by
  have hmod : (w &&& 0x1F#32).toNat = w.toNat % 32 :=
    LowMask.toNat_and_mask (n := 5) (by omega) w
  omega

/-- The register a HI16 instruction sets. -/
def hiReg (w : Word) : Reg := ⟨(w >>> 16 &&& 0x1F#32).toNat, toNat_and_regMask_lt _⟩

/-- The register a LO16 instruction reads. -/
def loReg (w : Word) : Reg := ⟨(w >>> 21 &&& 0x1F#32).toNat, toNat_and_regMask_lt _⟩

/-- Relocate the high part of an immediate value: nothing is written, the
instruction is remembered for the LO16s that follow. -/
def novlRelocMipsHi16 (i : ℕ) (st : RelocState) : RelocResult × RelocState :=
  let w := loadWord st.memory i
  (.success, { st with
    hilo := Function.update st.hilo (hiReg w) (.valid i ((w &&& 0xFFFF#32) <<< 16)) })

/-- `(int16_t)(w & 0xFFFF)`, as it takes part in 32-bit arithmetic. -/
def loImmediate (w : Word) : Word := (w.setWidth 16).signExtend 32

/-- The two instruction words of a pair are updated with the halves of
its new address; the high one is read before the low one is written. -/
def updatePair (m : Memory) (ptr i : ℕ) (addr : Word) : Memory :=
  let w := loadWord m i
  let lo := addr &&& 0xFFFF#32
  let hi := addr >>> 16 + (if lo &&& 0x8000#32 ≠ 0#32 then 1#32 else 0#32)
  let oldW := loadWord m ptr
  storeWord (storeWord m i (w &&& 0xFFFF0000#32 ||| lo)) ptr (oldW &&& 0xFFFF0000#32 ||| hi)

/-- Relocate the low part of an immediate value. -/
def novlRelocMipsLo16 (g : Globals) (i : ℕ) (dryrun : Bool) (st : RelocState) :
    RelocResult × RelocState :=
  let w := loadWord st.memory i
  let reg := loReg w
  let finish (ptr : ℕ) (hi : Word) (used : Bool) : RelocResult × RelocState :=
    let hilo := Function.update st.hilo reg (.used ptr hi)
    match adjustAddress g (hi + loImmediate w) rMipsLo16 dryrun with
    | (.success, addr) =>
      if dryrun then (.success, { st with hilo := hilo })
      else (.success, { memory := updatePair st.memory ptr i addr, hilo := hilo })
    | (.fail, _) => (if used then .failDontDeleteHi else .fail, { st with hilo := hilo })
    | (ret, _) => (ret, { st with hilo := hilo })
  match st.hilo reg with
  | .invalid => (.error, st)
  | .valid ptr hi => finish ptr hi false
  | .used ptr hi => finish ptr hi true

/-- The relocation types `novl_reloc_jt` has an entry for. -/
inductive Handler
  | mips32
  | mips26
  | hi16
  | lo16
  deriving DecidableEq, Repr

/-- `novl_reloc_jt[type & 0x7F]`. -/
def novlRelocJt (type : Word) : Option Handler :=
  let t := type &&& 0x7F#32
  if t = rMips32 then some .mips32
  else if t = rMips26 then some .mips26
  else if t = rMipsHi16 then some .hi16
  else if t = rMipsLo16 then some .lo16
  else none

/-- Do a relocation. Every handler starts by reading the word at its
pointer; `none` is such a read outside `memory`, which C leaves
undefined. -/
def novlRelocDo (g : Globals) (i : ℕ) (type : Word) (dryrun : Bool) (st : RelocState) :
    Option (RelocResult × RelocState) :=
  match novlRelocJt type with
  | none => some (.error, st)
  | some handler =>
    if i + 4 ≤ memorySize then
      some <| match handler with
        | .mips32 => novlRelocMips32 g i dryrun st
        | .mips26 => novlRelocMips26 g i dryrun st
        | .hi16 => novlRelocMipsHi16 i st
        | .lo16 => novlRelocMipsLo16 g i dryrun st
    else none

/-- Generate a Nintendo relocation. -/
def novlRelocMk (sec offset type : Word) : Word :=
  sec <<< 30 ||| offset &&& 0x00FFFFFF#32 ||| (type &&& 0x3F#32) <<< 24

/-- `novl_reloc_init`: no register has a remembered HI16. -/
def novlRelocInit : HiLoTable := fun _ => .invalid

end Novl
