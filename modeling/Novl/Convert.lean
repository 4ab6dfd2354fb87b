import Novl.Reloc
import Novl.Library.FallibleRun
import Novl.Library.InsertionSort
import Novl.Library.SeekFile

/-!
The converter, `novl-conv.c`: load the sections, run the relocations dry,
fix the overlay addresses, run them for real, write the file.

A step that C leaves undefined (an access outside `memory`, a step from a
null list pointer) ends the model with `Stop.undefinedBehaviour`; a call
of `exit` ends it with the reason and with what the output path holds at
that moment. Input and output calls are taken to succeed. Messages are
not modelled beyond the reason of an exit.
-/

namespace Novl

open ByteMemory

/-- Why a conversion gives up: one constructor for each `ERROR` that is
followed by an `exit`. -/
inductive ConvError
  | archiveProvided
  | unsupportedFormat
  | notMips
  | multipleSections (name : List Char)
  | memoryBounds (ep : Word) (name : List Char) (addr size : BitVec 64)
  | relocations
  | processingRelocation (type : Word)
  | countPrediction (pred real : ℤ)
  | bssPrediction (predicted : Word) (actual : ℕ)
  | sectionArrangement (section_ : OvlSection) (expected : Word) (actual : ℕ)
  | headerArrangement (expected : Word) (actual : ℕ)
  deriving DecidableEq, Repr

/-- What an exit leaves at the output path. -/
inductive OutputState
  | untouched
  | left (bytes : List Byte)
  | removed
  deriving DecidableEq, Repr

inductive Stop
  | exit (error : ConvError) (output : OutputState)
  | undefinedBehaviour
  deriving DecidableEq, Repr

/-! ### Loading the sections -/

/-- `valid_sec`: the first section whose name the string begins with. -/
def validSec (s : List Char) : Option OvlSection :=
  OvlSection.all.find? fun i => i.name.isPrefixOf s

/-- Memory after a `memcpy` of `bs` to position `dst`. -/
def copyBytes (m : Memory) (dst : ℕ) (bs : List Byte) : Memory :=
  fun a => if dst ≤ a ∧ a < dst + bs.length then bs.getD (a - dst) 0 else m a

/-- `memory`, `elf_starts` and `sizes` while the sections are loaded. -/
structure LoadState where
  memory : Memory
  elfStarts : OvlSection → Word
  sizes : OvlSection → Word

def LoadState.init : LoadState where
  memory _ := 0
  elfStarts _ := 0
  sizes _ := 0

/-- `(sh_size + 7) & ~7`, as stored in `sizes`. -/
def roundSize (shSize : BitVec 64) : Word := ((shSize + 7) &&& ~~~7).setWidth 32

/-- The `memcpy` of a loadable section. -/
def loadData (elfEp : Word) (s : ElfSection) (st : LoadState) : Except Stop LoadState :=
  match if 0 < s.shSize then s.data else none with
  | none => .ok st
  | some d =>
    let dst := (s.shAddr - elfEp.setWidth 64).toNat
    if dst + d.buf.length ≤ memorySize then
      .ok { st with memory := copyBytes st.memory dst d.buf }
    else .error .undefinedBehaviour

/-- One turn of the loading loop. The size is recorded rounded up to
eight, and the start as it is; the bounds are checked in 64 bits. -/
def loadSection (elfEp : Word) (st : LoadState) (s : ElfSection) : Except Stop LoadState :=
  match validSec s.name with
  | none => .ok st
  | some id =>
    if st.elfStarts id ≠ 0 then .error (.exit (.multipleSections s.name) (.left []))
    else
      let st := { st with
        elfStarts := Function.update st.elfStarts id (s.shAddr.setWidth 32)
        sizes := Function.update st.sizes id (roundSize s.shSize) }
      if s.shType = shtProgbits then
        if elfEp.setWidth 64 > s.shAddr ∨
            (s.shAddr + s.shSize - elfEp.setWidth 64).toNat > memorySize then
          .error (.exit (.memoryBounds elfEp s.name s.shAddr s.shSize) (.left []))
        else loadData elfEp s st
      else .ok st

def loadSections (elfEp : Word) (ss : List ElfSection) : Except Stop LoadState :=
  ss.foldlM (loadSection elfEp) LoadState.init

/-! ### The relocation entries -/

/-- The entries of a kept relocation section, and the section kind they
are for. -/
structure RelBlock where
  id : OvlSection
  rels : List GElfRel
  deriving DecidableEq

/-- The two name tests and the `elf_getdata` call both passes start a
section with. `strncmp(".rel.", name, 4)` compares four characters. -/
def relBlock? (s : ElfSection) : Option RelBlock :=
  if ['.', 'r', 'e', 'l'].isPrefixOf s.name then
    match validSec (s.name.drop 4) with
    | none => none
    | some id =>
      match if 0 < s.shSize then s.data else none with
      | none => none
      | some d => some ⟨id, d.rels⟩
  else none

/-- The blocks the loops over the sections do not skip. -/
def relBlocks (ss : List ElfSection) : List RelBlock := ss.filterMap relBlock?

/-- `rel_list` after the insertion loop. -/
def relList (rels : List GElfRel) : List GElfRel :=
  InsertionSort.sort (fun r => r.rOffset.toNat) rels

/-- `off`, the position in `memory` an entry names. -/
def relOff (g : Globals) (rel : GElfRel) : ℕ := (rel.addr - g.elfEp).toNat

/-! ### Dry pass -/

structure DryState where
  reloc : RelocState
  error : Bool
  nintyCountPred : ℤ

/-- One entry of the dry pass. An entry in error is counted like a
successful one. Its report, which looks up the name of its type, is part of
`novlConvReporting`. -/
def dryEntry (g : Globals) (st : DryState) (rel : GElfRel) : Option DryState :=
  match novlRelocDo g (relOff g rel) rel.type true st.reloc with
  | none => none
  | some (v, reloc) => some <| match v with
    | .error => { reloc, error := true, nintyCountPred := st.nintyCountPred + 1 }
    | .fail =>
      if rel.type = rMipsLo16 then { st with reloc, nintyCountPred := st.nintyCountPred - 1 }
      else { st with reloc }
    | .failDontDeleteHi => { st with reloc }
    | .success => { st with reloc, nintyCountPred := st.nintyCountPred + 1 }

def dryBlock (g : Globals) (st : DryState) (b : RelBlock) : Option DryState :=
  (relList b.rels).foldlM (dryEntry g) { st with reloc.hilo := novlRelocInit }

def dryPass (g : Globals) (m : Memory) (bs : List RelBlock) : Option DryState :=
  bs.foldlM (dryBlock g)
    { reloc := ⟨m, novlRelocInit⟩, error := false, nintyCountPred := 0 }

/-! ### Real pass -/

/-- The list `ninty_relocs` with `last`, a pointer to one of its nodes
given by the node's index, and the count kept beside them. -/
structure RealState where
  reloc : RelocState
  nintyRelocs : List Word
  last : Option ℕ
  nintyCountReal : ℤ

/-- The node `last` points to is removed, after `last` went back one. -/
def deleteLast (st : RealState) : Except Stop RealState :=
  match st.last with
  | none => .error .undefinedBehaviour
  | some n => .ok { st with
      last := if n = 0 then none else some (n - 1)
      nintyRelocs := st.nintyRelocs.eraseIdx n
      nintyCountReal := st.nintyCountReal - 1 }

/-- A node is appended, and `last` set to it or moved on to the next. -/
def appendReloc (nr : Word) (st : RealState) : RealState :=
  { st with
    nintyRelocs := st.nintyRelocs ++ [nr]
    last := match st.last with
      | none => some st.nintyRelocs.length
      | some n => some (n + 1)
    nintyCountReal := st.nintyCountReal + 1 }

/-- The overlay relocation made from an entry. -/
def nintyReloc (g : Globals) (id : OvlSection) (rel : GElfRel) : Word :=
  novlRelocMk (BitVec.ofNat 32 (id.index + 1)) (rel.addr - g.elfStarts id) rel.type

/-- One entry of the real pass, its report apart as in the dry pass. -/
def realEntry (g : Globals) (id : OvlSection) (st : RealState) (rel : GElfRel) :
    Except Stop RealState :=
  match novlRelocDo g (relOff g rel) rel.type false st.reloc with
  | none => .error .undefinedBehaviour
  | some (v, reloc) =>
    match v with
    | .error => .error (.exit (.processingRelocation rel.type) (.left []))
    | .fail =>
      if rel.type = rMipsLo16 then deleteLast { st with reloc } else .ok { st with reloc }
    | .failDontDeleteHi => .ok { st with reloc }
    | .success => .ok (appendReloc (nintyReloc g id rel) { st with reloc })

def realBlock (g : Globals) (st : RealState) (b : RelBlock) : Except Stop RealState :=
  (relList b.rels).foldlM (realEntry g b.id)
    { st with last := none, reloc.hilo := novlRelocInit }

def realPass (g : Globals) (m : Memory) (bs : List RelBlock) : Except Stop RealState :=
  bs.foldlM (realBlock g)
    { reloc := ⟨m, novlRelocInit⟩, nintyRelocs := [], last := none, nintyCountReal := 0 }

/-! ### Overlay addresses -/

/-- `ovl_file_header_addr`, once the section sizes are added up. -/
def headerAddr (sizes : OvlSection → Word) : Word :=
  sizes .text + sizes .data + sizes .rodata

/-- `ovl_starts`, from the sizes and the predicted relocation count. -/
def overlayStarts (base : Word) (sizes : OvlSection → Word) (pred : ℤ) : OvlSection → Word
  | .text => base
  | .data => base + sizes .text
  | .rodata => base + sizes .text + sizes .data
  | .bss =>
    let ovlEndAddr := base + sizes .text + sizes .data + sizes .rodata
    (ovlEndAddr + 5 * 4 + BitVec.ofInt 32 (pred * 4) + 4 + 15) &&& ~~~15

/-! ### Writing the file -/

/-- The bytes of a word as `g_htonl` and `fwrite` put them in a file. -/
def wordBytes (w : Word) : List Byte := [wordByte w 0, wordByte w 1, wordByte w 2, wordByte w 3]

/-- `new_head`: the four sizes and the relocation count. -/
def newHead (sizes : OvlSection → Word) (count : ℤ) : List Word :=
  OvlSection.all.map sizes ++ [BitVec.ofInt 32 count]

/-- Header and relocation entries. The loop over the list ends at its
first null word. -/
def writeHead (sizes : OvlSection → Word) (count : ℤ) (relocs : List Word) : SeekFile :=
  let f := (SeekFile.empty.seek (headerAddr sizes).toNat).write
    ((newHead sizes count).flatMap wordBytes)
  (relocs.takeWhile (· ≠ 0)).foldl (fun f w => f.write (wordBytes w)) f

/-- `fseek` to a signed offset; a negative one is refused. -/
def fseek (f : SeekFile) (p : ℤ) : SeekFile := if 0 ≤ p then f.seek p.toNat else f

/-- The footer: aligned so that the file ends on a multiple of 16, and
holding the distance from the end of the file back to the header. -/
def writeFooter (sizes : OvlSection → Word) (f : SeekFile) : SeekFile :=
  let backwards := BitVec.ofNat 32 f.pos - headerAddr sizes + 4
  let i := (BitVec.ofNat 32 f.pos).toInt
  if (i + 4).tmod 16 ≠ 0 then
    let new := i - (i + 4).tmod 16 + 16
    (fseek f new).write (wordBytes (backwards + BitVec.ofInt 32 (new - i)))
  else f.write (wordBytes backwards)

/-- One turn of the loop that writes the section data. -/
def writeSection (base : Word) (starts : OvlSection → Word)
    (contents : OvlSection → Except Stop (List Byte)) (f : SeekFile) (i : OvlSection) :
    Except Stop SeekFile :=
  if (starts i).toNat ≠ f.pos + base.toNat then
    .error (.exit (.sectionArrangement i (starts i) (f.pos + base.toNat)) .removed)
  else
    match contents i with
    | .error e => .error e
    | .ok bs => .ok (f.write bs)

/-- Everything from the header to the end, with the three layout checks.
`contents` is what `fwrite` finds in `memory` for a section. -/
def writeOverlay (base : Word) (starts sizes : OvlSection → Word) (count : ℤ)
    (relocs : List Word) (contents : OvlSection → Except Stop (List Byte)) :
    Except Stop SeekFile :=
  let f := writeFooter sizes (writeHead sizes count relocs)
  if (starts .bss).toNat ≠ f.pos + base.toNat then
    .error (.exit (.bssPrediction (starts .bss) (f.pos + base.toNat)) .removed)
  else
    match [OvlSection.text, .data, .rodata].foldlM (writeSection base starts contents)
        (f.seek 0) with
    | .error e => .error e
    | .ok f' =>
      if (headerAddr sizes).toNat ≠ f'.pos then
        .error (.exit (.headerArrangement (headerAddr sizes) f'.pos) .removed)
      else .ok f'

/-- The bytes of `memory` from a position on. -/
def readBytes (m : Memory) (start len : ℕ) : List Byte :=
  (List.range len).map fun k => m (start + k)

/-- Where a section starts in `memory`. -/
def sectionPos (g : Globals) (i : OvlSection) : ℕ := (g.elfStarts i - g.elfEp).toNat

/-- `fwrite(memory + (elf_starts[i] - elf_ep), 1, sizes[i], ovl_out)`. -/
def sectionContents (g : Globals) (m : Memory) (i : OvlSection) : Except Stop (List Byte) :=
  let len := (g.sizes i).toNat
  if len = 0 ∨ sectionPos g i + len ≤ memorySize then .ok (readBytes m (sectionPos g i) len)
  else .error .undefinedBehaviour

/-! ### The whole conversion -/

/-- What a successful conversion computes on the way to its file. -/
structure Converted where
  globals : Globals
  loaded : Memory
  nintyCountPred : ℤ
  memory : Memory
  nintyRelocs : List Word
  nintyCountReal : ℤ
  file : List Byte

/-- From the loaded image on. -/
def convertImage (elfEp : Word) (ld : LoadState) (bs : List RelBlock) (base : Word) :
    Except Stop Converted :=
  let g : Globals := ⟨elfEp, ld.elfStarts, fun _ => 0, ld.sizes⟩
  match dryPass g ld.memory bs with
  | none => .error .undefinedBehaviour
  | some dry =>
    if dry.error then .error (.exit .relocations (.left []))
    else
      let g := { g with ovlStarts := overlayStarts base ld.sizes dry.nintyCountPred }
      match realPass g ld.memory bs with
      | .error e => .error e
      | .ok real =>
        if dry.nintyCountPred ≠ real.nintyCountReal then
          .error (.exit (.countPrediction dry.nintyCountPred real.nintyCountReal) .removed)
        else
          match writeOverlay base g.ovlStarts g.sizes real.nintyCountReal real.nintyRelocs
              (sectionContents g real.reloc.memory) with
          | .error e => .error e
          | .ok f => .ok ⟨g, ld.memory, dry.nintyCountPred, real.reloc.memory,
              real.nintyRelocs, real.nintyCountReal, f.bytes⟩

def convert (elf : Elf) (base : Word) : Except Stop Converted :=
  match elf.kind with
  | .ar => .error (.exit .archiveProvided .untouched)
  | .other => .error (.exit .unsupportedFormat .untouched)
  | .elf =>
    if elf.eMachine ≠ emMips then .error (.exit .notMips .untouched)
    else
      let elfEp := elf.eEntry.setWidth 32
      match loadSections elfEp elf.sections with
      | .error e => .error e
      | .ok ld => convertImage elfEp ld (relBlocks elf.sections) base

/-- How the program ends. -/
inductive Outcome
  | success (file : List Byte)
  | failure (error : ConvError) (output : OutputState)
  | undefinedBehaviour
  deriving DecidableEq, Repr

/-- The exit status: `EXIT_SUCCESS` or `EXIT_FAILURE`. -/
def Outcome.exitStatus : Outcome → Option ℕ
  | .success _ => some 0
  | .failure _ _ => some 1
  | .undefinedBehaviour => none

/-- Convert an ELF file to a Nintendo overlay. What the conversion says on
its way, and where saying it goes wrong, is in `novlConvReporting`. -/
def novlConv (elf : Elf) (base : Word) : Outcome :=
  match convert elf base with
  | .ok c => .success c.file
  | .error (.exit e o) => .failure e o
  | .error .undefinedBehaviour => .undefinedBehaviour

end Novl
