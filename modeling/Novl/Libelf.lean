import Novl.ConversionMessages
import Novl.Library.ByteOrder

/-!
How libelf reads an ELF file, as far as the converter asks it to.

`size_t` has 64 bits, and a file has fewer than `2 ^ 32` section headers.
Both classes and both byte orders are read; they differ in the width of
addresses and in the order of bytes, and in nothing else here. A name
without its `NUL` before the end of the file counts as undefined.

The data of a section is translated in place, in the copy of the file that
the names and the other sections are read from as well. Here each section
is read from the file as it was; so a run in which bytes are read again
after a translation is told apart, and its end is left open.
-/

namespace Novl

open ByteOrder

/-- `ELFCLASS32` and `ELFCLASS64`. -/
inductive ElfClass
  | class32
  | class64
  deriving DecidableEq, Repr

/-- The bytes of an address, an offset or a size. -/
def ElfClass.width : ElfClass → ℕ
  | .class32 => 4
  | .class64 => 8

/-- `_fsize` for `ELF_T_EHDR`, `ELF_T_PHDR`, `ELF_T_SHDR` and
`ELF_T_REL`. -/
def ElfClass.ehdrSize (c : ElfClass) : ℕ := 40 + 3 * c.width

def ElfClass.phdrSize : ElfClass → ℕ
  | .class32 => 32
  | .class64 => 56

def ElfClass.shdrSize (c : ElfClass) : ℕ := 16 + 6 * c.width

def ElfClass.relSize (c : ElfClass) : ℕ := 2 * c.width

/-- The error numbers that reading the headers can end with. -/
inductive ElfError
  | unknownVersion
  | unknownEncoding
  | unknownClass
  | truncEhdr
  | outside
  | ehdrShentsize
  | truncShdr
  | noSuchScn
  | ehdrPhentsize
  | truncPhdr
  deriving DecidableEq, Repr

inductive CookStop
  | failed (error : ElfError)
  | undefinedBehaviour
  deriving DecidableEq, Repr

/-- `Elf32_Ehdr` and `Elf64_Ehdr`, less what nothing reads. -/
structure Ehdr where
  eMachine : ℕ
  eEntry : ℕ
  ePhoff : ℕ
  eShoff : ℕ
  ePhentsize : ℕ
  ePhnum : ℕ
  eShentsize : ℕ
  eShnum : ℕ
  eShstrndx : ℕ
  deriving DecidableEq

/-- `Elf32_Shdr` and `Elf64_Shdr`, less what nothing reads. -/
structure Shdr where
  shName : ℕ
  shType : ℕ
  shAddr : ℕ
  shOffset : ℕ
  shSize : ℕ
  shLink : ℕ
  shInfo : ℕ
  deriving DecidableEq

/-- An ELF file whose headers are read. -/
structure ElfFile where
  image : List Byte
  class_ : ElfClass
  order : ByteOrder
  ehdr : Ehdr
  shdrs : List Shdr

/-! ### Headers -/

/-- `ELFMAG` and `ARMAG`. -/
def elfMag : List Byte := [0x7F, 0x45, 0x4C, 0x46]

def arMag : List Byte := [0x21, 0x3C, 0x61, 0x72, 0x63, 0x68, 0x3E, 0x0A]

/-- `_elf_check_type`. -/
def elfCheckType (image : List Byte) : ElfKind :=
  if 16 ≤ image.length ∧ elfMag.isPrefixOf image then .elf
  else if arMag.isPrefixOf image then .ar
  else .other

/-- `_elf_item` for the ELF header, once the file is long enough. -/
def readEhdr (c : ElfClass) (o : ByteOrder) (image : List Byte) : Ehdr :=
  let w := c.width
  { eMachine := o.field image 18 2
    eEntry := o.field image 24 w
    ePhoff := o.field image (24 + w) w
    eShoff := o.field image (24 + 2 * w) w
    ePhentsize := o.field image (30 + 3 * w) 2
    ePhnum := o.field image (32 + 3 * w) 2
    eShentsize := o.field image (34 + 3 * w) 2
    eShnum := o.field image (36 + 3 * w) 2
    eShstrndx := o.field image (38 + 3 * w) 2 }

/-- The translation of the section header at position `p`. -/
def readShdr (c : ElfClass) (o : ByteOrder) (image : List Byte) (p : ℕ) : Shdr :=
  let w := c.width
  { shName := o.field image p 4
    shType := o.field image (p + 4) 4
    shAddr := o.field image (p + 8 + w) w
    shOffset := o.field image (p + 8 + 2 * w) w
    shSize := o.field image (p + 8 + 3 * w) w
    shLink := o.field image (p + 8 + 4 * w) 4
    shInfo := o.field image (p + 12 + 4 * w) 4 }

/-- `_elf_cook_shdr`. With no header at all in the table, the first one is
marked nevertheless. -/
def elfCookShdr (c : ElfClass) (o : ByteOrder) (image : List Byte) (h : Ehdr) :
    Except CookStop (List Shdr) :=
  if h.eShoff = 0 then .ok []
  else if image.length < h.eShoff then .error (.failed .outside)
  else if h.eShentsize ≠ c.shdrSize then .error (.failed .ehdrShentsize)
  else if h.eShnum = 0 ∧ image.length - h.eShoff < h.eShentsize then .error (.failed .truncShdr)
  else
    let num := if h.eShnum = 0 then (readShdr c o image h.eShoff).shSize else h.eShnum
    if (image.length - h.eShoff) / h.eShentsize < num then .error (.failed .truncShdr)
    else if num = 0 then .error .undefinedBehaviour
    else .ok ((List.range num).map fun i => readShdr c o image (h.eShoff + i * h.eShentsize))

/-- `_elf_cook_phdr`. The headers are read for their bounds only. -/
def elfCookPhdr (c : ElfClass) (image : List Byte) (h : Ehdr) (shdrs : List Shdr) :
    Except CookStop Unit :=
  if h.ePhoff = 0 then .ok ()
  else
    match if h.ePhnum = 0xFFFF then shdrs.head?.map Shdr.shInfo else some h.ePhnum with
    | none => .error (.failed .noSuchScn)
    | some num =>
      if h.ePhentsize ≠ c.phdrSize then .error (.failed .ehdrPhentsize)
      else if num = 0 then .ok ()
      else if image.length < h.ePhoff then .error (.failed .outside)
      else if image.length < h.ePhoff + num * c.phdrSize then .error (.failed .truncPhdr)
      else .ok ()

/-- `_elf_cook_file`. -/
def elfCookFile (c : ElfClass) (o : ByteOrder) (image : List Byte) : Except CookStop ElfFile :=
  if image.length < c.ehdrSize then .error (.failed .truncEhdr)
  else do
    let ehdr := readEhdr c o image
    let shdrs ← elfCookShdr c o image ehdr
    elfCookPhdr c image ehdr shdrs
    return ⟨image, c, o, ehdr, shdrs⟩

/-- `_elf_cook`, which `gelf_getehdr` calls: version, encoding and class
are tested in this order. -/
def elfCook (image : List Byte) : Except CookStop ElfFile :=
  if image.getD 6 0 ≠ 1 then .error (.failed .unknownVersion)
  else
    match if image.getD 5 0 = 1 then some little
        else if image.getD 5 0 = 2 then some big else none with
    | none => .error (.failed .unknownEncoding)
    | some o =>
      if image.getD 4 0 = 1 then elfCookFile .class32 o image
      else if image.getD 4 0 = 2 then elfCookFile .class64 o image
      else .error (.failed .unknownClass)

/-! ### Section data -/

def shtNull : ℕ := 0
def shtStrtab : ℕ := 3
def shtNobits : ℕ := 8
def shtRel : ℕ := 9

/-- `Elf_Type`, for the data of sections. -/
inductive ElfType
  | byte
  | dyn
  | half
  | rel
  | rela
  | sym
  | vdef
  | vneed
  | word
  deriving DecidableEq, Repr

/-- `_elf_scn_type`. -/
def elfScnType : ℕ → ElfType
  | 6 => .dyn
  | 11 => .sym
  | 5 => .word
  | 9 => .rel
  | 4 => .rela
  | 2 => .sym
  | 18 => .word
  | 0x6FFFFFFD => .vdef
  | 0x6FFFFFFE => .vneed
  | 0x6FFFFFFF => .half
  | _ => .byte

/-- `ELF64_R_INFO` of the two parts of a 32-bit `r_info`. -/
def relInfo (c : ElfClass) (info : ℕ) : BitVec 64 :=
  match c with
  | .class32 => BitVec.ofNat 64 (info / 256 * 2 ^ 32 + info % 256)
  | .class64 => BitVec.ofNat 64 info

/-- `gelf_getrel`, for the entry at position `p`. -/
def gelfGetrel (c : ElfClass) (o : ByteOrder) (image : List Byte) (p : ℕ) : GElfRel where
  rOffset := BitVec.ofNat 64 (o.field image p c.width)
  rInfo := relInfo c (o.field image (p + c.width) c.width)

/-- The sum of offset and size, which `elf_getdata` compares with the size
of the file, has wrapped around. -/
def Shdr.wraps (s : Shdr) : Bool := 2 ^ 64 ≤ s.shOffset + s.shSize

/-- `elf_getdata(scn, NULL)`, as long as no other section was translated in
place of these bytes. A buffer that runs out of the file is longer than
`memory`, and its bytes do not matter. The translated bytes of types other
than these two are used by nothing. -/
def elfGetdata (f : ElfFile) (s : Shdr) : Option ElfData :=
  if s.shType = shtNull then none
  else if f.image.length < s.shOffset then none
  else if s.shType = shtNobits ∨ s.shSize = 0 then some ⟨[], []⟩
  else if f.image.length < (s.shOffset + s.shSize) % 2 ^ 64 then none
  else
    match elfScnType s.shType with
    | .byte =>
      some ⟨if s.wraps then List.replicate s.shSize 0 else slice f.image s.shOffset s.shSize, []⟩
    | .rel =>
      some ⟨[], (List.range (s.shSize / f.class_.relSize)).map fun k =>
        gelfGetrel f.class_ f.order f.image (s.shOffset + k * f.class_.relSize)⟩
    | _ => some ⟨[], []⟩

/-- The C string at position `p`. -/
def cString (image : List Byte) (p : ℕ) : Option (List Byte) :=
  if 0 ∈ image.drop p then some ((image.drop p).takeWhile (· ≠ 0)) else none

/-- `elf_strptr`. The offset of the only data descriptor is 0, whatever its
alignment. -/
def elfStrptr (f : ElfFile) (section_ offset : ℕ) : Option (List Byte) :=
  match f.shdrs[section_]? with
  | none => none
  | some s =>
    if section_ = 0 ∨ s.shType ≠ shtStrtab then none
    else
      match elfGetdata f s with
      | none => none
      | some _ => if offset < s.shSize then cString f.image (s.shOffset + offset) else none

/-- `elf_getshdrstrndx`. Without section headers nothing asks for it. -/
def elfGetshdrstrndx (f : ElfFile) : ℕ :=
  if f.ehdr.eShstrndx = 0xFFFF then (f.shdrs.head?.map Shdr.shLink).getD 0
  else f.ehdr.eShstrndx

/-- The sections `elf_nextscn` visits: all but the first. -/
def ElfFile.scns (f : ElfFile) : List Shdr := f.shdrs.drop 1

/-- What the converter sees of a section, if it has a name. -/
def ElfFile.section? (f : ElfFile) (s : Shdr) : Option ElfSection :=
  (elfStrptr f (elfGetshdrstrndx f) s.shName).map fun name =>
    { name := name.map fun b => Char.ofNat b.toNat
      shType := BitVec.ofNat 32 s.shType
      shAddr := BitVec.ofNat 64 s.shAddr
      shSize := BitVec.ofNat 64 s.shSize
      data := elfGetdata f s }

/-- The view of the whole file. -/
def ElfFile.elf (f : ElfFile) : Elf where
  kind := .elf
  eMachine := BitVec.ofNat 16 f.ehdr.eMachine
  eEntry := BitVec.ofNat 64 f.ehdr.eEntry
  sections := (f.scns.map f.section?).reduceOption

/-- The sections up to the first one without a name. -/
def ElfFile.namedSections (f : ElfFile) : List ElfSection :=
  ((f.scns.map f.section?).takeWhile Option.isSome).reduceOption

/-! ### Translations in place -/

/-- A relocation section that is kept, and whose data is translated. -/
def ElfFile.translates (f : ElfFile) (s : Shdr) : Bool :=
  ((f.section? s).bind relBlock?).isSome && elfScnType s.shType != .byte

/-- A relocation section that is kept, and whose entries run out of the
file. -/
def ElfFile.relRunsOut (f : ElfFile) (s : Shdr) : Bool := s.wraps && f.translates s

/-- Two ranges of bytes, each with its start and its length, without a
common byte. -/
def RangesApart (p n q m : ℕ) : Prop := n = 0 ∨ m = 0 ∨ p + n ≤ q ∨ q + m ≤ p

instance {p n q m : ℕ} : Decidable (RangesApart p n q m) := inferInstanceAs (Decidable (_ ∨ _))

/-- Where the name of a section starts. -/
def ElfFile.namePos (f : ElfFile) (s : Shdr) : ℕ :=
  ((f.shdrs[elfGetshdrstrndx f]?).map Shdr.shOffset).getD 0 + s.shName

/-- No byte that is translated in place belongs to another section that is
translated, or to a name. Loading is over by then. -/
structure ElfFile.TranslatesApart (f : ElfFile) : Prop where
  sections : (f.scns.filter f.translates).Pairwise fun s t =>
    RangesApart s.shOffset s.shSize t.shOffset t.shSize
  names : ∀ s ∈ f.scns.filter f.translates, ∀ t ∈ f.scns,
    ∀ name ∈ elfStrptr f (elfGetshdrstrndx f) t.shName,
      RangesApart s.shOffset s.shSize (f.namePos t) (name.length + 1)

instance {f : ElfFile} : Decidable f.TranslatesApart :=
  decidable_of_iff (_ ∧ _) ⟨fun h => ⟨h.1, h.2⟩, fun h => ⟨h.sections, h.names⟩⟩

/-! ### From the file on -/

/-- How the program ends on an input file. It is `overlapping` if sections
are translated over each other or over a name. -/
inductive FileOutcome
  | getehdrFailed (error : ElfError)
  | ended (outcome : Outcome)
  | overlapping
  deriving DecidableEq

/-- How a run ends that is undefined behind the loading of sections, unless
that is where it ends. -/
def loadOutcome : Except Stop LoadState → Outcome
  | .error (.exit e o) => .failure e o
  | _ => .undefinedBehaviour

/-- `novl_conv` once the headers are read. The sections are loaded in their
order, so a section that is refused comes before one without a name and
before any relocation. -/
def convertFile (f : ElfFile) (base : Word) : FileOutcome :=
  let elfEp := f.elf.eEntry.setWidth 32
  if f.elf.eMachine ≠ emMips then .ended (.failure .notMips .untouched)
  else if !(f.scns.map f.section?).all Option.isSome || f.scns.any f.relRunsOut then
    .ended (loadOutcome (loadSections elfEp f.namedSections))
  else if (loadSections elfEp f.elf.sections).isOk ∧ ¬ f.TranslatesApart then .overlapping
  else .ended (novlConvReporting f.elf base)

/-- `novl_conv` on the bytes of its input file. -/
def novlConvFile (image : List Byte) (base : Word) : FileOutcome :=
  match elfCheckType image with
  | .ar => .ended (.failure .archiveProvided .untouched)
  | .other => .ended (.failure .unsupportedFormat .untouched)
  | .elf =>
    match elfCook image with
    | .error (.failed e) => .getehdrFailed e
    | .error .undefinedBehaviour => .ended .undefinedBehaviour
    | .ok f => convertFile f base

end Novl
