import Novl.Libelf
import Novl.Reports

/-!
A writer for the files the converter reads, and that reading undoes it.

A plain ELF file lists its sections, each with its name, its address and
what it holds. It is written in either class and either byte order: the ELF
header, what the sections hold, the section names, and the section headers.
The program run on the bytes ends as the conversion of the plain file does.
-/

namespace Novl

open ByteOrder

/-- What a section holds: bytes under a type that is not translated,
relocation entries, or nothing but a size. -/
inductive Contents
  | bytes (shType : ℕ) (bs : List Byte)
  | entries (rels : List GElfRel)
  | reserved (size : ℕ)

structure PlainSection where
  name : List Byte
  addr : ℕ
  contents : Contents

structure PlainElf where
  machine : ℕ
  entry : ℕ
  sections : List PlainSection

/-! ### Sections that are not used -/

/-- The converter loads the section, or relocates by it. -/
def ElfSection.used (s : ElfSection) : Bool := (validSec s.name).isSome || (relBlock? s).isSome

theorem loadSections_filter_used (elfEp : Word) (ss : List ElfSection) :
    loadSections elfEp (ss.filter ElfSection.used) = loadSections elfEp ss := by
  rw [loadSections, loadSections]
  generalize LoadState.init = st
  induction ss generalizing st with
  | nil => rfl
  | cons s ss ih =>
      by_cases hused : s.used = true
      · rw [List.filter_cons_of_pos hused, List.foldlM_cons, List.foldlM_cons]
        exact congrArg _ (funext ih)
      · rw [List.filter_cons_of_neg hused, List.foldlM_cons, ih]
        have hstep : loadSection elfEp st s = .ok st := by
          rw [ElfSection.used, Bool.or_eq_true, not_or] at hused
          rw [loadSection, Option.not_isSome_iff_eq_none.mp hused.1]
        rw [hstep]
        rfl

theorem relBlocks_filter_used (ss : List ElfSection) :
    relBlocks (ss.filter ElfSection.used) = relBlocks ss := by
  rw [relBlocks, relBlocks, List.filterMap_filter]
  refine List.filterMap_congr fun s _ => ?_
  by_cases hused : s.used = true
  · rw [if_pos hused]
  · rw [if_neg hused]
    rw [ElfSection.used, Bool.or_eq_true, not_or] at hused
    exact (Option.not_isSome_iff_eq_none.mp hused.2).symm

/-- Sections that are not used change nothing, wherever they stand. -/
theorem convert_filter_used (elf : Elf) (base : Word) :
    convert { elf with sections := elf.sections.filter ElfSection.used } base =
      convert elf base := by
  simp only [convert, loadSections_filter_used, relBlocks_filter_used]

theorem novlConvReporting_filter_used (elf : Elf) (base : Word) :
    novlConvReporting { elf with sections := elf.sections.filter ElfSection.used } base =
      novlConvReporting elf base := by
  have hload (ep : Word) := loadSections_filter_used ep elf.sections
  have hblocks := relBlocks_filter_used elf.sections
  have hreports : (convertMesgs [] { elf with sections := elf.sections.filter ElfSection.used }
      base).any ConvMesg.isUndefined = (convertMesgs [] elf base).any ConvMesg.isUndefined := by
    rw [Bool.eq_iff_iff, any_isUndefined_iff, any_isUndefined_iff]
    exact and_congr Iff.rfl (exists_congr fun e => and_congr_left' ⟨.of_eq rfl hload hblocks,
      .of_eq rfl (fun ep => (hload ep).symm) hblocks.symm⟩)
  rw [novlConvReporting, novlConvReporting, hreports, novlConv, novlConv, convert_filter_used]

/-! ### What the converter sees of a plain file -/

def Contents.shType : Contents → ℕ
  | .bytes t _ => t
  | .entries _ => shtRel
  | .reserved _ => shtNobits

/-- The size in a file of the given class. -/
def Contents.size (c : ElfClass) : Contents → ℕ
  | .bytes _ bs => bs.length
  | .entries rels => rels.length * c.relSize
  | .reserved n => n

def Contents.data : Contents → ElfData
  | .bytes _ bs => ⟨bs, []⟩
  | .entries rels => ⟨[], rels⟩
  | .reserved _ => ⟨[], []⟩

def PlainSection.view (c : ElfClass) (s : PlainSection) : ElfSection where
  name := s.name.map fun b => Char.ofNat b.toNat
  shType := BitVec.ofNat 32 s.contents.shType
  shAddr := BitVec.ofNat 64 s.addr
  shSize := BitVec.ofNat 64 (s.contents.size c)
  data := some s.contents.data

def PlainElf.view (c : ElfClass) (e : PlainElf) : Elf where
  kind := .elf
  eMachine := BitVec.ofNat 16 e.machine
  eEntry := BitVec.ofNat 64 e.entry
  sections := e.sections.map (PlainSection.view c)

/-! ### The writer -/

/-- `r_info` as a file of the class has it: symbol and type. -/
def infoField (c : ElfClass) (info : BitVec 64) : ℕ :=
  match c with
  | .class32 => info.toNat / 2 ^ 32 * 256 + info.toNat % 2 ^ 32
  | .class64 => info.toNat

def relRecord (c : ElfClass) (o : ByteOrder) (r : GElfRel) : List Byte :=
  o.record [(c.width, r.rOffset.toNat), (c.width, infoField c r.rInfo)]

def Contents.image (c : ElfClass) (o : ByteOrder) : Contents → List Byte
  | .bytes _ bs => bs
  | .entries rels => rels.flatMap (relRecord c o)
  | .reserved _ => []

def shdrRecord (c : ElfClass) (o : ByteOrder) (s : Shdr) : List Byte :=
  let w := c.width
  o.record [(4, s.shName), (4, s.shType), (w, 0), (w, s.shAddr), (w, s.shOffset), (w, s.shSize),
    (4, s.shLink), (4, s.shInfo), (w, 0), (w, 0)]

/-- `EI_CLASS` and `EI_DATA`. -/
def classByte : ElfClass → Byte
  | .class32 => 1
  | .class64 => 2

def dataByte : ByteOrder → Byte
  | .little => 1
  | .big => 2

/-- `e_ident`. -/
def identBytes (c : ElfClass) (o : ByteOrder) : List Byte :=
  elfMag ++ [classByte c, dataByte o, 1, 0, 0, 0, 0, 0, 0, 0, 0, 0]

def ehdrRecord (c : ElfClass) (o : ByteOrder) (h : Ehdr) : List Byte :=
  let w := c.width
  o.record [(2, 2), (2, h.eMachine), (4, 1), (w, h.eEntry), (w, h.ePhoff), (w, h.eShoff), (4, 0),
    (2, c.ehdrSize), (2, h.ePhentsize), (2, h.ePhnum), (2, h.eShentsize), (2, h.eShnum),
    (2, h.eShstrndx)]

/-- `.shstrtab`. -/
def shstrtabName : List Byte := [0x2E, 0x73, 0x68, 0x73, 0x74, 0x72, 0x74, 0x61, 0x62]

/-- Names as they stand in a string table. -/
def nameBytes (ss : List PlainSection) : List Byte := ss.flatMap fun s => s.name ++ [0]

/-- What the sections hold, one behind the other. -/
def imageBytes (c : ElfClass) (o : ByteOrder) (ss : List PlainSection) : List Byte :=
  ss.flatMap fun s => s.contents.image c o

/-- The names of all sections, behind an empty one. -/
def PlainElf.names (e : PlainElf) : List Byte := 0 :: (nameBytes e.sections ++ shstrtabName ++ [0])

def PlainElf.namesSection (e : PlainElf) : PlainSection where
  name := shstrtabName
  addr := 0
  contents := .bytes shtStrtab e.names

/-- The sections with the one for their names. -/
def PlainElf.allSections (e : PlainElf) : List PlainSection := e.sections ++ [e.namesSection]

def PlainSection.shdr (c : ElfClass) (namePos pos : ℕ) (s : PlainSection) : Shdr where
  shName := namePos
  shType := s.contents.shType
  shAddr := s.addr
  shOffset := pos
  shSize := s.contents.size c
  shLink := 0
  shInfo := 0

/-- The headers of sections whose names and contents start at the given
positions. -/
def shdrsFrom (c : ElfClass) (o : ByteOrder) (namePos pos : ℕ) : List PlainSection → List Shdr
  | [] => []
  | s :: ss => s.shdr c namePos pos ::
      shdrsFrom c o (namePos + (s.name.length + 1)) (pos + (s.contents.image c o).length) ss

def nullShdr : Shdr := ⟨0, shtNull, 0, 0, 0, 0, 0⟩

def PlainElf.shdrs (c : ElfClass) (o : ByteOrder) (e : PlainElf) : List Shdr :=
  nullShdr :: shdrsFrom c o 1 c.ehdrSize e.allSections

def PlainElf.ehdr (c : ElfClass) (o : ByteOrder) (e : PlainElf) : Ehdr where
  eMachine := e.machine
  eEntry := e.entry
  ePhoff := 0
  eShoff := c.ehdrSize + (imageBytes c o e.allSections).length
  ePhentsize := 0
  ePhnum := 0
  eShentsize := c.shdrSize
  eShnum := e.sections.length + 2
  eShstrndx := e.sections.length + 1

def PlainElf.encode (c : ElfClass) (o : ByteOrder) (e : PlainElf) : List Byte :=
  identBytes c o ++ ehdrRecord c o (e.ehdr c o) ++
    (imageBytes c o e.allSections ++ (e.shdrs c o).flatMap (shdrRecord c o))

/-! ### What can be written -/

def GElfRel.Fits (c : ElfClass) (r : GElfRel) : Prop :=
  c = .class32 →
    r.rOffset.toNat < 2 ^ 32 ∧ r.rInfo.toNat / 2 ^ 32 < 2 ^ 24 ∧ r.rInfo.toNat % 2 ^ 32 < 256

def Contents.Fits (c : ElfClass) : Contents → Prop
  | .bytes t _ => t < 2 ^ 32 ∧ t ≠ shtNull ∧ t ≠ shtNobits ∧ elfScnType t = .byte
  | .entries rels => ∀ r ∈ rels, r.Fits c
  | .reserved n => n < 256 ^ c.width

structure PlainSection.Fits (c : ElfClass) (s : PlainSection) : Prop where
  name : 0 ∉ s.name
  addr : s.addr < 256 ^ c.width
  contents : s.contents.Fits c

/-- A plain file that a file of the class and byte order can hold. -/
structure PlainElf.Fits (c : ElfClass) (o : ByteOrder) (e : PlainElf) : Prop where
  machine : e.machine < 2 ^ 16
  entry : e.entry < 256 ^ c.width
  count : e.sections.length + 2 < 0xFF00
  names : e.names.length < 2 ^ 32
  sections : ∀ s ∈ e.sections, s.Fits c
  length : (e.encode c o).length < 256 ^ c.width

/-! ### Headers are read back -/

section Headers

variable {c : ElfClass} {o : ByteOrder}

theorem ElfClass.relSize_pos (c : ElfClass) : 0 < c.relSize := by cases c <;> decide

theorem length_identBytes : (identBytes c o).length = 16 := rfl

theorem length_ehdrRecord (h : Ehdr) : (ehdrRecord c o h).length = 24 + 3 * c.width := by
  rw [ehdrRecord, length_record]
  simp only [widths, List.map_cons, List.map_nil, List.sum_cons, List.sum_nil]
  omega

theorem length_shdrRecord (s : Shdr) : (shdrRecord c o s).length = c.shdrSize := by
  rw [shdrRecord, length_record, ElfClass.shdrSize]
  simp only [widths, List.map_cons, List.map_nil, List.sum_cons, List.sum_nil]
  omega

theorem length_relRecord (r : GElfRel) : (relRecord c o r).length = c.relSize := by
  rw [relRecord, length_record, ElfClass.relSize]
  simp only [widths, List.map_cons, List.map_nil, List.sum_cons, List.sum_nil]
  omega

/-- A section header whose values fit its fields. -/
structure Shdr.Fits (c : ElfClass) (s : Shdr) : Prop where
  name : s.shName < 2 ^ 32
  type : s.shType < 2 ^ 32
  addr : s.shAddr < 256 ^ c.width
  offset : s.shOffset < 256 ^ c.width
  size : s.shSize < 256 ^ c.width
  link : s.shLink < 2 ^ 32
  info : s.shInfo < 2 ^ 32

theorem readShdr_shdrRecord {s : Shdr} (h : s.Fits c) (front rest : List Byte) :
    readShdr c o (front ++ (shdrRecord c o s ++ rest)) front.length = s := by
  obtain ⟨name, type, addr, offset, size, link, info⟩ := s
  obtain ⟨hname, htype, haddr, hoffset, hsize, hlink, hinfo⟩ := h
  simp only at hname htype haddr hoffset hsize hlink hinfo
  rw [readShdr, shdrRecord, Shdr.mk.injEq]
  refine ⟨field_record_inside [] rfl rfl hname,
    field_record_inside [_] rfl rfl htype,
    field_record_inside [_, _, _] rfl ?_ haddr,
    field_record_inside [_, _, _, _] rfl ?_ hoffset,
    field_record_inside [_, _, _, _, _] rfl ?_ hsize,
    field_record_inside [_, _, _, _, _, _] rfl ?_ hlink,
    field_record_inside [_, _, _, _, _, _, _] rfl ?_ hinfo⟩
  all_goals
    simp only [widths, List.map_cons, List.map_nil, List.sum_cons, List.sum_nil]
    omega

/-- An ELF header whose values fit its fields. -/
structure Ehdr.Fits (c : ElfClass) (h : Ehdr) : Prop where
  machine : h.eMachine < 2 ^ 16
  entry : h.eEntry < 256 ^ c.width
  phoff : h.ePhoff < 256 ^ c.width
  shoff : h.eShoff < 256 ^ c.width
  phentsize : h.ePhentsize < 2 ^ 16
  phnum : h.ePhnum < 2 ^ 16
  shentsize : h.eShentsize < 2 ^ 16
  shnum : h.eShnum < 2 ^ 16
  shstrndx : h.eShstrndx < 2 ^ 16

theorem readEhdr_ehdrRecord {h : Ehdr} (hfits : h.Fits c) (rest : List Byte) :
    readEhdr c o (identBytes c o ++ (ehdrRecord c o h ++ rest)) = h := by
  obtain ⟨machine, entry, phoff, shoff, phentsize, phnum, shentsize, shnum, shstrndx⟩ := h
  obtain ⟨hmachine, hentry, hphoff, hshoff, hphentsize, hphnum, hshentsize, hshnum, hshstrndx⟩ :=
    hfits
  simp only at hmachine hentry hphoff hshoff hphentsize hphnum hshentsize hshnum hshstrndx
  rw [readEhdr, ehdrRecord, Ehdr.mk.injEq]
  refine ⟨field_record_inside [_] rfl ?_ hmachine,
    field_record_inside [_, _, _] rfl ?_ hentry,
    field_record_inside [_, _, _, _] rfl ?_ hphoff,
    field_record_inside [_, _, _, _, _] rfl ?_ hshoff,
    field_record_inside [_, _, _, _, _, _, _, _] rfl ?_ hphentsize,
    field_record_inside [_, _, _, _, _, _, _, _, _] rfl ?_ hphnum,
    field_record_inside [_, _, _, _, _, _, _, _, _, _] rfl ?_ hshentsize,
    field_record_inside [_, _, _, _, _, _, _, _, _, _, _] rfl ?_ hshnum,
    field_record_inside [_, _, _, _, _, _, _, _, _, _, _, _] rfl ?_ hshstrndx⟩
  all_goals
    rw [length_identBytes]
    simp only [widths, List.map_cons, List.map_nil, List.sum_cons, List.sum_nil]
    omega

/-- Offset and symbol and type of an entry fit their fields, and are what
comes out of them. -/
theorem GElfRel.Fits.fields {r : GElfRel} (h : r.Fits c) :
    r.rOffset.toNat < 256 ^ c.width ∧ infoField c r.rInfo < 256 ^ c.width ∧
      relInfo c (infoField c r.rInfo) = r.rInfo := by
  have hinfo := r.rInfo.isLt
  cases c with
  | class32 =>
      obtain ⟨hoffset, hsym, htype⟩ := h rfl
      simp only [ElfClass.width, infoField, relInfo]
      refine ⟨hoffset, by omega, BitVec.eq_of_toNat_eq ?_⟩
      rw [BitVec.toNat_ofNat]
      omega
  | class64 =>
      refine ⟨r.rOffset.isLt, hinfo, ?_⟩
      rw [relInfo, infoField, BitVec.ofNat_toNat, BitVec.setWidth_eq]

theorem gelfGetrel_relRecord {r : GElfRel} (h : r.Fits c) (front rest : List Byte) :
    gelfGetrel c o (front ++ (relRecord c o r ++ rest)) front.length = r := by
  obtain ⟨hoffset, hinfo, hback⟩ := h.fields
  have hfirst : o.field (front ++ (relRecord c o r ++ rest)) front.length c.width =
      r.rOffset.toNat := field_record_inside [] rfl rfl hoffset
  have hsecond : o.field (front ++ (relRecord c o r ++ rest)) (front.length + c.width) c.width =
      infoField c r.rInfo := field_record_inside [_] rfl rfl hinfo
  rw [gelfGetrel, hfirst, hsecond, hback, BitVec.ofNat_toNat, BitVec.setWidth_eq]

end Headers

/-! ### The file that is written -/

section Written

variable {c : ElfClass} {o : ByteOrder} {e : PlainElf}

theorem length_shdrsFrom (namePos pos : ℕ) (ss : List PlainSection) :
    (shdrsFrom c o namePos pos ss).length = ss.length := by
  induction ss generalizing namePos pos with
  | nil => rfl
  | cons s ss ih => rw [shdrsFrom, List.length_cons, ih, List.length_cons]

theorem shdrsFrom_append (namePos pos : ℕ) (pre post : List PlainSection) :
    shdrsFrom c o namePos pos (pre ++ post) = shdrsFrom c o namePos pos pre ++
      shdrsFrom c o (namePos + (nameBytes pre).length) (pos + (imageBytes c o pre).length)
        post := by
  induction pre generalizing namePos pos with
  | nil => rfl
  | cons s pre ih =>
      rw [List.cons_append, shdrsFrom, shdrsFrom, ih, List.cons_append]
      simp only [nameBytes, imageBytes, List.flatMap_cons, List.length_append, List.length_cons,
        List.length_nil, Nat.zero_add, Nat.add_assoc]

/-- What reading the headers of the written file gives. -/
def PlainElf.file (c : ElfClass) (o : ByteOrder) (e : PlainElf) : ElfFile where
  image := e.encode c o
  class_ := c
  order := o
  ehdr := e.ehdr c o
  shdrs := e.shdrs c o

theorem names_eq : e.names = 0 :: nameBytes e.allSections := by
  rw [PlainElf.names, PlainElf.allSections, nameBytes, nameBytes, List.flatMap_append,
    List.flatMap_singleton, List.append_assoc]
  rfl

theorem length_shdrs : (e.shdrs c o).length = e.sections.length + 2 := by
  rw [PlainElf.shdrs, List.length_cons, length_shdrsFrom, PlainElf.allSections, List.length_append]
  rfl

theorem length_headers (h : Ehdr) :
    (identBytes c o ++ ehdrRecord c o h).length = c.ehdrSize := by
  rw [List.length_append, length_identBytes, length_ehdrRecord, ElfClass.ehdrSize]
  omega

theorem length_encode : (e.encode c o).length =
    c.ehdrSize + (imageBytes c o e.allSections).length + (e.sections.length + 2) * c.shdrSize := by
  rw [PlainElf.encode, List.length_append, length_headers, List.length_append,
    length_table length_shdrRecord, length_shdrs, Nat.add_assoc]

theorem allSections_fits (h : e.Fits c o) {s : PlainSection} (hs : s ∈ e.allSections) :
    s.Fits c := by
  rw [PlainElf.allSections, List.mem_append, List.mem_singleton] at hs
  rcases hs with hs | rfl
  · exact h.sections s hs
  · have hname : 0 ∉ shstrtabName := by decide
    exact ⟨hname, Nat.pow_pos (by decide), by decide, by decide, by decide, rfl⟩

/-- The size of what a section holds, where the file has it. -/
theorem Contents.length_image (k : Contents) (hk : ∀ n, k ≠ .reserved n) :
    (k.image c o).length = k.size c := by
  cases k with
  | bytes t bs => rfl
  | entries rels => exact length_table length_relRecord
  | reserved n => exact absurd rfl (hk n)

theorem imageBytes_append (pre post : List PlainSection) :
    imageBytes c o (pre ++ post) = imageBytes c o pre ++ imageBytes c o post :=
  List.flatMap_append

/-- The place of a section among the bytes of the file. -/
theorem encode_split {pre post : List PlainSection} {s : PlainSection}
    (hall : e.allSections = pre ++ s :: post) :
    ∃ front rest, e.encode c o = front ++ (s.contents.image c o ++ rest) ∧
      front.length = c.ehdrSize + (imageBytes c o pre).length := by
  refine ⟨identBytes c o ++ ehdrRecord c o (e.ehdr c o) ++ imageBytes c o pre,
    imageBytes c o post ++ (e.shdrs c o).flatMap (shdrRecord c o), ?_, ?_⟩
  · rw [PlainElf.encode, hall, imageBytes_append]
    simp only [imageBytes, List.flatMap_cons, List.append_assoc]
  · rw [List.length_append, length_headers]

theorem shdr_fits (h : e.Fits c o) {pre post : List PlainSection} {s : PlainSection}
    (hall : e.allSections = pre ++ s :: post) :
    (s.shdr c (1 + (nameBytes pre).length) (c.ehdrSize + (imageBytes c o pre).length)).Fits c := by
  have hs : s.Fits c := allSections_fits h (by rw [hall]; exact List.mem_append_cons_self)
  have hlength := h.length
  have hnames := h.names
  obtain ⟨front, rest, himage, hfront⟩ := encode_split (c := c) (o := o) hall
  rw [himage, List.length_append, List.length_append, hfront] at hlength
  rw [names_eq, hall, nameBytes, List.flatMap_append, List.length_cons, List.length_append,
    ← nameBytes] at hnames
  have hshType : s.contents.shType < 2 ^ 32 := by
    cases hcontents : s.contents with
    | bytes t bs =>
        have hfits := hs.contents
        rw [hcontents] at hfits
        exact hfits.1
    | entries rels =>
        have hrel : shtRel < 2 ^ 32 := by decide
        exact hrel
    | reserved n =>
        have hnobits : shtNobits < 2 ^ 32 := by decide
        exact hnobits
  have hsize : s.contents.size c < 256 ^ c.width := by
    cases hcontents : s.contents with
    | bytes t bs =>
        have hbytes : (s.contents.image c o).length = bs.length := by rw [hcontents]; rfl
        rw [Contents.size]
        omega
    | entries rels =>
        have hentries := Contents.length_image (c := c) (o := o) (.entries rels) (by simp)
        rw [← hentries, ← hcontents]
        omega
    | reserved n =>
        have hfits := hs.contents
        rw [hcontents] at hfits
        exact hfits
  exact ⟨by simp only [PlainSection.shdr]; omega, hshType, hs.addr,
    by simp only [PlainSection.shdr]; omega, hsize, Nat.two_pow_pos 32, Nat.two_pow_pos 32⟩

/-- A relation between sections and their headers, section by section. -/
theorem forall₂_shdrsFrom {R : PlainSection → Shdr → Prop} {namePos pos : ℕ}
    {ss : List PlainSection} (h : ∀ pre s post, ss = pre ++ s :: post →
      R s (s.shdr c (namePos + (nameBytes pre).length) (pos + (imageBytes c o pre).length))) :
    List.Forall₂ R ss (shdrsFrom c o namePos pos ss) := by
  induction ss generalizing namePos pos with
  | nil => exact .nil
  | cons s ss ih =>
      rw [shdrsFrom]
      refine .cons (h [] s ss rfl) (ih fun pre s' post hss => ?_)
      have hs' := h (s :: pre) s' post (by rw [hss, List.cons_append])
      have hnames : (nameBytes (s :: pre)).length =
          (s.name.length + 1) + (nameBytes pre).length := by
        rw [nameBytes, List.flatMap_cons, List.length_append, List.length_append]
        rfl
      have himage : (imageBytes c o (s :: pre)).length =
          (s.contents.image c o).length + (imageBytes c o pre).length := by
        rw [imageBytes, List.flatMap_cons, List.length_append]
        rfl
      rw [hnames, himage] at hs'
      simp only [Nat.add_assoc] at hs' ⊢
      exact hs'

/-- The headers that are written fit. -/
theorem shdrs_fit (h : e.Fits c o) : ∀ s ∈ e.shdrs c o, s.Fits c := by
  intro s hs
  rcases List.mem_cons.mp hs with rfl | hs
  · have hzero : 0 < 256 ^ c.width := Nat.pow_pos (by decide)
    exact ⟨by decide, by decide, hzero, hzero, hzero, by decide, by decide⟩
  · have hall := forall₂_shdrsFrom (R := fun _ s => s.Fits c) fun pre s post => shdr_fits h
    obtain ⟨i, hi, rfl⟩ := List.mem_iff_getElem.mp hs
    exact List.Forall₂.get hall (by rwa [length_shdrsFrom] at hi) hi

theorem ehdr_fits (h : e.Fits c o) : (e.ehdr c o).Fits c := by
  have hlength := h.length
  have hcount := h.count
  have hpos : 0 < 256 ^ c.width := Nat.pow_pos (by decide)
  rw [length_encode] at hlength
  have hentsize : c.shdrSize < 2 ^ 16 := by cases c <;> decide
  refine ⟨h.machine, h.entry, hpos, ?_, Nat.two_pow_pos 16, Nat.two_pow_pos 16, hentsize, ?_, ?_⟩
  all_goals simp only [PlainElf.ehdr]; omega

/-- The headers of the written file are read back. -/
theorem elfCook_encode (h : e.Fits c o) : elfCook (e.encode c o) = .ok (e.file c o) := by
  have hehdr : readEhdr c o (e.encode c o) = e.ehdr c o := by
    rw [PlainElf.encode, List.append_assoc]
    exact readEhdr_ehdrRecord (ehdr_fits h) _
  have hlength := length_encode (e := e) (c := c) (o := o)
  have hshdrSize : 0 < c.shdrSize := by cases c <;> decide
  have htable : (List.range (e.sections.length + 2)).map (fun i =>
      readShdr c o (e.encode c o) ((e.ehdr c o).eShoff + i * c.shdrSize)) = e.shdrs c o := by
    have hread := map_range_table (readShdr c o) length_shdrRecord
      (fun s hs => readShdr_shdrRecord (shdrs_fit h s hs))
      (identBytes c o ++ ehdrRecord c o (e.ehdr c o) ++ imageBytes c o e.allSections) []
    rw [length_shdrs, List.append_nil, List.append_assoc, List.length_append, length_headers]
      at hread
    exact hread
  have hshdrs : elfCookShdr c o (e.encode c o) (e.ehdr c o) = .ok (e.shdrs c o) := by
    have hoff : (e.ehdr c o).eShoff = c.ehdrSize + (imageBytes c o e.allSections).length := rfl
    have hnum : (e.ehdr c o).eShnum = e.sections.length + 2 := rfl
    have hentsize : (e.ehdr c o).eShentsize = c.shdrSize := rfl
    have hehdrSize : 0 < c.ehdrSize := by cases c <;> decide
    have hroom : e.sections.length + 2 ≤
        ((e.encode c o).length - (e.ehdr c o).eShoff) / c.shdrSize := by
      rw [Nat.le_div_iff_mul_le hshdrSize]
      omega
    rw [elfCookShdr, if_neg (by omega), if_neg (by omega), if_neg (not_not.mpr hentsize),
      if_neg (by omega)]
    simp only
    rw [if_neg (show ¬ (e.ehdr c o).eShnum = 0 by omega), hentsize, hnum, if_neg (by omega),
      if_neg (by omega), htable]
  have hfile : elfCookFile c o (e.encode c o) = .ok (e.file c o) := by
    rw [elfCookFile, if_neg (by rw [hlength]; omega)]
    -- Without program headers nothing is read after the table.
    simp only [hehdr, hshdrs]
    rfl
  have hversion : (e.encode c o).getD 6 0 = 1 := rfl
  have hdata : (e.encode c o).getD 5 0 = dataByte o := rfl
  have hclass : (e.encode c o).getD 4 0 = classByte c := rfl
  rw [elfCook, hversion, hdata, hclass]
  cases c with
  | class32 => cases o with
    | little => exact hfile
    | big => exact hfile
  | class64 => cases o with
    | little => exact hfile
    | big => exact hfile

/-! ### Sections are read back -/

section Getdata

variable {f : ElfFile} {s : Shdr}

theorem elfGetdata_bytes (hnull : s.shType ≠ shtNull) (hnobits : s.shType ≠ shtNobits)
    (htype : elfScnType s.shType = .byte) (hinside : s.shOffset + s.shSize ≤ f.image.length)
    (hlength : f.image.length < 2 ^ 64) :
    elfGetdata f s = some ⟨slice f.image s.shOffset s.shSize, []⟩ := by
  have hwraps : s.wraps = false := by
    rw [Shdr.wraps, decide_eq_false_iff_not]
    omega
  rw [elfGetdata, if_neg hnull, if_neg (by omega)]
  by_cases hsize : s.shSize = 0
  · rw [if_pos (Or.inr hsize), hsize, slice, List.take_zero]
  · rw [if_neg (not_or.mpr ⟨hnobits, hsize⟩), if_neg (by omega), htype, hwraps]
    rfl

theorem elfGetdata_entries (htype : s.shType = shtRel)
    (hinside : s.shOffset + s.shSize ≤ f.image.length) (hlength : f.image.length < 2 ^ 64) :
    elfGetdata f s = some ⟨[], (List.range (s.shSize / f.class_.relSize)).map fun k =>
      gelfGetrel f.class_ f.order f.image (s.shOffset + k * f.class_.relSize)⟩ := by
  have hnull : s.shType ≠ shtNull := by rw [htype]; decide
  have hnobits : s.shType ≠ shtNobits := by rw [htype]; decide
  have hrel : elfScnType s.shType = .rel := by rw [htype]; rfl
  rw [elfGetdata, if_neg hnull, if_neg (by omega)]
  by_cases hsize : s.shSize = 0
  · rw [if_pos (Or.inr hsize), hsize, Nat.zero_div]
    rfl
  · rw [if_neg (not_or.mpr ⟨hnobits, hsize⟩), if_neg (by omega), hrel]

theorem elfGetdata_reserved (htype : s.shType = shtNobits)
    (hinside : s.shOffset ≤ f.image.length) : elfGetdata f s = some ⟨[], []⟩ := by
  have hnull : s.shType ≠ shtNull := by rw [htype]; decide
  rw [elfGetdata, if_neg hnull, if_neg (by omega), if_pos (Or.inl htype)]

end Getdata

/-- The data of a section of the written file. -/
theorem elfGetdata_written (h : e.Fits c o) {pre post : List PlainSection} {s : PlainSection}
    (hall : e.allSections = pre ++ s :: post) :
    elfGetdata (e.file c o)
      (s.shdr c (1 + (nameBytes pre).length) (c.ehdrSize + (imageBytes c o pre).length)) =
        some s.contents.data := by
  have hs : s.Fits c := allSections_fits h (by rw [hall]; exact List.mem_append_cons_self)
  obtain ⟨name, addr, contents⟩ := s
  have hcontents := hs.contents
  obtain ⟨front, rest, himage, hfront⟩ := encode_split (c := c) (o := o) hall
  have hlength : (e.encode c o).length < 2 ^ 64 := by
    have hbound : 256 ^ c.width ≤ 2 ^ 64 := by cases c <;> decide
    exact h.length.trans_le hbound
  have hroom := congrArg List.length himage
  rw [List.length_append, List.length_append, hfront] at hroom
  cases contents with
  | bytes t bs =>
      obtain ⟨-, hnull, hnobits, htype⟩ := hcontents
      have hinside : c.ehdrSize + (imageBytes c o pre).length + bs.length ≤
          (e.encode c o).length := by
        rw [hroom, Contents.image]
        omega
      rw [elfGetdata_bytes hnull hnobits htype hinside hlength]
      have hslice : slice (e.encode c o) (c.ehdrSize + (imageBytes c o pre).length) bs.length =
          bs := by
        rw [himage, ← hfront]
        exact slice_middle rfl
      exact congrArg (fun b => some (ElfData.mk b [])) hslice
  | entries rels =>
      have hsize : (rels.flatMap (relRecord c o)).length = rels.length * c.relSize :=
        length_table length_relRecord
      have hinside : c.ehdrSize + (imageBytes c o pre).length + rels.length * c.relSize ≤
          (e.encode c o).length := by
        rw [hroom, Contents.image, hsize]
        omega
      rw [elfGetdata_entries rfl hinside hlength]
      have hread := map_range_table (gelfGetrel c o) length_relRecord
        (fun r hr => gelfGetrel_relRecord (hcontents r hr)) front rest
      rw [hfront] at hread
      have hrels : (List.range (rels.length * c.relSize / c.relSize)).map (fun k =>
          gelfGetrel c o (e.encode c o)
            (c.ehdrSize + (imageBytes c o pre).length + k * c.relSize)) = rels := by
        rw [Nat.mul_div_cancel _ c.relSize_pos, himage]
        exact hread
      exact congrArg (fun r => some (ElfData.mk [] r)) hrels
  | reserved n =>
      have hinside : c.ehdrSize + (imageBytes c o pre).length ≤ (e.encode c o).length := by omega
      exact elfGetdata_reserved rfl hinside

theorem cString_middle {front name rest : List Byte} (hname : 0 ∉ name) :
    cString (front ++ (name ++ 0 :: rest)) front.length = some name := by
  rw [cString, List.drop_left, if_pos (by simp), List.takeWhile_append_of_pos]
  · rw [List.takeWhile_cons_of_neg (by decide), List.append_nil]
  · intro b hb
    rw [decide_eq_true_iff]
    rintro rfl
    exact hname hb

/-- The section that holds the names, and where its header is. -/
theorem names_section : (e.file c o).shdrs[e.sections.length + 1]? = some
    (e.namesSection.shdr c (1 + (nameBytes e.sections).length)
      (c.ehdrSize + (imageBytes c o e.sections).length)) := by
  rw [PlainElf.file, PlainElf.shdrs, List.getElem?_cons_succ, PlainElf.allSections,
    shdrsFrom_append, List.getElem?_append_right (by rw [length_shdrsFrom]), length_shdrsFrom,
    Nat.sub_self]
  rfl

/-- The name of a section of the written file. -/
theorem elfStrptr_written (h : e.Fits c o) {pre post : List PlainSection} {s : PlainSection}
    (hall : e.allSections = pre ++ s :: post) :
    elfStrptr (e.file c o) (e.sections.length + 1) (1 + (nameBytes pre).length) = some s.name := by
  have hs : s.Fits c := allSections_fits h (by rw [hall]; exact List.mem_append_cons_self)
  have hlast : e.allSections = e.sections ++ e.namesSection :: [] := rfl
  have htable := elfGetdata_written h hlast
  obtain ⟨front, rest, himage, hfront⟩ := encode_split (c := c) (o := o) hlast
  have hnames : e.names = (0 :: nameBytes pre) ++ (s.name ++ 0 :: nameBytes post) := by
    rw [names_eq, hall, nameBytes, List.flatMap_append, List.flatMap_cons, List.append_assoc]
    rfl
  have hoffset : 1 + (nameBytes pre).length < e.names.length := by
    rw [hnames, List.length_append, List.length_append, List.length_cons, List.length_cons]
    omega
  have hpos : c.ehdrSize + (imageBytes c o e.sections).length + (1 + (nameBytes pre).length) =
      (front ++ 0 :: nameBytes pre).length := by
    rw [List.length_append, List.length_cons, hfront]
    omega
  rw [elfStrptr, names_section]
  simp only [htable]
  rw [if_neg (by simp [PlainSection.shdr, Contents.shType, PlainElf.namesSection])]
  refine (if_pos hoffset).trans ?_
  change cString (e.encode c o)
    (c.ehdrSize + (imageBytes c o e.sections).length + (1 + (nameBytes pre).length)) = some s.name
  rw [hpos]
  have hsplit : e.encode c o = (front ++ 0 :: nameBytes pre) ++
      (s.name ++ 0 :: (nameBytes post ++ rest)) := by
    have hcontents : e.namesSection.contents.image c o = e.names := rfl
    rw [himage, hcontents, hnames]
    simp only [List.append_assoc, List.cons_append]
  rw [hsplit]
  exact cString_middle hs.name

theorem elfGetshdrstrndx_written (h : e.Fits c o) :
    elfGetshdrstrndx (e.file c o) = e.sections.length + 1 := by
  have hcount := h.count
  have hndx : (e.file c o).ehdr.eShstrndx = e.sections.length + 1 := rfl
  rw [elfGetshdrstrndx, hndx, if_neg (by omega)]

/-- The sections of the written file are what was written, with the section
for the names behind them. -/
theorem sections_written (h : e.Fits c o) :
    (e.file c o).scns.map (e.file c o).section? =
      e.allSections.map fun s => some (s.view c) := by
  have hall : List.Forall₂ (fun s hdr => some (s.view c) = (e.file c o).section? hdr)
      e.allSections (shdrsFrom c o 1 c.ehdrSize e.allSections) := by
    refine forall₂_shdrsFrom fun pre s post hsplit => ?_
    rw [ElfFile.section?, elfGetshdrstrndx_written h, elfGetdata_written h hsplit]
    simp only [PlainSection.shdr, elfStrptr_written h hsplit, Option.map_some]
    rfl
  have hmap := List.forall₂_map_left_iff.mpr (List.forall₂_map_right_iff.mpr hall)
  rw [List.forall₂_eq_eq_eq] at hmap
  exact hmap.symm

theorem elf_written (h : e.Fits c o) : (e.file c o).elf =
    { e.view c with sections := e.allSections.map (PlainSection.view c) } := by
  rw [ElfFile.elf, sections_written h, Elf.mk.injEq]
  refine ⟨rfl, rfl, rfl, ?_⟩
  have hsome : e.allSections.map (fun s => some (s.view c)) =
      (e.allSections.map (PlainSection.view c)).map some := by
    rw [List.map_map]
    rfl
  rw [hsome]
  change List.filterMap id _ = _
  rw [List.filterMap_map]
  exact List.filterMap_some

theorem not_relRunsOut_written (h : e.Fits c o) :
    ∀ s ∈ (e.file c o).scns, (e.file c o).relRunsOut s = false := by
  have hall : List.Forall₂ (fun _ hdr => (e.file c o).relRunsOut hdr = false) e.allSections
      (shdrsFrom c o 1 c.ehdrSize e.allSections) := by
    refine forall₂_shdrsFrom fun pre s post hsplit => ?_
    have hs : s.Fits c := allSections_fits h (by rw [hsplit]; exact List.mem_append_cons_self)
    obtain ⟨name, addr, contents⟩ := s
    have hcontents := hs.contents
    rw [ElfFile.relRunsOut, ElfFile.translates]
    cases contents with
    | bytes t bs =>
        have htype : (elfScnType t != .byte) = false := by rw [hcontents.2.2.2]; rfl
        simp only [PlainSection.shdr, Contents.shType, htype, Bool.and_false]
    | entries rels =>
        obtain ⟨front, rest, himage, hfront⟩ := encode_split (c := c) (o := o) hsplit
        have hroom := congrArg List.length himage
        have hlength := h.length
        have hbound : 256 ^ c.width ≤ 2 ^ 64 := by cases c <;> decide
        have hsize : ((Contents.entries rels).image c o).length =
            (Contents.entries rels).size c := Contents.length_image _ (by simp)
        simp only [List.length_append, hfront, hsize] at hroom
        have hwraps : (PlainSection.shdr c (1 + (nameBytes pre).length)
            (c.ehdrSize + (imageBytes c o pre).length) ⟨name, addr, .entries rels⟩).wraps =
              false := by
          rw [Shdr.wraps, decide_eq_false_iff_not]
          simp only [PlainSection.shdr]
          omega
        rw [hwraps, Bool.false_and]
    | reserved n =>
        have htype : (elfScnType shtNobits != .byte) = false := rfl
        simp only [PlainSection.shdr, Contents.shType, htype, Bool.and_false]
  intro s hs
  obtain ⟨i, hi, rfl⟩ := List.mem_iff_getElem.mp hs
  have hi' : i < (shdrsFrom c o 1 c.ehdrSize e.allSections).length := hi
  exact List.Forall₂.get hall (by rwa [length_shdrsFrom] at hi') hi'

theorem le_shOffset_of_mem {namePos pos : ℕ} {ss : List PlainSection} {s : Shdr}
    (hs : s ∈ shdrsFrom c o namePos pos ss) : pos ≤ s.shOffset := by
  induction ss generalizing namePos pos with
  | nil => cases hs
  | cons p ss ih =>
      rw [shdrsFrom] at hs
      rcases List.mem_cons.mp hs with rfl | hs
      · exact le_refl pos
      · exact (Nat.le_add_right _ _).trans (ih hs)

/-- What is written of a section ends in front of the next one. -/
theorem pairwise_shdrsFrom (namePos pos : ℕ) (ss : List PlainSection) :
    (shdrsFrom c o namePos pos ss).Pairwise fun s t =>
      s.shType ≠ shtNobits → s.shOffset + s.shSize ≤ t.shOffset := by
  induction ss generalizing namePos pos with
  | nil => exact .nil
  | cons p ss ih =>
      rw [shdrsFrom]
      refine .cons (fun t ht hnobits => ?_) (ih _ _)
      have hsize : (p.contents.image c o).length = p.contents.size c := by
        refine Contents.length_image _ fun n hn => hnobits ?_
        simp only [PlainSection.shdr, hn]
        rfl
      have hnext := le_shOffset_of_mem ht
      rwa [hsize] at hnext

theorem shType_ne_of_translates {f : ElfFile} {s : Shdr} (h : f.translates s = true) :
    elfScnType s.shType ≠ .byte := by
  rw [ElfFile.translates, Bool.and_eq_true, bne_iff_ne] at h
  exact h.2

/-- The writer lays out every section by itself, and the names behind all
of them. -/
theorem translatesApart_written (h : e.Fits c o) : (e.file c o).TranslatesApart := by
  have hordered := pairwise_shdrsFrom (c := c) (o := o) 1 c.ehdrSize e.allSections
  have hnobits {s : Shdr} (hs : s ∈ (e.file c o).scns.filter (e.file c o).translates) :
      s.shType ≠ shtNobits := fun htype =>
    shType_ne_of_translates (List.mem_filter.mp hs).2 (by rw [htype]; rfl)
  constructor
  · refine (hordered.filter _).imp_of_mem fun hs _ hle => ?_
    exact Or.inr (Or.inr (Or.inl (hle (hnobits hs))))
  · intro s hs t _ name _
    have hbehind : s.shOffset + s.shSize ≤ c.ehdrSize + (imageBytes c o e.sections).length := by
      rw [PlainElf.allSections, shdrsFrom_append] at hordered
      have hmem : s ∈ shdrsFrom c o 1 c.ehdrSize e.allSections := (List.mem_filter.mp hs).1
      rw [PlainElf.allSections, shdrsFrom_append] at hmem
      rcases List.mem_append.mp hmem with hmem | hmem
      · exact (List.pairwise_append.mp hordered).2.2 s hmem _ List.mem_cons_self (hnobits hs)
      · rw [List.mem_singleton.mp hmem] at hs
        exact absurd rfl (shType_ne_of_translates (List.mem_filter.mp hs).2)
    have hpos : (e.file c o).namePos t =
        c.ehdrSize + (imageBytes c o e.sections).length + t.shName := by
      rw [ElfFile.namePos, elfGetshdrstrndx_written h, names_section]
      rfl
    exact Or.inr (Or.inr (Or.inl (by omega)))

theorem namesSection_not_used : (e.namesSection.view c).used = false := rfl

/-- The program run on the bytes of a file that was written ends as the
conversion of what was written does, whatever the class and the byte
order. -/
theorem novlConvFile_encode (h : e.Fits c o) (base : Word) :
    novlConvFile (e.encode c o) base = .ended (novlConvReporting (e.view c) base) := by
  have htype : elfCheckType (e.encode c o) = .elf := by
    have hmag : elfMag.isPrefixOf (e.encode c o) = true := rfl
    have hlength := length_encode (e := e) (c := c) (o := o)
    have hehdrSize : 16 ≤ c.ehdrSize := by cases c <;> decide
    exact if_pos ⟨by omega, hmag⟩
  have hnamed : ((e.file c o).scns.map (e.file c o).section?).all Option.isSome = true := by
    rw [sections_written h, List.all_map]
    exact List.all_eq_true.mpr fun s _ => rfl
  have hrelocs : (e.file c o).scns.any (e.file c o).relRunsOut = false := by
    rw [List.any_eq_false]
    intro s hs
    rw [not_relRunsOut_written h s hs]
    exact Bool.false_ne_true
  have hview : novlConvReporting (e.file c o).elf base = novlConvReporting (e.view c) base := by
    rw [elf_written h, ← novlConvReporting_filter_used, ← novlConvReporting_filter_used (e.view c)]
    simp only [PlainElf.allSections, List.map_append, List.filter_append, List.map_singleton]
    rw [List.filter_cons_of_neg (by rw [namesSection_not_used]; exact Bool.false_ne_true),
      List.filter_nil, List.append_nil]
    rfl
  rw [novlConvFile, htype]
  simp only [elfCook_encode h]
  rw [convertFile, hnamed, hrelocs]
  simp only [translatesApart_written h, not_true, and_false, if_false, Bool.not_true,
    Bool.or_self, Bool.false_eq_true]
  rw [← hview]
  by_cases hmips : (e.file c o).elf.eMachine = emMips
  · rw [if_neg (not_not.mpr hmips)]
  · have hrun : novlConv (e.file c o).elf base = .failure .notMips .untouched := by
      rw [novlConv, show convert (e.file c o).elf base = _ from if_pos hmips]
    have hclosed : (convertMesgs [] (e.file c o).elf base).any ConvMesg.isUndefined = false := by
      rw [← Bool.not_eq_true, any_isUndefined_iff]
      exact fun hundef => hmips hundef.1.2
    rw [if_pos hmips, novlConvReporting, hclosed, hrun]
    rfl

end Written

/-- A section of 16 bytes of code with a jump, and the relocation of the
jump. -/
def plainSample : PlainElf where
  machine := 8
  entry := 0x80000000
  sections :=
    [⟨[0x2E, 0x74, 0x65, 0x78, 0x74], 0x80000000,
        .bytes 1 [0x0C, 0, 0, 2, 0, 0, 0, 0, 0x03, 0xE0, 0, 8, 0, 0, 0, 0]⟩,
      ⟨[0x2E, 0x72, 0x65, 0x6C, 0x2E, 0x74, 0x65, 0x78, 0x74], 0,
        .entries [⟨0x80000000, 4⟩]⟩,
      ⟨[0x2E, 0x62, 0x73, 0x73], 0x80000010, .reserved 32⟩]

theorem plainSample_fits (c : ElfClass) (o : ByteOrder) : plainSample.Fits c o := by
  refine ⟨by decide, by cases c <;> decide, by decide, by decide, ?_, ?_⟩
  · intro s hs
    simp only [plainSample, List.mem_cons, List.not_mem_nil, or_false] at hs
    rcases hs with rfl | rfl | rfl
    · exact ⟨by decide, by cases c <;> decide, by decide, by decide, by decide, rfl⟩
    · refine ⟨by decide, by cases c <;> decide, ?_⟩
      intro r hr hclass
      rw [List.mem_singleton.mp hr]
      decide
    · have hsize : 32 < 256 ^ c.width := by cases c <;> decide
      exact ⟨by decide, by cases c <;> decide, hsize⟩
  · rw [length_encode]
    cases c <;> cases o <;> decide

theorem plainSample_converts :
    novlConvFile (plainSample.encode .class32 big) 0x80800000 =
      .ended (novlConvReporting (plainSample.view .class32) 0x80800000) :=
  novlConvFile_encode (plainSample_fits .class32 big) 0x80800000

end Novl
