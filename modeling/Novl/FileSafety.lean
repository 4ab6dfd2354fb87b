import Mathlib.Data.List.ReduceOption
import Novl.ElfFormat
import Novl.ImageAccess

/-!
What the bytes of an input file can make the converter do.

The headers are read from inside the file. Where no sum of an offset or an
address with a size wraps around, and in a 32-bit file none does, and no
section is translated over bytes that are read again, all that the
converter sees of the file is a copy of bytes of it, and loading stays
inside `memory`. A section of a 64-bit file whose addresses wrap around
passes the bounds test, and is copied outside of it. Apart from that, a run
that is undefined was led there by a header that counts no section headers,
by a section without a name, by a relocation entry or by the range of a
section that is written.
-/

namespace Novl

open ByteMemory ByteOrder FallibleRun

/-! ### Headers -/

/-- The headers of a file were read from inside it. -/
structure ElfFile.ReadFrom (f : ElfFile) (image : List Byte) : Prop where
  same : f.image = image
  ehdr_inside : f.class_.ehdrSize ≤ image.length
  ehdr : f.ehdr = readEhdr f.class_ f.order image
  shdr_inside : f.shdrs ≠ [] →
    f.ehdr.eShoff + f.shdrs.length * f.class_.shdrSize ≤ image.length
  shdrs : f.shdrs = (List.range f.shdrs.length).map fun i =>
    readShdr f.class_ f.order image (f.ehdr.eShoff + i * f.class_.shdrSize)

theorem elfCookShdr_ok {c : ElfClass} {o : ByteOrder} {image : List Byte} {h : Ehdr}
    {shdrs : List Shdr} (hok : elfCookShdr c o image h = .ok shdrs) :
    (shdrs ≠ [] → h.eShoff + shdrs.length * c.shdrSize ≤ image.length) ∧
      shdrs = (List.range shdrs.length).map fun i =>
        readShdr c o image (h.eShoff + i * c.shdrSize) := by
  rw [elfCookShdr] at hok
  split at hok
  · cases hok
    exact ⟨fun hne => absurd rfl hne, rfl⟩
  · split at hok
    · cases hok
    · rename_i hstart
      split at hok
      · cases hok
      · rename_i hentsize
        rw [not_not] at hentsize
        split at hok
        · cases hok
        · simp only at hok
          generalize hnum : (if h.eShnum = 0 then (readShdr c o image h.eShoff).shSize
            else h.eShnum) = num at hok
          split at hok
          · cases hok
          · rename_i hroom
            split at hok
            · cases hok
            · rw [hentsize] at hok hroom
              rw [not_lt, Nat.le_div_iff_mul_le (by rw [ElfClass.shdrSize]; omega)] at hroom
              cases hok
              rw [List.length_map, List.length_range]
              exact ⟨fun _ => by omega, rfl⟩

theorem elfCookFile_ok {c : ElfClass} {o : ByteOrder} {image : List Byte} {f : ElfFile}
    (hok : elfCookFile c o image = .ok f) :
    f.class_ = c ∧ f.order = o ∧ f.ReadFrom image := by
  rw [elfCookFile] at hok
  split at hok
  · cases hok
  · rename_i hlength
    obtain ⟨shdrs, hshdrs, hrest⟩ := exists_of_bind_eq_ok hok
    obtain ⟨u, -, hfile⟩ := exists_of_bind_eq_ok hrest
    cases hfile
    obtain ⟨hinside, htable⟩ := elfCookShdr_ok hshdrs
    exact ⟨rfl, rfl, rfl, not_lt.mp hlength, rfl, hinside, htable⟩

theorem elfCook_readFrom {image : List Byte} {f : ElfFile} (hok : elfCook image = .ok f) :
    f.ReadFrom image := by
  rw [elfCook] at hok
  split at hok
  · cases hok
  · split at hok
    · cases hok
    · split at hok
      · exact (elfCookFile_ok hok).2.2
      · split at hok
        · exact (elfCookFile_ok hok).2.2
        · cases hok

/-! ### Section data -/

theorem shOffset_le_of_getdata {f : ElfFile} {s : Shdr} {d : ElfData}
    (hdata : elfGetdata f s = some d) : s.shOffset ≤ f.image.length := by
  rw [elfGetdata] at hdata
  split at hdata
  · cases hdata
  · split at hdata
    · cases hdata
    · rename_i hoffset
      exact not_lt.mp hoffset

/-- The data of a section whose end does not wrap around is a copy of bytes
of the file. -/
theorem elfGetdata_inside {f : ElfFile} {s : Shdr} {d : ElfData}
    (hdata : elfGetdata f s = some d) (hend : s.shOffset + s.shSize < 2 ^ 64) :
    (d.buf = [] ∨ s.shOffset + s.shSize ≤ f.image.length ∧
      d.buf = slice f.image s.shOffset s.shSize) ∧
    ∀ r ∈ d.rels, ∃ q, s.shOffset ≤ q ∧ q + f.class_.relSize ≤ s.shOffset + s.shSize ∧
      s.shOffset + s.shSize ≤ f.image.length ∧
      r = gelfGetrel f.class_ f.order f.image q := by
  have hwraps : s.wraps = false := by
    rw [Shdr.wraps, decide_eq_false_iff_not]
    omega
  rw [elfGetdata] at hdata
  split at hdata
  · cases hdata
  · split at hdata
    · cases hdata
    · split at hdata
      · cases hdata
        exact ⟨Or.inl rfl, fun r hr => absurd hr (List.not_mem_nil)⟩
      · split at hdata
        · cases hdata
        · rename_i hinside
          rw [Nat.mod_eq_of_lt hend, not_lt] at hinside
          split at hdata
          · cases hdata
            rw [hwraps]
            exact ⟨Or.inr ⟨hinside, rfl⟩, fun r hr => absurd hr (List.not_mem_nil)⟩
          · cases hdata
            refine ⟨Or.inl rfl, fun r hr => ?_⟩
            obtain ⟨k, hk, rfl⟩ := List.mem_map.mp hr
            have hroom := (Nat.le_div_iff_mul_le f.class_.relSize_pos).mp (List.mem_range.mp hk)
            rw [Nat.succ_mul] at hroom
            exact ⟨_, Nat.le_add_right _ _, by omega, hinside, rfl⟩
          · cases hdata
            exact ⟨Or.inl rfl, fun r hr => absurd hr (List.not_mem_nil)⟩

/-! ### Ranges that do not wrap around -/

/-- Neither the addresses nor the bytes of a section run past `2 ^ 64`. -/
structure Shdr.InRange (s : Shdr) : Prop where
  addr : s.shAddr + s.shSize < 2 ^ 64
  offset : s.shOffset + s.shSize < 2 ^ 64

section Ranges

variable {image : List Byte} {f : ElfFile}

theorem field_width_lt (c : ElfClass) (o : ByteOrder) (file : List Byte) (p : ℕ) :
    o.field file p c.width < 2 ^ 64 := by
  have hwidth : 256 ^ c.width ≤ 2 ^ 64 := by cases c <;> decide
  exact field_lt.trans_le hwidth

/-- The types have 32 bits, the addresses, offsets and sizes at most 64. -/
theorem shdr_lt (hok : elfCook image = .ok f) {s : Shdr} (hs : s ∈ f.scns) :
    s.shType < 2 ^ 32 ∧ s.shAddr < 2 ^ 64 ∧ s.shSize < 2 ^ 64 := by
  have hs := List.mem_of_mem_drop hs
  rw [(elfCook_readFrom hok).shdrs] at hs
  obtain ⟨i, -, rfl⟩ := List.mem_map.mp hs
  exact ⟨field_lt, field_width_lt _ _ _ _, field_width_lt _ _ _ _⟩

/-- In a 32-bit file nothing wraps around. -/
theorem inRange_of_class32 (hok : elfCook image = .ok f) (hclass : f.class_ = .class32) :
    ∀ s ∈ f.scns, s.InRange := by
  intro s hs
  have hs := List.mem_of_mem_drop hs
  rw [(elfCook_readFrom hok).shdrs, hclass] at hs
  obtain ⟨i, -, rfl⟩ := List.mem_map.mp hs
  have hlt (p : ℕ) : f.order.field image p 4 < 2 ^ 32 := field_lt
  have haddr := hlt (f.ehdr.eShoff + i * ElfClass.class32.shdrSize + 8 + 4)
  have hoffset := hlt (f.ehdr.eShoff + i * ElfClass.class32.shdrSize + 8 + 2 * 4)
  have hsize := hlt (f.ehdr.eShoff + i * ElfClass.class32.shdrSize + 8 + 3 * 4)
  constructor
  · simp only [readShdr, ElfClass.width]
    omega
  · simp only [readShdr, ElfClass.width]
    omega

/-- What the converter sees of a section comes from one of the headers. -/
theorem exists_shdr_of_mem_sections {es : ElfSection} (hes : es ∈ f.elf.sections) :
    ∃ s ∈ f.scns, f.section? s = some es :=
  List.mem_map.mp (List.reduceOption_mem_iff.mp hes)

theorem section?_eq_some {s : Shdr} {es : ElfSection} (hview : f.section? s = some es) :
    es.shType = BitVec.ofNat 32 s.shType ∧ es.shAddr = BitVec.ofNat 64 s.shAddr ∧
      es.shSize = BitVec.ofNat 64 s.shSize ∧ es.data = elfGetdata f s := by
  rw [ElfFile.section?] at hview
  obtain ⟨name, -, rfl⟩ := Option.map_eq_some_iff.mp hview
  exact ⟨rfl, rfl, rfl, rfl⟩

/-- All data the converter is given are bytes of the file, and all
relocation entries are read from inside it. -/
theorem data_inside (hok : elfCook image = .ok f) (hrange : ∀ s ∈ f.scns, s.InRange)
    {es : ElfSection} (hes : es ∈ f.elf.sections) {d : ElfData} (hd : es.data = some d) :
    (d.buf = [] ∨ ∃ p, p + es.shSize.toNat ≤ image.length ∧
      d.buf = slice image p es.shSize.toNat) ∧
    ∀ r ∈ d.rels, ∃ q, q + f.class_.relSize ≤ image.length ∧
      r = gelfGetrel f.class_ f.order image q := by
  obtain ⟨s, hs, hview⟩ := exists_shdr_of_mem_sections hes
  obtain ⟨-, -, hsize, hdata⟩ := section?_eq_some hview
  have hend := (hrange s hs).offset
  have hsame := (elfCook_readFrom hok).same
  have hsize' : es.shSize.toNat = s.shSize := by
    rw [hsize, BitVec.toNat_ofNat, Nat.mod_eq_of_lt (by omega)]
  rw [hd] at hdata
  obtain ⟨hbuf, hrels⟩ := elfGetdata_inside hdata.symm hend
  rw [hsame] at hbuf hrels
  constructor
  · refine hbuf.imp_right ?_
    rintro ⟨hinside, hslice⟩
    exact ⟨s.shOffset, by rwa [hsize'], by rwa [hsize']⟩
  · intro r hr
    obtain ⟨q, -, hq, hinside, hrel⟩ := hrels r hr
    exact ⟨q, by omega, hrel⟩

/-- A loadable section has as many bytes as its header says. -/
theorem length_buf_of_progbits {s : Shdr} (htype : s.shType = 1) {d : ElfData}
    (hd : elfGetdata f s = some d) : d.buf.length = s.shSize := by
  rw [elfGetdata, htype] at hd
  rw [if_neg (by decide)] at hd
  split at hd
  · cases hd
  · split at hd
    · rename_i hempty
      cases hd
      exact (hempty.resolve_left (by decide)).symm
    · split at hd
      · cases hd
      · rename_i hinside
        obtain rfl := Option.some.inj hd
        cases hwraps : s.wraps with
        | true => exact List.length_replicate
        | false =>
            rw [Shdr.wraps, decide_eq_false_iff_not, not_le] at hwraps
            rw [Nat.mod_eq_of_lt hwraps, not_lt] at hinside
            exact length_slice hinside

/-- Once the bounds test is passed, the copy leaves `memory` exactly if the
addresses of the section wrap around. -/
theorem copyOverruns_iff (hok : elfCook image = .ok f) {s : Shdr} (hs : s ∈ f.scns)
    {es : ElfSection} (hview : f.section? s = some es) {elfEp : Word}
    (hbounds : ¬ OutOfBounds elfEp es) :
    CopyOverruns elfEp es ↔ validSec es.name ≠ none ∧ es.shType = shtProgbits ∧
      0 < es.shSize ∧ es.data ≠ none ∧ 2 ^ 64 ≤ s.shAddr + s.shSize := by
  obtain ⟨htype, haddr, hsize, hdata⟩ := section?_eq_some hview
  obtain ⟨htypelt, haddrlt, hsizelt⟩ := shdr_lt hok hs
  have hlength {d : ElfData} (hprogbits : es.shType = shtProgbits) (hd : es.data = some d) :
      d.buf.length = s.shSize := by
    refine length_buf_of_progbits ?_ (hdata.symm.trans hd)
    have htoNat := congrArg BitVec.toNat (htype.symm.trans hprogbits)
    rw [BitVec.toNat_ofNat, Nat.mod_eq_of_lt htypelt] at htoNat
    exact htoNat
  have hover : memorySize < (es.shAddr - elfEp.setWidth 64).toNat + s.shSize ↔
      2 ^ 64 ≤ s.shAddr + s.shSize := by
    have hep := elfEp.isLt
    have hsmall : memorySize = 4194304 := rfl
    rw [OutOfBounds, not_or, haddr, hsize] at hbounds
    rw [haddr]
    bv_omega
  constructor
  · rintro ⟨hname, hprogbits, hpos, d, hd, hcopy⟩
    rw [hlength hprogbits hd, hover] at hcopy
    exact ⟨hname, hprogbits, hpos, by rw [hd]; exact Option.some_ne_none d, hcopy⟩
  · rintro ⟨hname, hprogbits, hpos, hne, hwraps⟩
    obtain ⟨d, hd⟩ := Option.ne_none_iff_exists'.mp hne
    exact ⟨hname, hprogbits, hpos, d, hd, by rwa [hlength hprogbits hd, hover]⟩

/-- Loading goes outside `memory` exactly if it gets to a section that is
not refused, has data to copy, and has addresses that wrap around. -/
theorem loadSections_undefined_iff (hok : elfCook image = .ok f) {elfEp : Word}
    {ss : List ElfSection} (hss : ∀ es ∈ ss, es ∈ f.elf.sections) :
    loadSections elfEp ss = .error .undefinedBehaviour ↔
      ∃ pre es post st, ss = pre ++ es :: post ∧ loadSections elfEp pre = .ok st ∧
        ¬ LoadRefused elfEp st es ∧ validSec es.name ≠ none ∧ es.shType = shtProgbits ∧
        0 < es.shSize ∧ es.data ≠ none ∧
        ∃ s ∈ f.scns, f.section? s = some es ∧ 2 ^ 64 ≤ s.shAddr + s.shSize := by
  -- A loadable section that is not refused has passed the bounds test.
  have hinside {st : LoadState} {es : ElfSection} (hrefused : ¬ LoadRefused elfEp st es)
      (hname : validSec es.name ≠ none) (htype : es.shType = shtProgbits) :
      ¬ OutOfBounds elfEp es := by
    obtain ⟨id, hid⟩ := Option.ne_none_iff_exists'.mp hname
    exact fun hout => hrefused ⟨id, hid, Or.inr ⟨htype, hout⟩⟩
  constructor
  · intro hundef
    obtain ⟨pre, es, post, st, rfl, hpre, hstep⟩ := foldlM_eq_error_iff.mp hundef
    by_cases hrefused : LoadRefused elfEp st es
    · obtain ⟨e, he⟩ := loadSection_of_refused hrefused
      rw [he] at hstep
      cases hstep
    · rcases loadSection_of_not_refused hrefused with ⟨hover, -⟩ | ⟨-, st', hok'⟩
      · obtain ⟨s, hs, hview⟩ := exists_shdr_of_mem_sections (hss es (by simp))
        obtain ⟨hname, htype, hpos, hdata, hwraps⟩ :=
          (copyOverruns_iff hok hs hview (hinside hrefused hover.1 hover.2.1)).mp hover
        exact ⟨pre, es, post, st, rfl, hpre, hrefused, hname, htype, hpos, hdata, s, hs, hview,
          hwraps⟩
      · rw [hok'] at hstep
        cases hstep
  · rintro ⟨pre, es, post, st, rfl, hpre, hrefused, hname, htype, hpos, hdata, s, hs, hview,
      hwraps⟩
    refine foldlM_eq_error_iff.mpr ⟨pre, es, post, st, rfl, hpre, ?_⟩
    have hover := (copyOverruns_iff hok hs hview (hinside hrefused hname htype)).mpr
      ⟨hname, htype, hpos, hdata, hwraps⟩
    rcases loadSection_of_not_refused hrefused with ⟨-, hundef⟩ | ⟨hfits, -⟩
    · exact hundef
    · exact absurd hover hfits

theorem loadSections_ne_undefined (hok : elfCook image = .ok f)
    (hrange : ∀ s ∈ f.scns, s.InRange) {elfEp : Word} {ss : List ElfSection}
    (hss : ∀ es ∈ ss, es ∈ f.elf.sections) :
    loadSections elfEp ss ≠ .error .undefinedBehaviour := by
  intro hundef
  obtain ⟨-, -, -, -, -, -, -, -, -, -, -, s, hs, -, hwraps⟩ :=
    (loadSections_undefined_iff hok hss).mp hundef
  exact absurd (hrange s hs).addr (not_lt.mpr hwraps)

theorem not_relRunsOut {s : Shdr} (hrange : s.InRange) : f.relRunsOut s = false := by
  have hwraps : s.wraps = false := by
    rw [Shdr.wraps, decide_eq_false_iff_not]
    exact not_le.mpr hrange.offset
  rw [ElfFile.relRunsOut, hwraps, Bool.false_and]

theorem cString_inside {file name : List Byte} {p : ℕ} (h : cString file p = some name) :
    0 ∉ name ∧ p + name.length < file.length ∧ name = slice file p name.length := by
  rw [cString] at h
  split at h
  · rename_i hnul
    cases h
    have hname : 0 ∉ (file.drop p).takeWhile (· ≠ 0) := by
      intro hmem
      have hne := List.mem_takeWhile_imp hmem
      simp at hne
    have hleading := List.takeWhile_prefix (l := file.drop p) (· ≠ (0 : Byte))
    have hshorter : ((file.drop p).takeWhile (· ≠ 0)).length < (file.drop p).length := by
      refine lt_of_le_of_ne hleading.length_le fun hlength => hname ?_
      rwa [hleading.eq_of_length hlength]
    rw [List.length_drop] at hshorter
    exact ⟨hname, by omega, List.prefix_iff_eq_take.mp hleading⟩
  · cases h

/-- A name stands where the string table and the header say. -/
theorem name_inside {s : Shdr} {name : List Byte}
    (h : elfStrptr f (elfGetshdrstrndx f) s.shName = some name) :
    0 ∉ name ∧ f.namePos s + name.length < f.image.length ∧
      name = slice f.image (f.namePos s) name.length := by
  rw [elfStrptr] at h
  cases htable : f.shdrs[elfGetshdrstrndx f]? with
  | none =>
      rw [htable] at h
      cases h
  | some table =>
      have hpos : f.namePos s = table.shOffset + s.shName := by
        rw [ElfFile.namePos, htable]
        rfl
      rw [htable] at h
      simp only at h
      split at h
      · cases h
      · split at h
        · cases h
        · split at h
          · rw [hpos]
            exact cString_inside h
          · cases h

/-- All that is read of a file stands in it as it was when it is read. -/
structure ElfFile.ReadsFile (f : ElfFile) : Prop where
  inRange : ∀ s ∈ f.scns, s.InRange
  apart : f.TranslatesApart

/-- Reading a file whose ranges do not wrap around, and in which nothing is
translated over what is read again, stays inside it: the section headers,
the names, the data and the relocation entries of all sections are in the
file, and no translation gets to a name. And loading any of the sections,
in any order, stays inside `memory`. -/
theorem reads_inside (hok : elfCook image = .ok f) (hreads : f.ReadsFile) :
    (f.shdrs ≠ [] →
      f.ehdr.eShoff + f.shdrs.length * f.class_.shdrSize ≤ image.length) ∧
    (∀ es ∈ f.elf.sections,
      (∃ p n, p + n < image.length ∧ 0 ∉ slice image p n ∧
        es.name = (slice image p n).map (fun b => Char.ofNat b.toNat) ∧
        ∀ s ∈ f.scns, f.translates s = true → RangesApart s.shOffset s.shSize p (n + 1)) ∧
      ∀ d, es.data = some d →
        (d.buf = [] ∨ ∃ p, p + es.shSize.toNat ≤ image.length ∧
          d.buf = slice image p es.shSize.toNat) ∧
        ∀ r ∈ d.rels, ∃ q, q + f.class_.relSize ≤ image.length ∧
          r = gelfGetrel f.class_ f.order image q) ∧
    ∀ elfEp ss, (∀ es ∈ ss, es ∈ f.elf.sections) →
      loadSections elfEp ss ≠ .error .undefinedBehaviour := by
  refine ⟨(elfCook_readFrom hok).shdr_inside, fun es hes => ⟨?_, fun d hd => ?_⟩, ?_⟩
  · obtain ⟨s, hs, hview⟩ := exists_shdr_of_mem_sections hes
    rw [ElfFile.section?] at hview
    obtain ⟨name, hname, rfl⟩ := Option.map_eq_some_iff.mp hview
    obtain ⟨hnul, hinside, hslice⟩ := name_inside hname
    rw [(elfCook_readFrom hok).same] at hinside hslice
    refine ⟨f.namePos s, name.length, hinside, by rwa [← hslice], by rw [← hslice], ?_⟩
    exact fun t ht htranslates =>
      hreads.apart.names t (List.mem_filter.mpr ⟨ht, htranslates⟩) s hs name hname
  · exact data_inside hok hreads.inRange hes hd
  · exact fun elfEp ss => loadSections_ne_undefined hok hreads.inRange

theorem plainSample_reads_inside :
    let f := plainSample.file .class32 big
    let image := plainSample.encode .class32 big
    f.ehdr.eShoff + 5 * 40 ≤ image.length ∧
    (∀ es ∈ f.elf.sections,
      (∃ p n, p + n < image.length ∧ 0 ∉ slice image p n ∧
        es.name = (slice image p n).map (fun b => Char.ofNat b.toNat) ∧
        ∀ s ∈ f.scns, f.translates s = true → RangesApart s.shOffset s.shSize p (n + 1)) ∧
      ∀ d, es.data = some d →
        (d.buf = [] ∨ ∃ p, p + es.shSize.toNat ≤ image.length ∧
          d.buf = slice image p es.shSize.toNat) ∧
        ∀ r ∈ d.rels, ∃ q, q + 8 ≤ image.length ∧ r = gelfGetrel .class32 big image q) ∧
    ∀ elfEp, loadSections elfEp f.elf.sections ≠ .error .undefinedBehaviour := by
  have hcook := elfCook_encode (plainSample_fits .class32 big)
  have hread := reads_inside hcook
    ⟨inRange_of_class32 hcook rfl, translatesApart_written (plainSample_fits .class32 big)⟩
  exact ⟨hread.1 (List.cons_ne_nil _ _), hread.2.1, fun elfEp => hread.2.2 elfEp _ fun _ hes => hes⟩

end Ranges

/-- Code whose addresses wrap around. -/
def wrappedSample : PlainElf where
  machine := 8
  entry := 0
  sections :=
    [⟨[0x2E, 0x74, 0x65, 0x78, 0x74], 2 ^ 64 - 8,
      .bytes 1 [0x03, 0xE0, 0, 8, 0, 0, 0, 0, 0, 0, 0, 0, 0, 0, 0, 0]⟩]

theorem wrappedSample_fits : wrappedSample.Fits .class64 big := by
  refine ⟨by decide, by decide, by decide, by decide, ?_, by decide +kernel⟩
  intro s hs
  rw [List.mem_singleton.mp hs]
  exact ⟨by decide, by decide, by decide, by decide, by decide, rfl⟩

/-- The sum in the bounds test is 8, and the code starts eight bytes below
`2 ^ 64`. -/
theorem wrappedSample_undefined :
    loadSections 0 (wrappedSample.file .class64 big).elf.sections =
      .error .undefinedBehaviour := by
  rw [loadSections_undefined_iff (elfCook_encode wrappedSample_fits) fun es hes => hes]
  have hsections := congrArg Elf.sections (elf_written wrappedSample_fits)
  refine ⟨[], _, _, _, hsections, rfl, ?_, by decide, rfl, by decide,
    Option.some_ne_none _, ?_⟩
  · rintro ⟨id, -, hstart | ⟨-, hout⟩⟩
    · exact hstart rfl
    · revert hout
      rw [OutOfBounds]
      decide
  · exact ⟨_, List.mem_cons_self, (List.cons.inj (sections_written wrappedSample_fits)).1,
      by decide⟩

/-! ### Runs that are undefined -/

theorem novlConv_eq_undefined_iff {elf : Elf} {base : Word} :
    novlConv elf base = .undefinedBehaviour ↔ convert elf base = .error .undefinedBehaviour := by
  rw [novlConv]
  cases convert elf base with
  | ok c => simp
  | error stop => cases stop <;> simp

/-- Where a conversion with open output goes wrong. -/
theorem convert_undefined {elf : Elf} {base : Word} (hopen : OutputOpened elf)
    (hundef : convert elf base = .error .undefinedBehaviour) :
    loadSections (elf.eEntry.setWidth 32) elf.sections = .error .undefinedBehaviour ∨
      ∃ ld, loadSections (elf.eEntry.setWidth 32) elf.sections = .ok ld ∧
        ((∃ b ∈ relBlocks elf.sections, ∃ e ∈ b.rels,
            NamesOutside (ld.globals (elf.eEntry.setWidth 32)) e) ∨
          ∃ i, i ≠ .bss ∧ WrittenOutside (ld.globals (elf.eEntry.setWidth 32)) i) := by
  refine ((convert_eq_error_iff hopen).mp hundef).imp_right ?_
  rintro ⟨ld, hload, himage⟩
  refine ⟨ld, hload, ?_⟩
  cases himage with
  | dryRead hdry => exact Or.inl (dryPass_eq_none_iff.mp hdry)
  | realEntry hdry herror hreal =>
      obtain ⟨b, hb, e, he, hnamed⟩ := namesOutside_of_realPass hreal
      exact Or.inl ⟨b, hb, e, he, hnamed⟩
  | write hdry herror hreal hcounts hwrite =>
      exact Or.inr (writtenOutside_of_writeOverlay hwrite)

/-- The file says where its section headers are, and that there are none:
neither the ELF header nor the first section header gives a number. -/
def CountsNoHeaders (c : ElfClass) (o : ByteOrder) (image : List Byte) : Prop :=
  (readEhdr c o image).eShoff ≠ 0 ∧ (readEhdr c o image).eShnum = 0 ∧
    (readShdr c o image (readEhdr c o image).eShoff).shSize = 0

theorem elfCookShdr_undefined {c : ElfClass} {o : ByteOrder} {image : List Byte}
    (hundef : elfCookShdr c o image (readEhdr c o image) = .error .undefinedBehaviour) :
    CountsNoHeaders c o image := by
  rw [elfCookShdr] at hundef
  split at hundef
  · cases hundef
  · rename_i hoffset
    split at hundef
    · cases hundef
    · split at hundef
      · cases hundef
      · split at hundef
        · cases hundef
        · simp only at hundef
          generalize hnum : (if (readEhdr c o image).eShnum = 0 then
            (readShdr c o image (readEhdr c o image).eShoff).shSize
            else (readEhdr c o image).eShnum) = num at hundef
          split at hundef
          · cases hundef
          · split at hundef
            · rename_i hzero
              rw [hzero] at hnum
              by_cases hshnum : (readEhdr c o image).eShnum = 0
              · rw [if_pos hshnum] at hnum
                exact ⟨hoffset, hshnum, hnum⟩
              · rw [if_neg hshnum] at hnum
                exact absurd hnum hshnum
            · cases hundef

theorem elfCookPhdr_ne_undefined {c : ElfClass} {image : List Byte} {h : Ehdr}
    {shdrs : List Shdr} : elfCookPhdr c image h shdrs ≠ .error .undefinedBehaviour := by
  rw [elfCookPhdr]
  split
  · simp
  · split
    · simp
    · split_ifs <;> simp

theorem elfCook_undefined {image : List Byte}
    (hundef : elfCook image = .error .undefinedBehaviour) :
    ∃ c o, CountsNoHeaders c o image := by
  have hfile {c : ElfClass} {o : ByteOrder}
      (hcook : elfCookFile c o image = .error .undefinedBehaviour) :
      CountsNoHeaders c o image := by
    rw [elfCookFile] at hcook
    split at hcook
    · cases hcook
    · obtain hshdrs | ⟨shdrs, -, hrest⟩ := exists_of_bind_eq_error hcook
      · exact elfCookShdr_undefined hshdrs
      · obtain hphdr | ⟨u, -, hfile⟩ := exists_of_bind_eq_error hrest
        · exact absurd hphdr elfCookPhdr_ne_undefined
        · cases hfile
  rw [elfCook] at hundef
  split at hundef
  · cases hundef
  · split at hundef
    · cases hundef
    · split at hundef
      · exact ⟨_, _, hfile hundef⟩
      · split at hundef
        · exact ⟨_, _, hfile hundef⟩
        · cases hundef

/-- What leads a run on an input file astray. Ranges that wrap around are
possible in 64-bit files only. -/
inductive Misleads (image : List Byte) (base : Word) : Prop
  | noHeaders {c : ElfClass} {o : ByteOrder} (h : CountsNoHeaders c o image)
  | unnamed {f : ElfFile} {s : Shdr} (hok : elfCook image = .ok f) (hs : s ∈ f.scns)
      (h : f.section? s = none)
  | wrapsAround {f : ElfFile} {s : Shdr} (hok : elfCook image = .ok f)
      (hclass : f.class_ = .class64) (hs : s ∈ f.scns) (h : ¬ s.InRange)
  | entryOutside {f : ElfFile} {b : RelBlock} {e : GElfRel} (hok : elfCook image = .ok f)
      (hb : b ∈ relBlocks f.elf.sections) (he : e ∈ b.rels) (hhandled : novlRelocJt e.type ≠ none)
      (h : memorySize < (e.addr - f.elf.eEntry.setWidth 32).toNat + 4)
  | entryWithoutName {f : ElfFile} {e : GElfRel} (hok : elfCook image = .ok f)
      (he : EntryInError f.elf base e) (h : 51 ≤ e.type.toNat)
  | writtenOutside {f : ElfFile} {i : OvlSection} (hok : elfCook image = .ok f) (hi : i ≠ .bss)
      (hsize : (recordedSize f.elf.sections i).toNat ≠ 0)
      (h : memorySize < (recordedStart f.elf.sections i - f.elf.eEntry.setWidth 32).toNat +
        (recordedSize f.elf.sections i).toNat)

theorem misleads_of_not_inRange {image : List Byte} {f : ElfFile} (base : Word)
    (hok : elfCook image = .ok f) (hrange : ¬ ∀ s ∈ f.scns, s.InRange) : Misleads image base := by
  have hclass : f.class_ = .class64 := by
    cases hclass : f.class_ with
    | class32 => exact absurd (inRange_of_class32 hok hclass) hrange
    | class64 => rfl
  simp only [not_forall, exists_prop] at hrange
  obtain ⟨s, hs, hwraps⟩ := hrange
  exact .wrapsAround hok hclass hs hwraps

/-- Where a file without wrapping ranges goes wrong behind its headers. -/
theorem misleads_of_convertFile {image : List Byte} {f : ElfFile} {base : Word}
    (hok : elfCook image = .ok f) (hrange : ∀ s ∈ f.scns, s.InRange)
    (hundef : convertFile f base = .ended .undefinedBehaviour) : Misleads image base := by
  rw [convertFile] at hundef
  split_ifs at hundef with hmachine hread
  · cases hundef
  · have hnever : f.scns.any f.relRunsOut = false := by
      rw [List.any_eq_false]
      intro s hs
      rw [not_relRunsOut (hrange s hs)]
      exact Bool.false_ne_true
    rw [hnever, Bool.or_false, Bool.not_eq_true', List.all_eq_false] at hread
    obtain ⟨view, hview, hnone⟩ := hread
    obtain ⟨s, hs, rfl⟩ := List.mem_map.mp hview
    exact .unnamed hok hs (by simpa using hnone)
  · rcases novlConvReporting_eq_undefined_iff.mp (FileOutcome.ended.inj hundef) with
      ⟨-, e, herror, htype⟩ | hundef
    · exact .entryWithoutName hok herror htype
    · rcases convert_undefined ⟨rfl, not_not.mp hmachine⟩ (novlConv_eq_undefined_iff.mp hundef) with
        hload | ⟨ld, hload, ⟨b, hb, e, he, hhandled, hout⟩ | ⟨i, hi, hsize, hwritten⟩⟩
      · exact absurd hload (loadSections_ne_undefined hok hrange fun _ hes => hes)
      · exact .entryOutside hok hb he hhandled hout
      · obtain ⟨hstart, hrecorded⟩ := loadSections_recorded hload i
        refine .writtenOutside hok hi (by rw [← hrecorded]; exact hsize) ?_
        rw [← hstart, ← hrecorded]
        exact hwritten

/-- A run that is undefined was led astray by a table without headers, a
section without a name, a range that wraps around, an entry that names a
word outside `memory` or that is in error and has no name for its type, or
a range that is written from outside of `memory`. What a run does is left
open only for a file with sections that are translated over each other, or
over a name. The printing of messages is not part of it. -/
theorem novlConvFile_undefined (image : List Byte) (base : Word) :
    (novlConvFile image base = .ended .undefinedBehaviour → Misleads image base) ∧
      (novlConvFile image base = .overlapping →
        ∃ f, elfCook image = .ok f ∧ ¬ f.TranslatesApart) := by
  rw [novlConvFile]
  cases elfCheckType image with
  | ar => simp
  | other => simp
  | elf =>
      cases hcook : elfCook image with
      | error stop =>
          cases stop with
          | failed e => simp
          | undefinedBehaviour =>
              obtain ⟨c, o, hnone⟩ := elfCook_undefined hcook
              exact ⟨fun _ => .noHeaders hnone, by simp⟩
      | ok f =>
          simp only [Except.ok.injEq, exists_eq_left']
          constructor
          · intro hundef
            by_cases hrange : ∀ s ∈ f.scns, s.InRange
            · exact misleads_of_convertFile hcook hrange hundef
            · exact misleads_of_not_inRange base hcook hrange
          · intro hopen
            rw [convertFile] at hopen
            split_ifs at hopen with hmachine hread hoverlap
            exact hoverlap.2

/-- A file whose only section header counts no headers. -/
def noHeadersFile : List Byte :=
  identBytes .class32 big ++ (ehdrRecord .class32 big ⟨8, 0, 0, 52, 0, 0, 40, 0, 0⟩ ++
    shdrRecord .class32 big nullShdr)

/-- A file with one relocation entry, that of `.rel.text` and of
`.rel.data`. -/
def sharedEntryFile : List Byte :=
  let names := [0] ++ (".rel.text".toList.map ascii ++ [0]) ++
    (".rel.data".toList.map ascii ++ [0]) ++ (".shstrtab".toList.map ascii ++ [0])
  identBytes .class32 big ++ (ehdrRecord .class32 big ⟨8, 0, 0, 91, 0, 0, 40, 4, 3⟩ ++
    relRecord .class32 big ⟨0, 4⟩ ++ names ++ shdrRecord .class32 big nullShdr ++
    shdrRecord .class32 big ⟨1, shtRel, 0, 52, 8, 0, 0⟩ ++
    shdrRecord .class32 big ⟨11, shtRel, 0, 52, 8, 0, 0⟩ ++
    shdrRecord .class32 big ⟨21, shtStrtab, 0, 60, 31, 0, 0⟩)

theorem noHeadersFile_undefined :
    Misleads noHeadersFile 0x80800000 ∧
      ∃ f, elfCook sharedEntryFile = .ok f ∧ ¬ f.TranslatesApart := by
  have hundef : novlConvFile noHeadersFile 0x80800000 = .ended .undefinedBehaviour := rfl
  have hopen : novlConvFile sharedEntryFile 0x80800000 = .overlapping := by decide +kernel
  exact ⟨(novlConvFile_undefined noHeadersFile 0x80800000).1 hundef,
    (novlConvFile_undefined sharedEntryFile 0x80800000).2 hopen⟩

/-! ### What `memory` holds once the sections are loaded -/

section Loaded

variable {elfEp : Word}

/-- The byte that loading a section puts at a position of `memory`. -/
def putsByte (elfEp : Word) (a : ℕ) (s : ElfSection) : Option Byte :=
  if validSec s.name ≠ none ∧ s.shType = shtProgbits ∧ 0 < s.shSize then
    s.data.bind fun d =>
      let dst := (s.shAddr - elfEp.setWidth 64).toNat
      if dst ≤ a ∧ a < dst + d.buf.length then some (d.buf.getD (a - dst) 0) else none
  else none

theorem loadSection_memory {st st' : LoadState} {s : ElfSection}
    (hstep : loadSection elfEp st s = .ok st') (a : ℕ) :
    st'.memory a = (putsByte elfEp a s).getD (st.memory a) := by
  rw [loadSection] at hstep
  rw [putsByte]
  cases hid : validSec s.name with
  | none =>
      rw [hid] at hstep
      cases hstep
      rw [if_neg (fun h => h.1 rfl)]
      rfl
  | some id =>
      rw [hid] at hstep
      simp only at hstep
      split at hstep
      · cases hstep
      · split at hstep
        · rename_i htype
          split at hstep
          · cases hstep
          · rw [loadData] at hstep
            by_cases hsize : 0 < s.shSize
            · rw [if_pos ⟨by simp, htype, hsize⟩]
              rw [if_pos hsize] at hstep
              cases hdata : s.data with
              | none =>
                  rw [hdata] at hstep
                  cases hstep
                  rfl
              | some d =>
                  simp only [hdata] at hstep
                  split at hstep
                  · cases hstep
                    simp only [copyBytes, Option.bind_some]
                    split
                    · rfl
                    · rfl
                  · cases hstep
            · rw [if_neg (fun h => hsize h.2.2)]
              rw [if_neg hsize] at hstep
              cases hstep
              rfl
        · rename_i htype
          cases hstep
          rw [if_neg (fun h => htype h.2.1)]
          rfl

/-- A position of `memory` holds what the last section that covers it put
there, and 0 if none does. -/
theorem loadSections_memory {ss : List ElfSection} {ld : LoadState}
    (hload : loadSections elfEp ss = .ok ld) (a : ℕ) :
    (∀ s ∈ ss, putsByte elfEp a s = none) ∧ ld.memory a = 0 ∨
      ∃ pre s post, ss = pre ++ s :: post ∧ putsByte elfEp a s = some (ld.memory a) ∧
        ∀ s' ∈ post, putsByte elfEp a s' = none := by
  induction ss using List.reverseRecOn generalizing ld with
  | nil =>
      cases hload
      exact Or.inl ⟨fun s hs => absurd hs List.not_mem_nil, rfl⟩
  | append_singleton ss s ih =>
      rw [loadSections, List.foldlM_append] at hload
      obtain ⟨st, hpre, hlast⟩ := exists_of_bind_eq_ok hload
      rw [List.foldlM_cons] at hlast
      obtain ⟨st', hstep, hend⟩ := exists_of_bind_eq_ok hlast
      cases hend
      have hmemory := loadSection_memory hstep a
      cases hputs : putsByte elfEp a s with
      | some b =>
          rw [hputs, Option.getD_some] at hmemory
          refine Or.inr ⟨ss, s, [], rfl, by rw [hmemory, hputs], fun s' hs' => ?_⟩
          exact absurd hs' List.not_mem_nil
      | none =>
          rw [hputs, Option.getD_none] at hmemory
          rw [hmemory]
          rcases ih hpre with ⟨hnone, hzero⟩ | ⟨pre, s', post, rfl, hs', hnone⟩
          · refine Or.inl ⟨fun s' hs' => ?_, hzero⟩
            rcases List.mem_append.mp hs' with hs' | hs'
            · exact hnone s' hs'
            · rw [List.mem_singleton.mp hs', hputs]
          · refine Or.inr ⟨pre, s', post ++ [s], by simp, hs', fun s'' hs'' => ?_⟩
            rcases List.mem_append.mp hs'' with hs'' | hs''
            · exact hnone s'' hs''
            · rw [List.mem_singleton.mp hs'', hputs]

theorem not_outOfBounds_of_load {ss : List ElfSection} {ld : LoadState}
    (hload : loadSections elfEp ss = .ok ld) {s : ElfSection} (hs : s ∈ ss)
    (hname : validSec s.name ≠ none) (htype : s.shType = shtProgbits) : ¬ OutOfBounds elfEp s := by
  obtain ⟨pre, post, rfl⟩ := List.append_of_mem hs
  rw [loadSections, List.foldlM_append] at hload
  obtain ⟨st, -, htail⟩ := exists_of_bind_eq_ok hload
  rw [List.foldlM_cons] at htail
  obtain ⟨st', hstep, -⟩ := exists_of_bind_eq_ok htail
  obtain ⟨id, hid⟩ := Option.ne_none_iff_exists'.mp hname
  intro hout
  have hrefused : LoadRefused elfEp st s := ⟨id, hid, Or.inr ⟨htype, hout⟩⟩
  obtain ⟨e, he⟩ := loadSection_of_refused hrefused
  rw [he] at hstep
  cases hstep

theorem putsByte_eq_some {a : ℕ} {s : ElfSection} {b : Byte} (h : putsByte elfEp a s = some b) :
    validSec s.name ≠ none ∧ s.shType = shtProgbits ∧ 0 < s.shSize ∧ ∃ d, s.data = some d ∧
      (s.shAddr - elfEp.setWidth 64).toNat ≤ a ∧
      a < (s.shAddr - elfEp.setWidth 64).toNat + d.buf.length ∧
      d.buf.getD (a - (s.shAddr - elfEp.setWidth 64).toNat) 0 = b := by
  rw [putsByte] at h
  split at h
  · rename_i hloads
    obtain ⟨d, hd, hbyte⟩ := Option.bind_eq_some_iff.mp h
    simp only at hbyte
    split at hbyte
    · rename_i hcovers
      exact ⟨hloads.1, hloads.2.1, hloads.2.2, d, hd, hcovers.1, hcovers.2, Option.some.inj hbyte⟩
    · cases hbyte
  · cases h

/-- After loading, each position of `memory` holds 0 or a byte of the file:
the one that the last section covering it has there. -/
theorem loaded_memory {image : List Byte} {f : ElfFile} (hok : elfCook image = .ok f)
    (hlength : image.length < 2 ^ 63) {ld : LoadState}
    (hload : loadSections elfEp f.elf.sections = .ok ld) (a : ℕ) :
    (∀ es ∈ f.elf.sections, putsByte elfEp a es = none) ∧ ld.memory a = 0 ∨
      ∃ pre es post s, f.elf.sections = pre ++ es :: post ∧
        (∀ es' ∈ post, putsByte elfEp a es' = none) ∧ s ∈ f.scns ∧ f.section? s = some es ∧
        elfEp.toNat ≤ s.shAddr ∧ s.shAddr - elfEp.toNat ≤ a ∧
        a < s.shAddr - elfEp.toNat + s.shSize ∧ s.shOffset + s.shSize ≤ image.length ∧
        ld.memory a = image.getD (s.shOffset + (a - (s.shAddr - elfEp.toNat))) 0 := by
  rcases loadSections_memory hload a with hnone | ⟨pre, es, post, hsplit, hputs, hpost⟩
  · exact Or.inl hnone
  · obtain ⟨hname, htype, hpos, d, hd, hfrom, hto, hbyte⟩ := putsByte_eq_some hputs
    have hes : es ∈ f.elf.sections := by rw [hsplit]; exact List.mem_append_cons_self
    have hbounds := not_outOfBounds_of_load hload hes hname htype
    obtain ⟨s, hs, hview⟩ := exists_shdr_of_mem_sections hes
    obtain ⟨-, haddr, hsize, hdata⟩ := section?_eq_some hview
    obtain ⟨-, haddrlt, hsizelt⟩ := shdr_lt hok hs
    -- What was copied does not wrap around, so it is shorter than `memory`.
    have haddrs : s.shAddr + s.shSize < 2 ^ 64 := by
      by_contra hwraps
      refine not_copyOverruns_of_load hload es hes ((copyOverruns_iff hok hs hview hbounds).mpr ?_)
      exact ⟨hname, htype, hpos, by rw [hd]; exact Option.some_ne_none d, not_lt.mp hwraps⟩
    have hep := elfEp.isLt
    have hsmall : memorySize = 4194304 := rfl
    rw [OutOfBounds, not_or, haddr, hsize] at hbounds
    have hdst : elfEp.toNat ≤ s.shAddr ∧
        (es.shAddr - elfEp.setWidth 64).toNat = s.shAddr - elfEp.toNat := by
      rw [haddr]
      bv_omega
    have hshort : s.shSize ≤ memorySize := by bv_omega
    rw [hd] at hdata
    have hoffset := shOffset_le_of_getdata hdata.symm
    rw [(elfCook_readFrom hok).same] at hoffset
    obtain ⟨hbuf, -⟩ := elfGetdata_inside hdata.symm (by omega)
    rw [hdst.2] at hfrom hto hbyte
    rcases hbuf with hempty | ⟨hinside, hslice⟩
    · rw [hempty, List.length_nil] at hto
      omega
    · rw [(elfCook_readFrom hok).same] at hinside hslice
      rw [hslice, length_slice hinside] at hto
      refine Or.inr ⟨pre, es, post, s, hsplit, hpost, hs, hview, hdst.1, hfrom, hto, hinside, ?_⟩
      rw [← hbyte, hslice, getD_slice (by omega)]

end Loaded

/-- The byte is the last one of the jump at the start of `.text`, which
stands behind the 64 bytes of the ELF header. -/
theorem plainSample_loaded_memory :
    ∃ ld, loadSections 0x80000000 (plainSample.file .class64 big).elf.sections = .ok ld ∧
      ⟨1, 1, 0x80000000, 64, 16, 0, 0⟩ ∈ (plainSample.file .class64 big).scns ∧
      ld.memory 3 = (plainSample.encode .class64 big).getD (64 + 3) 0 := by
  obtain ⟨ld, hload, -⟩ := exists_ok_of_map (fun _ => true)
    (x := loadSections 0x80000000 (plainSample.file .class64 big).elf.sections)
    (by decide +kernel)
  have hcook := elfCook_encode (plainSample_fits .class64 big)
  have hlength : (plainSample.encode .class64 big).length < 2 ^ 63 := by decide +kernel
  refine ⟨ld, hload, by decide +kernel, ?_⟩
  -- Only `.text` covers the position.
  have hputs : ∃ es ∈ (plainSample.file .class64 big).elf.sections,
      putsByte 0x80000000 3 es ≠ none := by
    decide +kernel
  have hcovers : ∀ s ∈ (plainSample.file .class64 big).scns, 0x80000000 ≤ s.shAddr →
      s.shAddr - 0x80000000 ≤ 3 → s.shAddr = 0x80000000 ∧ s.shOffset = 64 := by
    decide +kernel
  rcases loaded_memory hcook hlength hload 3 with
    ⟨hnone, -⟩ | ⟨pre, es, post, s, -, -, hs, -, hep, hfrom, -, -, hbyte⟩
  · obtain ⟨es, hes, hne⟩ := hputs
    exact absurd (hnone es hes) hne
  · obtain ⟨haddr, hoffset⟩ := hcovers s hs hep hfrom
    rw [hbyte, haddr, hoffset]
    rfl

end Novl
