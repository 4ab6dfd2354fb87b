import Novl.Stops

/-!
What the loading loop records of the sections, and which addresses that
makes whose.

A kind has one start and one size, and the loop takes it for seen when its
start is not zero. So a section at address zero does not keep a second one
of its kind out; it is replaced by it, and what is recorded in the end
belongs to the last section of each kind. An address is looked up in these
recorded extents, whose sizes were rounded up to eight and whose ends are
computed in 32 bits, in the order of the kinds' numbers.
-/

namespace Novl

open ByteMemory FallibleRun

/-! ### What is recorded -/

/-- The last section of a kind. -/
def lastOfKind (id : OvlSection) (ss : List ElfSection) : Option ElfSection :=
  ss.reverse.find? fun s => validSec s.name = some id

/-- What `elf_starts` holds once the sections are loaded. -/
def recordedStart (ss : List ElfSection) (id : OvlSection) : Word :=
  match lastOfKind id ss with
  | none => 0
  | some s => s.shAddr.setWidth 32

/-- What `sizes` holds once the sections are loaded. -/
def recordedSize (ss : List ElfSection) (id : OvlSection) : Word :=
  match lastOfKind id ss with
  | none => 0
  | some s => roundSize s.shSize

theorem lastOfKind_append_singleton (id : OvlSection) (ss : List ElfSection) (s : ElfSection) :
    lastOfKind id (ss ++ [s]) =
      if validSec s.name = some id then some s else lastOfKind id ss := by
  rw [lastOfKind, List.reverse_append, List.reverse_singleton, List.singleton_append,
    List.find?_cons]
  by_cases hkind : validSec s.name = some id
  · simp [hkind]
  · simp [hkind, lastOfKind]

theorem loadSections_recorded {elfEp : Word} {ss : List ElfSection} {ld : LoadState}
    (hload : loadSections elfEp ss = .ok ld) (id : OvlSection) :
    ld.elfStarts id = recordedStart ss id ∧ ld.sizes id = recordedSize ss id := by
  rw [loadSections] at hload
  rw [recordedStart, recordedSize]
  induction ss using List.reverseRecOn generalizing ld with
  | nil =>
      cases hload
      exact ⟨rfl, rfl⟩
  | append_singleton ss s ih =>
      rw [List.foldlM_append] at hload
      obtain ⟨st, hss, hs⟩ := exists_of_bind_eq_ok hload
      rw [List.foldlM_cons] at hs
      obtain ⟨st', hstep, hlast⟩ := exists_of_bind_eq_ok hs
      cases hlast
      rw [lastOfKind_append_singleton]
      rcases loadSection_ok hstep with ⟨hnone, rfl⟩ | ⟨id', hid', -, hstarts, hsizes⟩
      · rw [hnone, if_neg (by simp)]
        exact ih hss
      · rw [hid', hstarts, hsizes, Function.update_apply, Function.update_apply]
        by_cases hsame : id = id'
        · rw [if_pos hsame, if_pos hsame, if_pos (by rw [hsame])]
          exact ⟨rfl, rfl⟩
        · rw [if_neg hsame, if_neg hsame, if_neg (by simpa [eq_comm] using hsame)]
          exact ih hss

/-! ### Two sections of one kind -/

/-- Where the loading loop gives up: at a section whose kind was recorded
at another address than zero, or that is out of bounds. The sections in
front of it are copied inside `memory`. -/
def RefusedInLoading (elfEp : Word) (ss : List ElfSection) : Prop :=
  ∃ pre s post, ss = pre ++ s :: post ∧
    (∃ id, validSec s.name = some id ∧
      (recordedStart pre id ≠ 0#32 ∨ s.shType = shtProgbits ∧ OutOfBounds elfEp s)) ∧
    ∀ t ∈ pre, ¬ CopyOverruns elfEp t

/-- Sections that were all loaded were copied inside `memory`. -/
theorem not_copyOverruns_of_load {elfEp : Word} {ss : List ElfSection} {ld : LoadState}
    (hload : loadSections elfEp ss = .ok ld) : ∀ t ∈ ss, ¬ CopyOverruns elfEp t := by
  intro t ht hover
  obtain ⟨pre, post, rfl⟩ := List.append_of_mem ht
  rw [loadSections, List.foldlM_append] at hload
  obtain ⟨st, -, hrest⟩ := exists_of_bind_eq_ok hload
  rw [List.foldlM_cons] at hrest
  obtain ⟨st', hstep, -⟩ := exists_of_bind_eq_ok hrest
  by_cases hrefused : LoadRefused elfEp st t
  · obtain ⟨e, he⟩ := loadSection_of_refused hrefused
    cases he.symm.trans hstep
  · rcases loadSection_of_not_refused hrefused with ⟨-, hundef⟩ | ⟨hnot, -⟩
    · cases hundef.symm.trans hstep
    · exact hnot hover

/-- Loading leaves `memory` only in a copy. -/
theorem exists_copyOverruns_of_undefined {elfEp : Word} {ss : List ElfSection}
    (hload : loadSections elfEp ss = .error .undefinedBehaviour) :
    ∃ t ∈ ss, CopyOverruns elfEp t := by
  obtain ⟨pre, t, post, st, rfl, -, hstep⟩ := foldlM_eq_error_iff.mp hload
  by_cases hrefused : LoadRefused elfEp st t
  · obtain ⟨e, he⟩ := loadSection_of_refused hrefused
    cases he.symm.trans hstep
  · rcases loadSection_of_not_refused hrefused with ⟨hover, -⟩ | ⟨-, st', hok⟩
    · exact ⟨t, by simp, hover⟩
    · cases hok.symm.trans hstep

theorem loadSections_exit_iff {elfEp : Word} {ss : List ElfSection} :
    (∃ e o, loadSections elfEp ss = .error (.exit e o)) ↔ RefusedInLoading elfEp ss := by
  constructor
  · rintro ⟨e, o, hexit⟩
    obtain ⟨-, pre, s, post, st, rfl, hpre, id, hid, hrefused⟩ := loadSections_exit hexit
    rw [(loadSections_recorded hpre id).1] at hrefused
    exact ⟨pre, s, post, rfl, ⟨id, hid, hrefused⟩, not_copyOverruns_of_load hpre⟩
  · rintro ⟨pre, s, post, rfl, ⟨id, hid, hrefused⟩, hcopies⟩
    rw [loadSections, List.foldlM_append]
    cases hpre : loadSections elfEp pre with
    | ok st =>
        rw [← (loadSections_recorded hpre id).1] at hrefused
        obtain ⟨e, he⟩ := loadSection_of_refused ⟨id, hid, hrefused⟩
        rw [loadSections] at hpre
        have hstop : (loadSection elfEp st s >>= fun st => post.foldlM (loadSection elfEp) st) =
            .error (.exit e (.left [])) := by
          rw [he]
          rfl
        exact ⟨e, _, by rw [hpre]; exact hstop⟩
    | error stop =>
        cases stop with
        | exit e o =>
            rw [loadSections] at hpre
            exact ⟨e, o, by rw [hpre]; rfl⟩
        | undefinedBehaviour =>
            obtain ⟨t, ht, hover⟩ := exists_copyOverruns_of_undefined hpre
            exact absurd hover (hcopies t ht)

/-- Without an open output the conversion has failed already. -/
theorem exists_failure_of_not_opened {elf : Elf} {base : Word} (h : ¬ OutputOpened elf) :
    ∃ e o, novlConv elf base = .failure e o := by
  simp only [novlConv_eq_failure_iff, convert]
  cases hkind : elf.kind with
  | ar => exact ⟨_, _, rfl⟩
  | other => exact ⟨_, _, rfl⟩
  | elf => exact ⟨_, _, if_pos fun hmachine => h ⟨hkind, hmachine⟩⟩

/-- What is recorded behind a section of the kind is the start of that
section or of a later one. -/
theorem exists_recordedStart_of_mem {pre ss : List ElfSection} {x : ElfSection} {id : OvlSection}
    (hmem : x ∈ ss) (hx : validSec x.name = some id) :
    ∃ z ∈ ss, validSec z.name = some id ∧
      recordedStart (pre ++ ss) id = z.shAddr.setWidth 32 := by
  have hfound : (ss.reverse.find? fun s => validSec s.name = some id).isSome := by
    rw [List.find?_isSome]
    exact ⟨x, List.mem_reverse.mpr hmem, by simpa using hx⟩
  obtain ⟨z, hz⟩ := Option.isSome_iff_exists.mp hfound
  refine ⟨z, List.mem_reverse.mp (List.mem_of_find?_eq_some hz), ?_, ?_⟩
  · simpa using List.find?_some hz
  · rw [recordedStart, lastOfKind, List.reverse_append, List.find?_append, hz]
    rfl

/-- Two sections of one kind. The conversion exits with an error if it
gives up in front of the output file or while it loads the sections. If it
does neither, then a copy has left `memory`, or all sections are loaded:
one of the kind at address zero, and the second of the two in its place. -/
theorem repeatedKind_rejected {elf : Elf} {base : Word} {pre mid post : List ElfSection}
    {x y : ElfSection} {id : OvlSection} (hsections : elf.sections = pre ++ x :: mid ++ y :: post)
    (hx : validSec x.name = some id) (hy : validSec y.name = some id) :
    ((OutputOpened elf → RefusedInLoading (elf.eEntry.setWidth 32) elf.sections) →
      ∃ e o, novlConv elf base = .failure e o) ∧
    (¬ RefusedInLoading (elf.eEntry.setWidth 32) elf.sections →
      (∃ t ∈ elf.sections, CopyOverruns (elf.eEntry.setWidth 32) t) ∨
      (∃ ld, loadSections (elf.eEntry.setWidth 32) elf.sections = .ok ld) ∧
        ∃ z ∈ x :: mid, validSec z.name = some id ∧ z.shAddr.setWidth 32 = 0#32) := by
  constructor
  · intro hcond
    by_cases hopen : OutputOpened elf
    · obtain ⟨e, o, hexit⟩ := loadSections_exit_iff.mpr (hcond hopen)
      exact ⟨e, o, novlConv_eq_failure_iff.mpr ((convert_eq_error_iff hopen).mpr (Or.inl hexit))⟩
    · exact exists_failure_of_not_opened hopen
  · intro hnot
    cases hload : loadSections (elf.eEntry.setWidth 32) elf.sections with
    | ok ld =>
        obtain ⟨z, hz, hkind, hstart⟩ := exists_recordedStart_of_mem (List.mem_cons_self) hx
        refine Or.inr ⟨⟨ld, rfl⟩, z, hz, hkind, ?_⟩
        by_contra hne
        refine hnot ⟨pre ++ x :: mid, y, post, hsections, ⟨id, hy, Or.inl (hstart ▸ hne)⟩,
          fun t ht => not_copyOverruns_of_load hload t ?_⟩
        rw [hsections]
        exact List.mem_append_left _ ht
    | error stop =>
        cases stop with
        | exit e o => exact absurd (loadSections_exit_iff.mp ⟨e, o, hload⟩) hnot
        | undefinedBehaviour => exact Or.inl (exists_copyOverruns_of_undefined hload)

/-- A second section of code. -/
def hotSection (addr : BitVec 64) : ElfSection :=
  ⟨OvlSection.text.name ++ ['.', 'h', 'o', 't'], shtProgbits, addr, 16,
    some ⟨[0x24020001, 0x03E00008, 0x00000000, 0x00000000].flatMap wordBytes, []⟩⟩

/-- A section of code behind another one, which is not at address zero. -/
theorem hotSection_rejected :
    ∃ e o, novlConv (sampleElf mixedText [] [hotSection 0x80000018]) 0x80800000 =
      .failure e o := by
  let ss := (sampleElf mixedText [] []).sections
  have hkind : validSec (hotSection 0x80000018).name = some .text := by decide +kernel
  refine (@repeatedKind_rejected (sampleElf mixedText [] [hotSection 0x80000018]) 0x80800000 []
    ss.tail [] _ _ .text rfl (by decide +kernel) hkind).1 fun _ => ?_
  refine ⟨ss, _, [], rfl, ⟨.text, hkind, Or.inl (by decide +kernel)⟩, fun t ht hover => ?_⟩
  obtain ⟨hname, -, -, d, hdata, hend⟩ := hover
  rcases List.mem_cons.mp ht with rfl | ht
  · cases hdata
    exact absurd hend (by decide +kernel)
  · rw [List.mem_singleton.mp ht] at hname
    exact hname (by decide +kernel)

/-- Two sections of code, both at address zero as in an object file. -/
def hotElf : Elf where
  kind := .elf
  eMachine := emMips
  eEntry := 0
  sections := [
    ⟨OvlSection.text.name, shtProgbits, 0, 8,
      some ⟨[0x03E00008, 0x00000000].flatMap wordBytes, []⟩⟩,
    hotSection 0]

theorem hotElf_not_rejected :
    (∃ x y id, hotElf.sections = [x, y] ∧ validSec x.name = some id ∧
      validSec y.name = some id) ∧
      ¬ ∃ e o, novlConv hotElf 0x80800000 = .failure e o := by
  refine ⟨⟨_, _, .text, rfl, by decide +kernel, by decide +kernel⟩, ?_⟩
  rintro ⟨e, o, hfailure⟩
  have hdone : (novlConv hotElf 0x80800000).exitStatus = some 0 := by decide +kernel
  rw [hfailure] at hdone
  cases hdone

/-! ### Whose an address is -/

/-- The extent of a kind holds the address. -/
def InExtent (g : Globals) (i : OvlSection) (a : Word) : Prop :=
  ¬ (a < g.elfStarts i ∨ a ≥ g.elfStarts i + g.sizes i)

instance (g : Globals) (i : OvlSection) (a : Word) : Decidable (InExtent g i a) :=
  inferInstanceAs (Decidable (¬ _))

theorem inExtent_iff {g : Globals} {i : OvlSection} {a : Word} :
    InExtent g i a ↔ (g.elfStarts i).toNat ≤ a.toNat ∧
      a.toNat < ((g.elfStarts i).toNat + (g.sizes i).toNat) % 2 ^ 32 := by
  rw [InExtent, not_or, ge_iff_le, BitVec.not_lt, BitVec.not_le, BitVec.le_def, BitVec.lt_def,
    BitVec.toNat_add]

/-- The first kind, by number, that holds the address is the one found. -/
theorem getTargetSection_eq_some_iff {g : Globals} {a : Word} {id : OvlSection} :
    getTargetSection g a = some id ↔
      InExtent g id a ∧ ∀ i, i.index < id.index → ¬ InExtent g i a := by
  have hfind : getTargetSection g a = OvlSection.all.find? fun i => decide (InExtent g i a) := by
    rw [getTargetSection]
    congr 1
    funext i
    rw [Bool.eq_iff_iff]
    simp [InExtent]
  have hkinds (P : OvlSection → Prop) : (∀ i, P i) ↔ P .text ∧ P .data ∧ P .rodata ∧ P .bss := by
    constructor
    · exact fun h => ⟨h .text, h .data, h .rodata, h .bss⟩
    · rintro ⟨ht, hd, hr, hb⟩ i
      cases i <;> assumption
  rw [hfind, hkinds]
  by_cases ht : InExtent g .text a <;> by_cases hd : InExtent g .data a <;>
    by_cases hr : InExtent g .rodata a <;> by_cases hb : InExtent g .bss a <;>
    cases id <;> simp [OvlSection.all, OvlSection.index, ht, hd, hr, hb]

/-- A section that is found at all its addresses: what is recorded of its
kind covers it and ends below the top of the address space, and no kind
with a smaller number has an extent that reaches into it. An extent that
ends at the top or behind it holds no address. -/
structure Owned (ss : List ElfSection) (s : ElfSection) (id : OvlSection) : Prop where
  start : (recordedStart ss id).toNat ≤ s.shAddr.toNat
  stop : s.shAddr.toNat + s.shSize.toNat ≤
    (recordedStart ss id).toNat + (recordedSize ss id).toNat
  below : (recordedStart ss id).toNat + (recordedSize ss id).toNat < 2 ^ 32
  unclaimed : ∀ i, i.index < id.index →
    recordedSize ss i = 0#32 ∨
    2 ^ 32 ≤ (recordedStart ss i).toNat + (recordedSize ss i).toNat ∨
    (recordedStart ss i).toNat + (recordedSize ss i).toNat ≤ s.shAddr.toNat ∨
    s.shAddr.toNat + s.shSize.toNat ≤ (recordedStart ss i).toNat

/-- All addresses of a section are found exactly when it is owned. -/
theorem found_iff_owned {elfEp : Word} {ss : List ElfSection} {ld : LoadState}
    (hload : loadSections elfEp ss = .ok ld) (o : OvlSection → Word) {s : ElfSection}
    {id : OvlSection} (hsize : 0 < s.shSize) (haddr : s.shAddr.toNat < 2 ^ 32) :
    (∀ a : Word, s.shAddr.toNat ≤ a.toNat → a.toNat < s.shAddr.toNat + s.shSize.toNat →
      getTargetSection { ld.globals elfEp with ovlStarts := o } a = some id) ↔
      Owned ss s id := by
  have hsize : 0 < s.shSize.toNat := hsize
  have hextent (i : OvlSection) (a : Word) :
      InExtent { ld.globals elfEp with ovlStarts := o } i a ↔
        (recordedStart ss i).toNat ≤ a.toNat ∧
          a.toNat < ((recordedStart ss i).toNat + (recordedSize ss i).toNat) % 2 ^ 32 := by
    obtain ⟨hstart, hsize⟩ := loadSections_recorded hload i
    rw [inExtent_iff, ← hstart, ← hsize]
    rfl
  simp only [getTargetSection_eq_some_iff, hextent]
  have hword (n : ℕ) (hn : n < 2 ^ 32) : ∃ a : Word, a.toNat = n :=
    ⟨BitVec.ofNat 32 n, by rw [BitVec.toNat_ofNat, Nat.mod_eq_of_lt hn]⟩
  constructor
  · intro hall
    obtain ⟨first, hfirst⟩ := hword s.shAddr.toNat haddr
    obtain ⟨hstart, hend⟩ := (hall first (by omega) (by omega)).1
    -- The last address below the top is one of the section.
    obtain ⟨last, hlast⟩ := hword (min (s.shAddr.toNat + s.shSize.toNat) (2 ^ 32) - 1) (by omega)
    obtain ⟨-, hstop⟩ := (hall last (by omega) (by omega)).1
    have hlt := (recordedStart ss id).isLt
    have hlt' := (recordedSize ss id).isLt
    refine ⟨by omega, by omega, by omega, fun i hi => ?_⟩
    by_contra hmeets
    push Not at hmeets
    obtain ⟨hne, hbelow, hafter, hbefore⟩ := hmeets
    have hpos : 0 < (recordedSize ss i).toNat := by
      rw [Nat.pos_iff_ne_zero]
      exact fun hzero => hne (BitVec.eq_of_toNat_eq hzero)
    -- Both extents hold the larger one of their starts.
    obtain ⟨both, hboth⟩ := hword (max s.shAddr.toNat (recordedStart ss i).toNat) (by omega)
    exact (hall both (by omega) (by omega)).2 i hi ⟨by omega, by omega⟩
  · intro howned a hge hlt
    obtain ⟨hstart, hstop, hbelow, hunclaimed⟩ := howned
    refine ⟨⟨by omega, by omega⟩, fun i hi hmeets => ?_⟩
    have hlt' := (recordedStart ss i).isLt
    have hlt'' := (recordedSize ss i).isLt
    rcases hunclaimed i hi with hzero | htop | hafter | hbefore
    · rw [hzero] at hmeets
      rw [BitVec.toNat_zero, Nat.add_zero] at hmeets
      omega
    · omega
    · omega
    · omega

/-- For the sections of any file that loads: every address of every matched
section is attributed to its kind, and so adjusted by what its kind moves,
if and only if every section that has addresses is owned. -/
theorem sections_attributed_iff {elfEp : Word} {ss : List ElfSection} {ld : LoadState}
    (hload : loadSections elfEp ss = .ok ld) (o : OvlSection → Word) :
    (∀ s ∈ ss, ∀ id, validSec s.name = some id → ∀ a : Word, s.shAddr.toNat ≤ a.toNat →
      a.toNat < s.shAddr.toNat + s.shSize.toNat →
      getTargetSection { ld.globals elfEp with ovlStarts := o } a = some id ∧
        ∀ type, (type = rMips26 → id = .text) →
          adjustAddress { ld.globals elfEp with ovlStarts := o } a type false =
            (.success, o id + (a - ld.elfStarts id))) ↔
      ∀ s ∈ ss, ∀ id, validSec s.name = some id → 0 < s.shSize → s.shAddr.toNat < 2 ^ 32 →
        Owned ss s id := by
  refine forall₂_congr fun s _ => forall₂_congr fun id _ => ?_
  constructor
  · intro hall hsize haddr
    exact (found_iff_owned hload o hsize haddr).mp fun a hge hlt => (hall a hge hlt).1
  · intro howned a hge hlt
    have hsize : 0 < s.shSize := BitVec.lt_def.mpr (show 0 < s.shSize.toNat by omega)
    have haddr : s.shAddr.toNat < 2 ^ 32 := by omega
    have hfound := (found_iff_owned hload o hsize haddr).mpr (howned hsize haddr) a hge hlt
    refine ⟨hfound, fun type htype => ?_⟩
    rw [adjustAddress_real, hfound]
    simp only
    rw [if_neg (by tauto), Globals.add_delta]
    congr 1
    change a + o id - ld.elfStarts id = o id + (a - ld.elfStarts id)
    rw [BitVec.sub_eq_add_neg, BitVec.sub_eq_add_neg, BitVec.add_comm a, BitVec.add_assoc]

/-- A `.data` section of one word. -/
def wordSection (addr : BitVec 64) : ElfSection :=
  ⟨OvlSection.data.name, shtProgbits, addr, 4, some ⟨wordBytes 1, []⟩⟩

/-- A `.text` section and a `.data` section behind it. -/
def textDataElf : Elf := sampleElf mixedText [] [wordSection 0x80000018]

theorem textDataElf_attributed :
    ∃ ld, loadSections 0x80000000 textDataElf.sections = .ok ld ∧
      (∀ a : Word, 0x80000000 ≤ a.toNat → a.toNat < 0x80000018 →
        getTargetSection { ld.globals 0x80000000 with ovlStarts := mixedStarts } a =
          some .text) ∧
      ∀ a : Word, 0x80000018 ≤ a.toNat → a.toNat < 0x8000001C →
        getTargetSection { ld.globals 0x80000000 with ovlStarts := mixedStarts } a =
            some .data ∧
          adjustAddress { ld.globals 0x80000000 with ovlStarts := mixedStarts } a rMips32 false =
            (.success, mixedStarts .data + (a - ld.elfStarts .data)) := by
  obtain ⟨ld, hload, -⟩ := exists_ok_of_map
    (x := loadSections 0x80000000 textDataElf.sections) (fun _ => true) (by decide +kernel)
  have howned : ∀ s ∈ textDataElf.sections, ∀ id, validSec s.name = some id → 0 < s.shSize →
      s.shAddr.toNat < 2 ^ 32 → Owned textDataElf.sections s id := by
    intro s hs id hid _ _
    rcases List.mem_cons.mp hs with rfl | hs
    · obtain rfl : OvlSection.text = id :=
        Option.some.inj ((by decide +kernel : some _ = _).trans hid)
      exact ⟨by decide +kernel, by decide +kernel, by decide +kernel,
        fun i hi => absurd hi (Nat.not_lt_zero _)⟩
    rcases List.mem_cons.mp hs with rfl | hs
    · have hrel : validSec (['.', 'r', 'e', 'l'] ++ OvlSection.text.name) = none := by
        decide +kernel
      exact absurd (hrel.symm.trans hid) (by simp)
    · obtain rfl := List.mem_singleton.mp hs
      obtain rfl : OvlSection.data = id :=
        Option.some.inj ((by decide +kernel : some _ = _).trans hid)
      refine ⟨by decide +kernel, by decide +kernel, by decide +kernel, fun i hi => ?_⟩
      -- only `.text` has a smaller number, and it ends where `.data` starts
      cases i with
      | text => exact Or.inr (Or.inr (Or.inl (by decide +kernel)))
      | data | rodata | bss => exact absurd hi (by decide)
  have hattributed := (sections_attributed_iff hload mixedStarts).mpr howned
  have hdata : wordSection 0x80000018 ∈ textDataElf.sections := by
    simp [textDataElf, sampleElf]
  refine ⟨ld, hload, fun a hge hlt => ?_, fun a hge hlt => ?_⟩
  · exact (hattributed _ List.mem_cons_self .text (by decide +kernel) a hge hlt).1
  · obtain ⟨hfound, hmoved⟩ := hattributed _ hdata .data (by decide +kernel) a hge hlt
    exact ⟨hfound, hmoved rMips32 (fun h => absurd h (by decide))⟩

/-- The extents of the matched sections are pairwise disjoint. -/
def DisjointExtents (ss : List ElfSection) : Prop :=
  (ss.filter fun s => (validSec s.name).isSome).Pairwise fun s t =>
    s.shAddr.toNat + s.shSize.toNat ≤ t.shAddr.toNat ∨
      t.shAddr.toNat + t.shSize.toNat ≤ s.shAddr.toNat

/-- The word behind a `.text` section of one word is its own, too. -/
theorem roundedText_takes_data :
    DisjointExtents (sampleElf [0x03E00008] [] [wordSection 0x80000004]).sections ∧
      validSec (wordSection 0x80000004).name = some .data ∧
      ∃ ld, loadSections 0x80000000
          (sampleElf [0x03E00008] [] [wordSection 0x80000004]).sections = .ok ld ∧
        getTargetSection { ld.globals 0x80000000 with ovlStarts := mixedStarts } 0x80000004 =
          some .text := by
  refine ⟨by rw [DisjointExtents]; decide +kernel, by decide +kernel, ?_⟩
  obtain ⟨ld, hload, hld⟩ := exists_ok_of_map
    (x := loadSections 0x80000000 (sampleElf [0x03E00008] [] [wordSection 0x80000004]).sections)
    (fun ld => decide (getTargetSection { ld.globals 0x80000000 with ovlStarts := mixedStarts }
      0x80000004 = some .text)) (by decide +kernel)
  exact ⟨ld, hload, of_decide_eq_true hld⟩

end Novl
