import Novl.Library.LoggedRun
import Novl.Options
import Novl.PrintedTables
import Novl.Stops

/-!
What a conversion says, in `novl-conv.c` and `novl-reloc.c`.

The conversion itself is as in `Convert`; here stands what it says on the
way, and its last words where it exits. An entry in error is reported with
the name of its type, which is looked up without a look at the end of the
table; so a report can be undefined where the conversion is not.
-/

namespace Novl

open ByteMemory FallibleRun LoggedRun

/-- The functions that print what a conversion says. -/
inductive ConvMesgKind
  | mesg
  | error
  | debug
  | debugR
  deriving DecidableEq, Repr

def ConvMesgKind.mesgKind : ConvMesgKind → MesgKind
  | .mesg => .mesg
  | .error => .error
  | .debug => .debug
  | .debugR => .debugR

/-- What a message says. Its text is undefined if an argument is of another
type than the format says; and with an argument for `%s` that is not a
string, a null pointer or what stands behind a table, the call is. -/
inductive MesgText
  | known (text : List Char)
  | mismatched
  | noString
  deriving DecidableEq

/-- A message of the converter. -/
structure ConvMesg where
  kind : ConvMesgKind
  text : MesgText
  deriving DecidableEq

/-- `%08X`, of the low 32 bits of its argument. -/
def hexArg (n : ℕ) : List Char := hexPrint upperDigits 8 n

/-- `%X`. -/
def shortHex (n : ℕ) : List Char := (Nat.toDigits 16 n).map Char.toUpper

/-- `STRTYPE` and `novl_str_reloc`. The table ends with a null pointer. -/
def strType (type : Word) : Option (List Char) := (novlStrReloc type).map String.toList

/-- A text with the name of a type in it. -/
def typeText (type : Word) (text : List Char → List Char) : MesgText :=
  match strType type with
  | none => .noString
  | some name => .known (text name)

/-! ### The relocator -/

def adjustMesgs (g : Globals) (addr type : Word) (dryrun : Bool) : List ConvMesg :=
  match getTargetSection g addr with
  | none =>
    [⟨.debugR, typeText type fun name =>
      name ++ ": skipping 0x".toList ++ hexArg addr.toNat ++ " - out of bounds".toList⟩]
  | some s =>
    if type = rMips26 ∧ s ≠ .text then
      [⟨.error, .known ("26-bit jump instruction pointing to the ".toList ++ s.name ++
        " section (not .text) (target 0x".toList ++ hexArg addr.toNat ++ ")!".toList)⟩]
    else if dryrun then []
    else
      [⟨.debugR, typeText type fun name =>
        name ++ ": 0x".toList ++ hexArg addr.toNat ++ " -> 0x".toList ++
          hexArg (addr + (g.ovlStarts s - g.elfStarts s)).toNat⟩]

def lo16Mesgs (g : Globals) (i : ℕ) (dryrun : Bool) (st : RelocState) : List ConvMesg :=
  let w := loadWord st.memory i
  let reg := loReg w
  match st.hilo reg with
  | .invalid =>
    [⟨.error, .known ("Instruction ".toList ++ hexArg w.toNat ++
      " uses low immediate value relative to reg ".toList ++ printInt reg.val ++
      ", but not previously set!".toList)⟩]
  | .valid _ hi => adjustMesgs g (hi + loImmediate w) rMipsLo16 dryrun
  | .used _ hi =>
    ⟨.debugR, .known ("    Hi reg ".toList ++ printInt reg.val ++ " previously used".toList)⟩ ::
      adjustMesgs g (hi + loImmediate w) rMipsLo16 dryrun

def novlRelocDoMesgs (g : Globals) (i : ℕ) (type : Word) (dryrun : Bool) (st : RelocState) :
    List ConvMesg :=
  match novlRelocJt type with
  | none => []
  | some handler =>
    if i + 4 ≤ memorySize then
      match handler with
      | .mips32 => adjustMesgs g (loadWord st.memory i) rMips32 dryrun
      | .mips26 => adjustMesgs g (jumpTarget (loadWord st.memory i)) rMips26 dryrun
      | .hi16 => []
      | .lo16 => lo16Mesgs g i dryrun st
    else []

/-! ### The two passes -/

/-- What is said of an entry in error. -/
def processingMesgs (rel : GElfRel) : List ConvMesg :=
  [⟨.error, typeText rel.type fun name =>
      "Error processing relocation of type ".toList ++ name ++ ". Abort.".toList⟩,
    ⟨.debug, .known (hexArg rel.addr.toNat ++ [','] ++ printInt rel.type.toInt)⟩]

/-- One entry, in either pass. -/
def entryMesgs (g : Globals) (dryrun : Bool) (st : RelocState) (rel : GElfRel) : List ConvMesg :=
  novlRelocDoMesgs g (relOff g rel) rel.type dryrun st ++
    match novlRelocDo g (relOff g rel) rel.type dryrun st with
    | some (.error, _) => processingMesgs rel
    | _ => []

/-- A section that the passes do not skip, whatever it holds. -/
def isRelSection (s : ElfSection) : Bool :=
  ['.', 'r', 'e', 'l'].isPrefixOf s.name && (validSec (s.name.drop 4)).isSome

/-- One turn of the loops over the sections. -/
def relSectionMesgs (heading : List Char → List Char) (entries : RelBlock → List ConvMesg)
    (s : ElfSection) : List ConvMesg :=
  if isRelSection s then
    ⟨.debug, .known (heading s.name)⟩ ::
      match relBlock? s with
      | none => []
      | some b => entries b
  else []

/-- What a section does to the state of a pass. -/
def sectionStep {σ : Type} (block : σ → RelBlock → Option σ) (st : σ) (s : ElfSection) :
    Option σ :=
  match relBlock? s with
  | none => some st
  | some b => block st b

def dryBlockMesgs (g : Globals) (st : DryState) (b : RelBlock) : List ConvMesg :=
  runLog (dryEntry g) (fun st rel => entryMesgs g true st.reloc rel)
    { st with reloc.hilo := novlRelocInit } (relList b.rels)

def dryMesgs (g : Globals) (m : Memory) (ss : List ElfSection) : List ConvMesg :=
  runLog (sectionStep (dryBlock g))
    (fun st => relSectionMesgs
      (fun name => "Counting relocation entries from '".toList ++ name ++ "'.".toList)
      (dryBlockMesgs g st))
    { reloc := ⟨m, novlRelocInit⟩, error := false, nintyCountPred := 0 } ss

def realBlockMesgs (g : Globals) (st : RealState) (b : RelBlock) : List ConvMesg :=
  runLog (fun st rel => (realEntry g b.id st rel).toOption)
    (fun st rel => entryMesgs g false st.reloc rel)
    { st with last := none, reloc.hilo := novlRelocInit } (relList b.rels)

def realMesgs (g : Globals) (m : Memory) (ss : List ElfSection) : List ConvMesg :=
  runLog (sectionStep fun st b => (realBlock g st b).toOption)
    (fun st => relSectionMesgs
      (fun name => "Processing relocation entries from '".toList ++ name ++ "'".toList)
      (realBlockMesgs g st))
    { reloc := ⟨m, novlRelocInit⟩, nintyRelocs := [], last := none, nintyCountReal := 0 } ss

/-! ### Loading and writing -/

def loadSectionMesgs (elfEp : Word) (st : LoadState) (s : ElfSection) : List ConvMesg :=
  match validSec s.name, loadSection elfEp st s with
  | some _, .ok _ =>
    if s.shType = shtProgbits then
      [⟨.debug, .known ("Copied '".toList ++ s.name ++ "' (0x".toList ++
        shortHex (s.shSize.setWidth 32).toNat ++ " bytes) to 0x".toList ++
        hexArg s.shAddr.toNat ++ ['.'])⟩]
    else []
  | _, _ => []

def loadMesgs (elfEp : Word) (ss : List ElfSection) : List ConvMesg :=
  runLog (fun st s => (loadSection elfEp st s).toOption) (loadSectionMesgs elfEp) LoadState.init ss

/-- `MESG` with a number of bytes. -/
def wroteMesg (what : List Char) (n : ℕ) : ConvMesg :=
  ⟨.mesg, .known (what ++ " (".toList ++ printInt n ++ "b).".toList)⟩

def writeSectionMesgs (base : Word) (starts : OvlSection → Word)
    (contents : OvlSection → Except Stop (List Byte)) (f : SeekFile) (i : OvlSection) :
    List ConvMesg :=
  match writeSection base starts contents f i, contents i with
  | .ok _, .ok bs => [wroteMesg ("Wrote section ".toList ++ i.name) bs.length]
  | _, _ => []

def writeMesgs (base : Word) (starts sizes : OvlSection → Word) (count : ℤ) (relocs : List Word)
    (contents : OvlSection → Except Stop (List Byte)) : List ConvMesg :=
  let f := writeFooter sizes (writeHead sizes count relocs)
  [⟨.debug, .known ("Header offset: 0x".toList ++ shortHex (headerAddr sizes).toNat)⟩,
    wroteMesg "Wrote section descriptions".toList 20,
    wroteMesg "Wrote relocation entries".toList (4 * (relocs.takeWhile (· ≠ 0)).length),
    wroteMesg "Finalized footer".toList 4] ++
  if (starts .bss).toNat ≠ f.pos + base.toNat then []
  else
    runLog (fun f i => (writeSection base starts contents f i).toOption)
      (writeSectionMesgs base starts contents) (f.seek 0) [.text, .data, .rodata]

/-! ### The whole conversion -/

/-- The last words before an `exit`, less what is said where an entry is in
error. Where `%08X` is given an address with 64 bits, or has its argument
out of step with it, there is no text. -/
def exitMesgs : ConvError → List ConvMesg
  | .archiveProvided =>
    [⟨.error, .known "ar(1) archive provided -- elf files only, please!".toList⟩]
  | .unsupportedFormat => [⟨.error, .known "Unsupported input format.".toList⟩]
  | .notMips => [⟨.error, .known "This program is for MIPS binaries only, silly!".toList⟩]
  | .multipleSections name =>
    [⟨.error, .known ("Multiple ".toList ++ name ++ " sections defined".toList)⟩]
  | .memoryBounds _ _ _ _ => [⟨.error, .mismatched⟩]
  | .relocations => []
  | .processingRelocation _ => []
  | .countPrediction pred real =>
    [⟨.error, .known ("Relocation prediction failed! ninty_count_pred = ".toList ++
      printInt pred ++ ", ninty_count_real = ".toList ++ printInt real)⟩]
  | .bssPrediction _ _ => [⟨.error, .mismatched⟩]
  | .sectionArrangement _ _ _ => [⟨.error, .mismatched⟩]
  | .headerArrangement _ _ => [⟨.error, .mismatched⟩]

def stopMesgs {α : Type} : Except Stop α → List ConvMesg
  | .error (.exit e _) => exitMesgs e
  | _ => []

/-- What is said of an input file that is accepted, before its output is
opened. -/
def acceptedMesgs (filename : List Char) (elfEp base : Word) : List ConvMesg :=
  [⟨.mesg, .known (['"'] ++ filename ++ "\": valid MIPS ELF file.".toList)⟩,
    ⟨.mesg, .known ("Entry point: 0x".toList ++ hexArg elfEp.toNat ++
      ". Translating to 0x".toList ++ hexArg base.toNat ++ ['.'])⟩]

/-- From the loaded image on, up to an `exit`. -/
def imageMesgs (elfEp : Word) (ld : LoadState) (ss : List ElfSection) (base : Word) :
    List ConvMesg :=
  let g := ld.globals elfEp
  dryMesgs g ld.memory ss ++
    match dryPass g ld.memory (relBlocks ss) with
    | none => []
    | some dry =>
      if dry.error then []
      else
        let g := ld.globalsAt elfEp base dry.nintyCountPred
        realMesgs g ld.memory ss ++
          match realPass g ld.memory (relBlocks ss) with
          | .error _ => []
          | .ok real =>
            if dry.nintyCountPred ≠ real.nintyCountReal then []
            else writeMesgs base g.ovlStarts g.sizes real.nintyCountReal real.nintyRelocs
              (sectionContents g real.reloc.memory)

/-- Everything up to an `exit`. -/
def progressMesgs (filename : List Char) (elf : Elf) (base : Word) : List ConvMesg :=
  let elfEp := elf.eEntry.setWidth 32
  if elf.kind = .elf ∧ elf.eMachine = emMips then
    acceptedMesgs filename elfEp base ++ loadMesgs elfEp elf.sections ++
      match loadSections elfEp elf.sections with
      | .error _ => []
      | .ok ld => imageMesgs elfEp ld elf.sections base
  else []

/-- What a conversion says. -/
def convertMesgs (filename : List Char) (elf : Elf) (base : Word) : List ConvMesg :=
  progressMesgs filename elf base ++ stopMesgs (convert elf base)

/-- Whether the call for a message is undefined. -/
def ConvMesg.isUndefined (m : ConvMesg) : Bool := m.text = .noString

/-- `novl_conv` as far as its reports are defined. -/
def novlConvReporting (elf : Elf) (base : Word) : Outcome :=
  if (convertMesgs [] elf base).any ConvMesg.isUndefined then .undefinedBehaviour
  else novlConv elf base

/-! ### What is said of an entry -/

theorem typeText_of_name {type : Word} {name : List Char} (h : strType type = some name)
    (text : List Char → List Char) : typeText type text = .known (text name) := by
  rw [typeText, h]

theorem adjustMesgs_text {g : Globals} {addr type : Word} {dryrun : Bool} {m : ConvMesg}
    (hm : m ∈ adjustMesgs g addr type dryrun) (htype : strType type ≠ none) :
    ∃ text, m.text = .known text := by
  obtain ⟨name, hname⟩ := Option.ne_none_iff_exists'.mp htype
  rw [adjustMesgs] at hm
  split at hm
  · obtain rfl := List.mem_singleton.mp hm
    exact ⟨_, typeText_of_name hname _⟩
  · split_ifs at hm
    · obtain rfl := List.mem_singleton.mp hm
      exact ⟨_, rfl⟩
    · cases hm
    · obtain rfl := List.mem_singleton.mp hm
      exact ⟨_, typeText_of_name hname _⟩

theorem novlRelocDoMesgs_text {g : Globals} {i : ℕ} {type : Word} {dryrun : Bool}
    {st : RelocState} {m : ConvMesg} (hm : m ∈ novlRelocDoMesgs g i type dryrun st) :
    ∃ text, m.text = .known text := by
  rw [novlRelocDoMesgs] at hm
  cases hjt : novlRelocJt type with
  | none =>
      rw [hjt] at hm
      cases hm
  | some handler =>
      simp only [hjt] at hm
      split_ifs at hm with hin
      · cases handler with
        | mips32 => exact adjustMesgs_text hm (by decide)
        | mips26 => exact adjustMesgs_text hm (by decide)
        | hi16 => cases hm
        | lo16 =>
            simp only [lo16Mesgs] at hm
            split at hm
            · obtain rfl := List.mem_singleton.mp hm
              exact ⟨_, rfl⟩
            · exact adjustMesgs_text hm (by decide)
            · rcases List.mem_cons.mp hm with rfl | hm
              · exact ⟨_, rfl⟩
              · exact adjustMesgs_text hm (by decide)
      · cases hm

/-- The call for a message about an entry is undefined exactly if the entry
is in error and its type has no name. -/
theorem entryMesgs_noString_iff {g : Globals} {dryrun : Bool} {st : RelocState} {rel : GElfRel} :
    (∃ m ∈ entryMesgs g dryrun st rel, m.text = .noString) ↔
      (∃ reloc, novlRelocDo g (relOff g rel) rel.type dryrun st = some (.error, reloc)) ∧
        strType rel.type = none := by
  constructor
  · rintro ⟨m, hm, htext⟩
    rcases List.mem_append.mp hm with hm | hm
    · obtain ⟨text, hknown⟩ := novlRelocDoMesgs_text hm
      rw [hknown] at htext
      cases htext
    · split at hm
      · rename_i reloc hdo
        refine ⟨⟨reloc, hdo⟩, ?_⟩
        rcases List.mem_cons.mp hm with rfl | hm
        · by_contra hname
          obtain ⟨name, hname⟩ := Option.ne_none_iff_exists'.mp hname
          rw [typeText_of_name hname] at htext
          cases htext
        · rw [List.mem_singleton.mp hm] at htext
          cases htext
      · cases hm
  · rintro ⟨⟨reloc, hdo⟩, htype⟩
    rw [entryMesgs, hdo]
    refine ⟨_, List.mem_append_right _ List.mem_cons_self, ?_⟩
    rw [typeText, htype]

/-- No message about an entry has an argument of another type than its
format says. -/
theorem entryMesgs_not_mismatched {g : Globals} {dryrun : Bool} {st : RelocState} {rel : GElfRel}
    {m : ConvMesg} (hm : m ∈ entryMesgs g dryrun st rel) : m.text ≠ .mismatched := by
  rcases List.mem_append.mp hm with hm | hm
  · obtain ⟨text, hknown⟩ := novlRelocDoMesgs_text hm
    simp [hknown]
  · split at hm
    · rcases List.mem_cons.mp hm with rfl | hm
      · rw [typeText]
        split <;> simp
      · rw [List.mem_singleton.mp hm]
        simp
    · cases hm

/-! ### What is said in a pass -/

section Passes

variable {p : ConvMesg → Prop}

/-- The loops over the sections are those over the blocks. -/
theorem foldlM_sectionStep {σ : Type} (block : σ → RelBlock → Option σ) (st : σ)
    (ss : List ElfSection) : ss.foldlM (sectionStep block) st = (relBlocks ss).foldlM block st := by
  rw [relBlocks, List.foldlM_filterMap]
  refine congrArg (fun f => ss.foldlM f st) ?_
  funext st s
  rw [sectionStep]
  cases relBlock? s <;> rfl

theorem isRelSection_of_relBlock {s : ElfSection} {b : RelBlock} (h : relBlock? s = some b) :
    isRelSection s = true := by
  rw [relBlock?] at h
  by_cases hname : ['.', 'r', 'e', 'l'].isPrefixOf s.name = true
  · rw [if_pos hname] at h
    cases hid : validSec (s.name.drop 4) with
    | none =>
        rw [hid] at h
        cases h
    | some id => rw [isRelSection, hname, hid, Bool.true_and, Option.isSome_some]
  · rw [if_neg hname] at h
    cases h

/-- Besides its headings, a pass says what it says in the blocks. -/
theorem exists_mem_sections {σ : Type} {block : σ → RelBlock → Option σ}
    {heading : List Char → List Char} {entries : σ → RelBlock → List ConvMesg}
    (hp : ∀ text, ¬ p ⟨.debug, .known text⟩) {st : σ} {ss : List ElfSection} :
    (∃ m ∈ runLog (sectionStep block) (fun st => relSectionMesgs heading (entries st)) st ss, p m) ↔
      ∃ before b after st', relBlocks ss = before ++ b :: after ∧
        before.foldlM block st = some st' ∧ ∃ m ∈ entries st' b, p m := by
  constructor
  · rintro ⟨m, hm, hpm⟩
    obtain ⟨pre, s, post, st', rfl, hpre, hm⟩ := mem_runLog_iff.mp hm
    rw [foldlM_sectionStep] at hpre
    rw [relSectionMesgs] at hm
    split_ifs at hm
    · rcases List.mem_cons.mp hm with rfl | hm
      · exact absurd hpm (hp _)
      · cases hb : relBlock? s with
        | none =>
            rw [hb] at hm
            cases hm
        | some b =>
            rw [hb] at hm
            refine ⟨relBlocks pre, b, relBlocks post, st', ?_, hpre, m, hm, hpm⟩
            simp only [relBlocks, List.filterMap_append, List.filterMap_cons, hb]
    · cases hm
  · rintro ⟨before, b, after, st', hblocks, hbefore, m, hm, hpm⟩
    obtain ⟨pre, rest, rfl, rfl, hrest⟩ := List.filterMap_eq_append_iff.mp hblocks
    obtain ⟨skipped, s, post, rfl, hskipped, hb, rfl⟩ := List.filterMap_eq_cons_iff.mp hrest
    have hpre : (pre ++ skipped).foldlM (sectionStep block) st = some st' := by
      have hnone : relBlocks skipped = [] := List.filterMap_eq_nil_iff.mpr hskipped
      rw [foldlM_sectionStep, relBlocks, List.filterMap_append]
      change (relBlocks pre ++ relBlocks skipped).foldlM block st = some st'
      rw [hnone, List.append_nil]
      exact hbefore
    refine ⟨m, mem_runLog_iff.mpr ⟨pre ++ skipped, s, post, st', by simp, hpre, ?_⟩, hpm⟩
    rw [relSectionMesgs, if_pos (isRelSection_of_relBlock hb), hb]
    exact List.mem_cons_of_mem _ hm

theorem exists_mem_dryMesgs (hp : ∀ text, ¬ p ⟨.debug, .known text⟩) {g : Globals} {memory : Memory}
    {ss : List ElfSection} :
    (∃ m ∈ dryMesgs g memory ss, p m) ↔
      ∃ before b after pre e post st, relBlocks ss = before ++ b :: after ∧
        relList b.rels = pre ++ e :: post ∧ dryBefore g memory before pre = some st ∧
        ∃ m ∈ entryMesgs g true st.reloc e, p m := by
  rw [dryMesgs, exists_mem_sections hp]
  constructor
  · rintro ⟨before, b, after, st₀, hblocks, hbefore, m, hm, hpm⟩
    obtain ⟨pre, e, post, st, hsplit, hpre, hm⟩ := mem_runLog_iff.mp hm
    exact ⟨before, b, after, pre, e, post, st, hblocks, hsplit,
      by rw [dryBefore, hbefore]; exact hpre, m, hm, hpm⟩
  · rintro ⟨before, b, after, pre, e, post, st, hblocks, hsplit, hst, m, hm, hpm⟩
    obtain ⟨st₀, hbefore, hpre⟩ := Option.bind_eq_some_iff.mp hst
    exact ⟨before, b, after, st₀, hblocks, hbefore, m,
      mem_runLog_iff.mpr ⟨pre, e, post, st, hsplit, hpre, hm⟩, hpm⟩

theorem exists_mem_realMesgs (hp : ∀ text, ¬ p ⟨.debug, .known text⟩) {g : Globals}
    {memory : Memory} {ss : List ElfSection} :
    (∃ m ∈ realMesgs g memory ss, p m) ↔
      ∃ before b after pre e post st, relBlocks ss = before ++ b :: after ∧
        relList b.rels = pre ++ e :: post ∧ realBefore g memory before b.id pre = .ok st ∧
        ∃ m ∈ entryMesgs g false st.reloc e, p m := by
  rw [realMesgs, exists_mem_sections hp]
  constructor
  · rintro ⟨before, b, after, st₀, hblocks, hbefore, m, hm, hpm⟩
    obtain ⟨pre, e, post, st, hsplit, hpre, hm⟩ := mem_runLog_iff.mp hm
    rw [foldlM_toOption] at hbefore hpre
    exact ⟨before, b, after, pre, e, post, st, hblocks, hsplit,
      by rw [realBefore, hbefore]; exact hpre, m, hm, hpm⟩
  · rintro ⟨before, b, after, pre, e, post, st, hblocks, hsplit, hst, m, hm, hpm⟩
    obtain ⟨st₀, hbefore, hpre⟩ := exists_of_bind_eq_ok hst
    exact ⟨before, b, after, st₀, hblocks, foldlM_toOption.mpr hbefore, m,
      mem_runLog_iff.mpr ⟨pre, e, post, st, hsplit, foldlM_toOption.mpr hpre, hm⟩, hpm⟩

end Passes

end Novl
