import Novl.ElfFormat

/-!
What a conversion says of a file.

In front of the headers there are messages of their own, and one if the
output file cannot be opened. Behind them it says what the conversion of
the view says, as far as the sections have names.
-/

namespace Novl

open FallibleRun

/-- `elf_errmsg`. -/
def elfErrmsg : ElfError → List Char
  | .unknownVersion => "Request error: unknown ELF version".toList
  | .unknownEncoding => "Request error: unknown data encoding".toList
  | .unknownClass => "Request error: unknown ELF class".toList
  | .truncEhdr => "Format error: ELF header truncated".toList
  | .outside => "Format error: reference outside file".toList
  | .ehdrShentsize => "Format error: bad e_shentsize value".toList
  | .truncShdr => "Format error: section header table truncated".toList
  | .noSuchScn => "Request error: no section at index".toList
  | .ehdrPhentsize => "Format error: bad e_phentsize value".toList
  | .truncPhdr => "Format error: program header table truncated".toList

/-- As `convertFile`. -/
def convertFileMesgs (filename : List Char) (f : ElfFile) (base : Word) : List ConvMesg :=
  let elfEp := f.elf.eEntry.setWidth 32
  if f.elf.eMachine ≠ emMips then exitMesgs .notMips
  else if !(f.scns.map f.section?).all Option.isSome || f.scns.any f.relRunsOut then
    acceptedMesgs filename elfEp base ++ loadMesgs elfEp f.namedSections ++
      stopMesgs (loadSections elfEp f.namedSections)
  else convertMesgs filename f.elf base

/-- As `novlConvFile`. -/
def novlConvFileMesgs (filename : List Char) (image : List Byte) (base : Word) : List ConvMesg :=
  match elfCheckType image with
  | .ar => exitMesgs .archiveProvided
  | .other => exitMesgs .unsupportedFormat
  | .elf =>
    match elfCook image with
    | .error (.failed e) =>
      [⟨.error, .known ("gelf_getehdr() failed: ".toList ++ elfErrmsg e)⟩]
    | .error .undefinedBehaviour => []
    | .ok f => convertFileMesgs filename f base

/-- The input file, if the run gets to open its output. -/
def openedFile? (image : List Byte) : Option ElfFile :=
  match elfCheckType image with
  | .elf =>
    match elfCook image with
    | .ok f => if f.elf.eMachine = emMips then some f else none
    | .error _ => none
  | _ => none

/-- What is said if the output cannot be opened. -/
def cantOpenMesgs (filename out strerror : List Char) (f : ElfFile) (base : Word) :
    List ConvMesg :=
  acceptedMesgs filename (f.elf.eEntry.setWidth 32) base ++
    [⟨.error, .known ("Can't open \"".toList ++ out ++ "\" for writing: ".toList ++ strerror)⟩]

section File

variable {filename : List Char} {image : List Byte} {base : Word}

/-- A file that is converted is seen as it is, and its view converts. -/
theorem exists_convert_of_convertFile {f : ElfFile} {file : List Byte}
    (h : convertFile f base = .ended (.success file)) :
    ∃ c, convert f.elf base = .ok c ∧ c.file = file ∧
      convertFileMesgs filename f base = convertMesgs filename f.elf base := by
  rw [convertFile] at h
  split_ifs at h with hmachine hread hoverlap
  · cases h
  · cases hload : loadSections (f.elf.eEntry.setWidth 32) f.namedSections with
    | ok ld =>
        rw [hload] at h
        cases h
    | error stop =>
        rw [hload] at h
        cases stop <;> cases h
  · have hrun := FileOutcome.ended.inj h
    have hdefined : novlConvReporting f.elf base ≠ .undefinedBehaviour := by simp [hrun]
    rw [novlConvReporting_of_ne hdefined, novlConv] at hrun
    cases hconvert : convert f.elf base with
    | ok c =>
        rw [hconvert] at hrun
        exact ⟨c, rfl, Outcome.success.inj hrun, by
          rw [convertFileMesgs, if_neg hmachine, if_neg hread]⟩
    | error stop =>
        rw [hconvert] at hrun
        cases stop <;> cases hrun

/-- A conversion that succeeds has opened its output and read an ELF file,
and what it says is what the conversion of its view says. -/
theorem exists_of_novlConvFile_success {file : List Byte}
    (h : novlConvFile image base = .ended (.success file)) :
    ∃ f c, elfCook image = .ok f ∧ openedFile? image = some f ∧ convert f.elf base = .ok c ∧
      c.file = file ∧
      novlConvFileMesgs filename image base = convertMesgs filename f.elf base := by
  rw [novlConvFile] at h
  rw [novlConvFileMesgs, openedFile?]
  cases hkind : elfCheckType image with
  | ar => simp [hkind] at h
  | other => simp [hkind] at h
  | elf =>
      simp only [hkind] at h ⊢
      cases hcook : elfCook image with
      | error stop => cases stop <;> simp [hcook] at h
      | ok f =>
          simp only [hcook] at h ⊢
          obtain ⟨c, hconvert, hfile, hmesgs⟩ := exists_convert_of_convertFile h
          have hmips := (conversion_of_convert hconvert).machine
          exact ⟨f, c, rfl, if_pos hmips, hconvert, hfile, hmesgs⟩

end File

end Novl
