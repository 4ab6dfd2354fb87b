import Novl.Commands
import Novl.ConvertedListing

/-!
The commands on a file that a conversion has left.

Such a file is an overlay to all of them: each command that reads overlays
gets to its end on it, at any base address. The listing of relocations
needs what it needs of any table, that every entry lies in its section.
-/

namespace Novl

open ByteMemory FallibleRun

/-- Whether a line can be printed does not depend on the base address. -/
theorem listRelocation_ne_none_of_base {base base' : Word} {ovl : Ovl} {r : Word}
    (h : listRelocation base ovl r ≠ none) : listRelocation base' ovl r ≠ none := by
  obtain ⟨row, hrow⟩ := Option.ne_none_iff_exists'.mp h
  rw [listRelocation] at hrow ⊢
  split at hrow
  · split at hrow
    · exact Option.some_ne_none _
    · cases hrow
  · cases hrow

/-- The sections of a shorter list are disassembled as well. -/
theorem disassembleSections_append_ne_none {filename : List Char} {ovl : Ovl}
    {is js : List OvlSection} {addr : Word}
    (h : disassembleSections filename ovl (is ++ js) addr ≠ none) :
    disassembleSections filename ovl is addr ≠ none := by
  induction is generalizing addr with
  | nil => exact Option.some_ne_none _
  | cons i is ih =>
      rw [List.cons_append, disassembleSections] at h
      rw [disassembleSections]
      cases hwords : disassembleWords ovl i (wordTurns (ovl.sections i).size) 0 addr with
      | none =>
          rw [hwords] at h
          exact h
      | some lines =>
          rw [hwords] at h
          simp only at h ⊢
          have hrest : disassembleSections filename ovl is lines.2 ≠ none := by
            refine ih fun hnone => h ?_
            rw [hnone]
          obtain ⟨rest, hrest⟩ := Option.ne_none_iff_exists'.mp hrest
          rw [hrest]
          exact Option.some_ne_none _

section Converted

variable {elf : Elf} {base : Word} {c : Converted} {ovl : Ovl}

theorem Conversion.disassemble_ne_none (h : Conversion elf base c)
    (hshort : c.file.length < 2 ^ 31) (hload : ovlLoad c.file = .ok ovl) (filename : List Char)
    (all : Bool) (base' : Word) : disassemble filename all base' ovl ≠ none := by
  obtain ⟨-, -, hlen, -⟩ := h.file_eq (h.headEnd_lt hshort)
  obtain rfl := Except.ok.inj ((h.ovlLoad_eq hshort).symm.trans hload)
  obtain ⟨-, lines, hlines, -⟩ := h.words_listed hlen filename base'
  cases all with
  | true => exact hlines ▸ Option.some_ne_none _
  | false =>
      have hall : disassembleSections filename _ ([.text] ++ [.data, .rodata]) base' ≠ none :=
        hlines ▸ Option.some_ne_none _
      exact disassembleSections_append_ne_none hall

theorem Conversion.listRelocations_ne_none (h : Conversion elf base c)
    (hshort : c.file.length < 2 ^ 31) (hload : ovlLoad c.file = .ok ovl)
    (hid : ∀ b ∈ relBlocks elf.sections, b.id ≠ .bss)
    (hinside : InsideSections c.globals (relBlocks elf.sections)) (base' : Word) :
    listRelocations base' ovl ≠ none := by
  have hrelocs : ovl.relocations = c.nintyRelocs := by
    rw [← Except.ok.inj ((h.ovlLoad_eq hshort).symm.trans hload)]
  rw [listRelocations, mapM_ne_none_iff, hrelocs]
  intro r hr
  obtain ⟨b, hb, e, he, hhandled, rfl⟩ := h.mem_nintyRelocs hr
  obtain ⟨line, hline, -⟩ :=
    h.listRelocation_shows hshort (hid b hb) hhandled (hinside b hb e he) hload
  exact listRelocation_ne_none_of_base (hline ▸ Option.some_ne_none _)

/-- The overlay has a text in every mode that reads overlays. -/
theorem Conversion.overlayText_ne_none (h : Conversion elf base c)
    (hshort : c.file.length < 2 ^ 31) (hload : ovlLoad c.file = .ok ovl) {s : Settings}
    (hnone : s.opmode ≠ .none) (hconvert : s.opmode ≠ .convert)
    (hlist : s.opmode = .listRelocations → (∀ b ∈ relBlocks elf.sections, b.id ≠ .bss) ∧
      InsideSections c.globals (relBlocks elf.sections)) (filename : List Char) :
    overlayText s filename ovl ≠ none := by
  rw [overlayText]
  cases hop : s.opmode with
  | none => exact absurd hop hnone
  | convert => exact absurd hop hconvert
  | listSections => exact Option.some_ne_none _
  | listRelocations =>
      obtain ⟨hid, hinside⟩ := hlist hop
      have hrows := h.listRelocations_ne_none hshort hload hid hinside s.baseAddr
      simpa [listRelocationsOutput] using hrows
  | disassemble =>
      have hlines := h.disassemble_ne_none hshort hload filename false s.baseAddr
      simpa using hlines
  | disassembleAll =>
      have hlines := h.disassemble_ne_none hshort hload filename true s.baseAddr
      simpa using hlines

end Converted

/-! ### The commands -/

/-- What a run with `-c` has done if it succeeds. -/
theorem mainRun_convert {w : World} {argv0 : List Char} {args : List Arg}
    {filenames : List (List Char)} (hmode : (argsSummary args).settings.opmode = .convert)
    (hstatus : (mainRun w argv0 args filenames).status = some 0) :
    ∃ input image file, filenames = [input] ∧ w.files input = some image ∧
      novlConvFile image (argsSummary args).settings.baseAddr = .ended (.success file) ∧
      (argsSummary args).settings.flags 'o' = true ∧
      (mainRun w argv0 args filenames).written =
        some ((argsSummary args).oval.getD [], .left file) := by
  obtain ⟨haccepted, -, hsucceeds, hprintable⟩ :=
    (mainRun_status_zero_iff w argv0 args filenames).mp hstatus
  rw [Succeeds, hmode] at hsucceeds
  obtain ⟨input, image, file, rfl, ho, hA, himage, hwritable, hother, hend⟩ := hsucceeds
  refine ⟨input, image, file, rfl, himage, hend, ho, ?_⟩
  obtain ⟨f, -, -, hopened, -⟩ := @exists_of_novlConvFile_success [] _ _ _ hend
  rw [mainRun, Run.printed_of_printable hprintable, mainCalls_of_accepted haccepted,
    Run.written_after, runMode]
  simp only [hmode, Run.written_after]
  rw [if_neg (not_not.mpr rfl), convertElf]
  simp only [ho, hA, himage, Bool.true_eq_false, if_false]
  rw [novlConvRun, hopened]
  simp only [hwritable, hend, Bool.true_eq_false, if_false, if_neg hother]
  rfl

/-- The output file is the argument of `-o`. -/
theorem exists_oval_of_flag {args : List Arg}
    (h : (argsSummary args).settings.flags 'o' = true) :
    ∃ out, (argsSummary args).oval = some out := by
  rw [← Option.ne_none_iff_exists']
  intro hnone
  obtain ⟨arg, harg, ho⟩ := List.any_eq_true.mp h
  have hnot := lastOf_eq_none_iff.mp hnone arg harg
  rw [outputOf, if_pos (of_decide_eq_true ho)] at hnot
  cases hnot

/-- A run with `-c` that succeeds leaves the conversion of its input at the
path of `-o`; and every command that reads overlays succeeds on that file,
with whatever options, as long as its header can be printed. The listing of
relocations needs every entry inside its section, and none for `.bss`. -/
theorem mainRun_converted {w : World} {argv0 : List Char} {args : List Arg}
    {filenames : List (List Char)} (hmode : (argsSummary args).settings.opmode = .convert)
    (hstatus : (mainRun w argv0 args filenames).status = some 0) :
    ∃ input image f c out, filenames = [input] ∧ w.files input = some image ∧
      elfCook image = .ok f ∧ convert f.elf (argsSummary args).settings.baseAddr = .ok c ∧
      (argsSummary args).oval = some out ∧
      (mainRun w argv0 args filenames).written = some (out, .left c.file) ∧
      (c.file.length < 2 ^ 31 → ∀ (w' : World) (argv0' : List Char) (args' : List Arg),
        w'.files out = some c.file → Accepted args' →
        (argsSummary args').settings.opmode ≠ .none →
        (argsSummary args').settings.opmode ≠ .convert →
        ((argsSummary args').settings.opmode = .listRelocations →
          (∀ b ∈ relBlocks f.elf.sections, b.id ≠ .bss) ∧
            InsideSections c.globals (relBlocks f.elf.sections)) →
        (∀ m ∈ headerMessages w' (argsSummary args'), m.Printable) →
        (mainRun w' argv0' args' [out]).status = some 0) := by
  obtain ⟨input, image, file, hnames, himage, hend, ho, hwritten⟩ := mainRun_convert hmode hstatus
  obtain ⟨f, c, hcook, -, hconvert, rfl, -⟩ := @exists_of_novlConvFile_success [] _ _ _ hend
  obtain ⟨out, hout⟩ := exists_oval_of_flag ho
  rw [hout] at hwritten
  refine ⟨input, image, f, c, out, hnames, himage, hcook, hconvert, hout, hwritten, ?_⟩
  intro hshort w' argv0' args' hfile haccepted hnone hconv hlist hprintable
  have h := conversion_of_convert hconvert
  have hload := h.ovlLoad_eq hshort
  obtain ⟨text, htext⟩ := Option.ne_none_iff_exists'.mp
    (h.overlayText_ne_none hshort hload hnone hconv hlist out)
  have hprints : ∀ filename ∈ [out],
      ∃ text, Prints w' (argsSummary args').settings filename text := by
    intro filename hmem
    obtain rfl := List.mem_singleton.mp hmem
    exact ⟨text, c.file, _, hfile, hload, htext⟩
  obtain ⟨mesg, hmesg, hrun⟩ := exists_runMode_eq hnone hconv
  have hdone := status_doFiles_eq_zero_iff.mpr hprints
  -- Such a run says only what is said in front of the files.
  rw [mainRun, Run.status_printed_iff, mainCalls_of_accepted haccepted, hrun]
  refine ⟨hdone, ?_⟩
  simp only [Run.messages_after, messages_doFiles_of_status hdone, List.append_nil]
  refine List.forall_mem_append.mpr ⟨hprintable, ?_⟩
  rw [List.forall_mem_singleton]
  exact MesgCall.printable_of_text rfl hmesg

/-- An ELF file, and no other one. -/
def plainWorld : World where
  files name := if name = "in.elf".toList then some (plainSample.encode .class32 .big) else none
  writable _ := true
  strerror := "No such file or directory".toList
  title := "nOVL".toList
  built := []

theorem plainWorld_converted :
    let args := [('c', []), ('A', "80800000".toList), ('o', "out.ovl".toList)]
    ∃ file, (mainRun plainWorld "nOVL".toList args ["in.elf".toList]).written =
        some ("out.ovl".toList, .left file) ∧
      (mainRun { plainWorld with files := fun _ => some file } "nOVL".toList
        [('D', []), ('g', [])] ["out.ovl".toList]).status = some 0 := by
  intro args
  have hstatus : (mainRun plainWorld "nOVL".toList args ["in.elf".toList]).status = some 0 := by
    decide +kernel
  have hlength : ((mainRun plainWorld "nOVL".toList args ["in.elf".toList]).written.map
      fun written => match written.2 with
        | .left file => file.length
        | _ => 0) = some 48 := by
    decide +kernel
  obtain ⟨input, image, f, c, out, -, -, -, -, hout, hwritten, hruns⟩ :=
    mainRun_converted (by decide) hstatus
  obtain rfl : "out.ovl".toList = out := Option.some.inj hout
  rw [hwritten] at hlength
  have hlength : c.file.length = 48 := Option.some.inj hlength
  have hshort : c.file.length < 2 ^ 31 := by omega
  have haccepted : Accepted [('D', []), ('g', [])] :=
    accepted_concat.mpr ⟨accepted_concat.mpr ⟨accepted_nil, by decide, by decide⟩,
      by decide, by decide⟩
  have hheader : ∀ m ∈ headerMessages plainWorld (argsSummary [('D', []), ('g', [])]),
      m.Printable := by
    decide +kernel
  exact ⟨c.file, hwritten, hruns hshort _ _ _ rfl haccepted (by decide) (by decide)
    (fun h => absurd h (by decide)) hheader⟩

end Novl
