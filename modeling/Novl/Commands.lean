import Novl.FileMessages

/-!
The commands, `main` and what it calls in `main.c`.

Options come first, and then the files one after the other. Each mode that
reads overlays prints something for each file and stops at the first one
that it cannot load. So the files of one command are treated as by a
command for each of them, up to the first that fails. A conversion takes
one file, and needs `-o` and `-A`.

A message can be undefined, and then the whole run is. Runs are first taken
as if all of their messages could be printed.
-/

namespace Novl

open FallibleRun

/-- What a run finds: the files that can be opened with what they hold, the
paths that can be opened for writing, `strerror(errno)` for the others, and
the texts of the header. Different paths are different files. -/
structure World where
  files : List Char → Option (List Byte)
  writable : List Char → Bool
  strerror : List Char
  title : List Char
  built : List Char

/-- What a run does: the calls for messages, what is printed to `stdout`, a
file that a conversion leaves, and the exit status. There is no status
where the behaviour is undefined, or left open. -/
structure Run where
  messages : List MesgCall
  output : List Char
  written : Option (List Char × OutputState)
  status : Option ℕ

/-- A run that ends with `EXIT_FAILURE`. -/
def Run.failure (messages : List MesgCall) : Run := ⟨messages, [], none, some 1⟩

/-- A run that the code does not define, or whose end is left open. -/
def Run.undefined : Run := ⟨[], [], none, none⟩

/-- A run whose messages are printed. -/
def Run.printed (run : Run) : Run :=
  if ∀ m ∈ run.messages, m.Printable then run else .undefined

/-- Messages that come before the rest of a run. -/
def Run.after (messages : List MesgCall) (run : Run) : Run :=
  { run with messages := messages ++ run.messages }

/-! ### One file -/

/-- What is done with one file. -/
inductive FileEnd
  | printed (text : List Char)
  | failed (errmesg : List Char)
  | undefined

/-- `ovl_load`, and what is printed for the overlay. -/
def withOverlay (w : World) (filename : List Char) (body : Ovl → Option (List Char)) : FileEnd :=
  match w.files filename with
  | none => .failed ("fopen(): ".toList ++ w.strerror)
  | some bytes =>
    match ovlLoad bytes with
    | .error .mallocFailed => .failed ("malloc(): ".toList ++ w.strerror)
    | .error .notAnOverlay => .failed "not an overlay file".toList
    | .error .undefinedBehaviour => .undefined
    | .ok ovl =>
      match body ovl with
      | none => .undefined
      | some text => .printed text

/-- What each mode prints for an overlay. -/
def overlayText (s : Settings) (filename : List Char) (ovl : Ovl) : Option (List Char) :=
  match s.opmode with
  | .listSections => some (listSectionsOutput filename (s.flags 'h') s.baseAddr ovl)
  | .listRelocations => listRelocationsOutput filename s.baseAddr ovl
  | .disassemble =>
    (disassemble filename false s.baseAddr ovl).map
      (List.flatMap (DisassemblyLine.print (s.flags 'V')))
  | .disassembleAll =>
    (disassemble filename true s.baseAddr ovl).map
      (List.flatMap (DisassemblyLine.print (s.flags 'V')))
  | _ => none

/-- `list_sections`, `list_relocations` and `disassemble`. -/
def doFile (w : World) (s : Settings) (filename : List Char) : FileEnd :=
  withOverlay w filename (overlayText s filename)

/-- The loop over the files. -/
def doFiles (w : World) (s : Settings) : List (List Char) → Run
  | [] => ⟨[], [], none, some 0⟩
  | filename :: rest =>
    match doFile w s filename with
    | .printed text =>
      let run := doFiles w s rest
      { run with output := text ++ run.output }
    | .failed errmesg =>
      .failure [⟨s, .error, some ("Couldn't load overlay file \"".toList ++ filename ++
        "\": ".toList ++ errmesg)⟩]
    | .undefined => Run.undefined

/-! ### A conversion -/

/-- A text, if it is defined. -/
def MesgText.text? : MesgText → Option (List Char)
  | .known text => some text
  | _ => none

/-- A message of the converter. -/
def ConvMesg.call (s : Settings) (m : ConvMesg) : MesgCall := ⟨s, m.kind.mesgKind, m.text.text?⟩

/-- How a conversion to the path `out` ends, with what it has said. -/
def conversionRun (s : Settings) (out : List Char) (messages : List MesgCall) : FileOutcome → Run
  | .getehdrFailed _ => .failure messages
  | .ended (.failure _ output) => ⟨messages, [], some (out, output), some 1⟩
  | .ended .undefinedBehaviour => .undefined
  | .ended (.success file) =>
    ⟨messages ++ [⟨s, .notice, some "Finished conversion.".toList⟩], [], some (out, .left file),
      some 0⟩
  | .overlapping => .undefined

/-- `novl_conv` and the message behind it. The output is emptied as soon as
it is opened, and what libelf reads of an input at the same path is left
open. -/
def novlConvRun (w : World) (s : Settings) (filename out : List Char) (image : List Byte) : Run :=
  let run := conversionRun s out
    ((novlConvFileMesgs filename image s.baseAddr).map (ConvMesg.call s))
    (novlConvFile image s.baseAddr)
  match openedFile? image with
  | none => run
  | some f =>
    if w.writable out = false then
      .failure ((cantOpenMesgs filename out w.strerror f s.baseAddr).map (ConvMesg.call s))
    else if out = filename then .undefined
    else run

/-- `convert_elf`. -/
def convertElf (w : World) (st : ArgsState) (filename : List Char) : Run :=
  let s := st.settings
  if s.flags 'o' = false then
    .failure [⟨s, .error, some "Please specify an output file with -o.".toList⟩]
  else if s.flags 'A' = false then
    .failure [⟨s, .error, some "Please specify a target address with -A.".toList⟩]
  else
    match w.files filename with
    | none => .failure [⟨s, .error, some ("open() failed: ".toList ++ w.strerror)⟩]
    | some image => novlConvRun w s filename (st.oval.getD []) image

/-! ### The program -/

/-- The header, and a message for each of the flags. -/
def headerMessages (w : World) (st : ArgsState) : List MesgCall :=
  let s := st.settings
  [⟨s, .notice, some w.title⟩, ⟨s, .notice, some ("Built: ".toList ++ w.built)⟩] ++
    (if s.flags 'A' then
      [⟨s, .debug, some ("Base address set to 0x".toList ++
        hexPrint upperDigits 8 s.baseAddr.toNat ++ ['.'])⟩] else []) ++
    (if s.flags 'o' then
      [⟨s, .debug, some ("Output file set to \"".toList ++ st.oval.getD [] ++ "\".".toList)⟩]
      else []) ++
    (if s.flags 'h' then [⟨s, .debug, some "Printing human-readable addresses.".toList⟩] else []) ++
    (if s.flags 'V' then
      [⟨s, .debug, some "Printing raw instructions next to disassembly.".toList⟩] else []) ++
    if s.flags 'g' then [⟨s, .debug, some "Colors disabled.".toList⟩] else []

/-- The `switch` over the modes. -/
def runMode (w : World) (argv0 : List Char) (st : ArgsState) (filename : List Char)
    (rest : List (List Char)) : Run :=
  let s := st.settings
  match s.opmode with
  | .listRelocations =>
    (doFiles w s (filename :: rest)).after [⟨s, .mesg, some "Listing overlay relocations.".toList⟩]
  | .listSections =>
    (doFiles w s (filename :: rest)).after
      [⟨s, .mesg, some "Listing overlay section details.".toList⟩]
  | .convert =>
    (if rest ≠ [] then
      Run.failure [⟨s, .error, some "ELF -> OVL conversion only takes one file argument.".toList⟩]
    else convertElf w st filename).after [⟨s, .mesg, some "Converting ELF file to overlay.".toList⟩]
  | .disassemble =>
    (doFiles w s (filename :: rest)).after
      [⟨s, .mesg, some "Disassembling the .text section in overlay file(s).".toList⟩]
  | .disassembleAll =>
    (doFiles w s (filename :: rest)).after
      [⟨s, .mesg, some "Disassembling every section in overlay file(s).".toList⟩]
  | .none => .failure (showUsage argv0 s)

/-- `main`, as if all of its messages could be printed: `args` are the
options that `getopt` returns, and `filenames` the arguments behind them. -/
def mainCalls (w : World) (argv0 : List Char) (args : List Arg) (filenames : List (List Char)) :
    Run :=
  match argsProcess argv0 args with
  | .error messages => .failure messages
  | .ok st =>
    (match filenames with
      | [] =>
        Run.failure (⟨st.settings, .error,
          some "Please provide at least one filename as an argument.".toList⟩ ::
            showUsage argv0 st.settings)
      | filename :: rest => runMode w argv0 st filename rest).after (headerMessages w st)

/-- `main`. What `getopt` itself prints is not among the messages. -/
def mainRun (w : World) (argv0 : List Char) (args : List Arg) (filenames : List (List Char)) :
    Run :=
  (mainCalls w argv0 args filenames).printed

@[simp] theorem Run.status_after (messages : List MesgCall) (run : Run) :
    (run.after messages).status = run.status := rfl

@[simp] theorem Run.output_after (messages : List MesgCall) (run : Run) :
    (run.after messages).output = run.output := rfl

@[simp] theorem Run.written_after (messages : List MesgCall) (run : Run) :
    (run.after messages).written = run.written := rfl

@[simp] theorem Run.messages_after (messages : List MesgCall) (run : Run) :
    (run.after messages).messages = messages ++ run.messages := rfl

@[simp] theorem Run.status_failure (messages : List MesgCall) :
    (Run.failure messages).status = some 1 := rfl

@[simp] theorem Run.output_failure (messages : List MesgCall) :
    (Run.failure messages).output = [] := rfl

@[simp] theorem Run.status_undefined : Run.undefined.status = none := rfl

@[simp] theorem Run.output_undefined : Run.undefined.output = [] := rfl

@[simp] theorem Run.messages_undefined : Run.undefined.messages = [] := rfl

@[simp] theorem Run.messages_failure (messages : List MesgCall) :
    (Run.failure messages).messages = messages := rfl

/-! ### Printing -/

theorem Run.printed_of_printable {run : Run} (h : ∀ m ∈ run.messages, m.Printable) :
    run.printed = run := if_pos h

theorem Run.printed_of_not {run : Run} (h : ¬ ∀ m ∈ run.messages, m.Printable) :
    run.printed = .undefined := if_neg h

theorem Run.status_printed_iff {run : Run} {n : ℕ} :
    run.printed.status = some n ↔ run.status = some n ∧ ∀ m ∈ run.messages, m.Printable := by
  by_cases h : ∀ m ∈ run.messages, m.Printable
  · rw [Run.printed_of_printable h]
    exact (and_iff_left h).symm
  · rw [Run.printed_of_not h]
    simp [h]

/-! ### Many files -/

section Files

variable {w : World} {s : Settings}

/-- A file that something is printed for. -/
def Prints (w : World) (s : Settings) (filename text : List Char) : Prop :=
  ∃ bytes ovl, w.files filename = some bytes ∧ ovlLoad bytes = .ok ovl ∧
    overlayText s filename ovl = some text

theorem doFile_eq_printed_iff {filename text : List Char} :
    doFile w s filename = .printed text ↔ Prints w s filename text := by
  rw [doFile, withOverlay]
  constructor
  · intro h
    split at h
    · cases h
    rename_i bytes hbytes
    split at h
    · cases h
    · cases h
    · cases h
    rename_i ovl hload
    split at h
    · cases h
    rename_i text' htext
    obtain rfl := FileEnd.printed.inj h
    exact ⟨bytes, ovl, hbytes, hload, htext⟩
  · rintro ⟨bytes, ovl, hbytes, hload, htext⟩
    simp only [hbytes, hload, htext]

/-- The loop gets to its end exactly if something is printed for each
file. -/
theorem status_doFiles_eq_zero_iff {filenames : List (List Char)} :
    (doFiles w s filenames).status = some 0 ↔
      ∀ filename ∈ filenames, ∃ text, Prints w s filename text := by
  simp only [← doFile_eq_printed_iff]
  induction filenames with
  | nil => simp [doFiles]
  | cons filename rest ih =>
      rw [doFiles, List.forall_mem_cons, ← ih]
      cases hfile : doFile w s filename with
      | printed text => simp
      | failed errmesg => simp
      | undefined => simp

/-- The loop says something only where it stops. -/
theorem messages_doFiles_of_status {filenames : List (List Char)}
    (h : (doFiles w s filenames).status = some 0) : (doFiles w s filenames).messages = [] := by
  induction filenames with
  | nil => rfl
  | cons filename rest ih =>
      rw [doFiles] at h ⊢
      cases hfile : doFile w s filename with
      | printed text =>
          rw [hfile] at h
          exact ih h
      | failed errmesg => simp [hfile] at h
      | undefined => rfl

theorem doFiles_append (filenames filenames' : List (List Char)) :
    (doFiles w s (filenames ++ filenames')).status =
        (if (doFiles w s filenames).status = some 0 then (doFiles w s filenames').status
          else (doFiles w s filenames).status) ∧
      (doFiles w s (filenames ++ filenames')).messages =
        (if (doFiles w s filenames).status = some 0 then (doFiles w s filenames').messages
          else (doFiles w s filenames).messages) ∧
      (doFiles w s (filenames ++ filenames')).output =
        if (doFiles w s filenames).status = some 0 then
          (doFiles w s filenames).output ++ (doFiles w s filenames').output
        else (doFiles w s filenames).output := by
  induction filenames with
  | nil => simp [doFiles]
  | cons filename rest ih =>
      rw [List.cons_append, doFiles, doFiles]
      cases hfile : doFile w s filename with
      | printed text =>
          obtain ⟨hstatus, hmessages, houtput⟩ := ih
          simp only [hstatus, hmessages, houtput]
          split_ifs <;> simp
      | failed errmesg => simp
      | undefined => simp

end Files

/-! ### The exit status -/

/-- What has to be the case for a run to succeed, once its options are
processed. -/
def Succeeds (w : World) (st : ArgsState) (filenames : List (List Char)) : Prop :=
  match st.settings.opmode with
  | .none => False
  | .convert => ∃ filename image file, filenames = [filename] ∧ st.settings.flags 'o' = true ∧
      st.settings.flags 'A' = true ∧ w.files filename = some image ∧
      w.writable (st.oval.getD []) = true ∧ st.oval.getD [] ≠ filename ∧
      novlConvFile image st.settings.baseAddr = .ended (.success file)
  | _ => ∀ filename ∈ filenames, ∃ text, Prints w st.settings filename text

theorem status_conversionRun_eq_zero_iff {s : Settings} {out : List Char}
    {messages : List MesgCall} {outcome : FileOutcome} :
    (conversionRun s out messages outcome).status = some 0 ↔
      ∃ file, outcome = .ended (.success file) := by
  cases outcome with
  | getehdrFailed e => simp [conversionRun]
  | ended outcome => cases outcome <;> simp [conversionRun]
  | overlapping => simp [conversionRun]

theorem status_novlConvRun_eq_zero_iff {w : World} {s : Settings} {filename out : List Char}
    {image : List Byte} :
    (novlConvRun w s filename out image).status = some 0 ↔
      w.writable out = true ∧ out ≠ filename ∧
        ∃ file, novlConvFile image s.baseAddr = .ended (.success file) := by
  have hopened : (∃ file, novlConvFile image s.baseAddr = .ended (.success file)) →
      ∃ f, openedFile? image = some f := by
    rintro ⟨file, hend⟩
    obtain ⟨f, -, -, hf, -⟩ := @exists_of_novlConvFile_success [] _ _ _ hend
    exact ⟨f, hf⟩
  rw [novlConvRun]
  cases hf : openedFile? image with
  | none =>
      simp only [status_conversionRun_eq_zero_iff]
      have hnone : ¬ ∃ file, novlConvFile image s.baseAddr = .ended (.success file) := by
        intro hend
        obtain ⟨f, hsome⟩ := hopened hend
        rw [hf] at hsome
        cases hsome
      simp [hnone]
  | some f =>
      simp only
      split_ifs with hwritable hsame
      · simp [hwritable]
      · simp [hsame]
      · rw [status_conversionRun_eq_zero_iff]
        rw [Bool.not_eq_false] at hwritable
        simp [hwritable, hsame]

theorem status_convertElf_eq_zero_iff {w : World} {st : ArgsState} {filename : List Char} :
    (convertElf w st filename).status = some 0 ↔
      st.settings.flags 'o' = true ∧ st.settings.flags 'A' = true ∧
        ∃ image file, w.files filename = some image ∧ w.writable (st.oval.getD []) = true ∧
          st.oval.getD [] ≠ filename ∧
          novlConvFile image st.settings.baseAddr = .ended (.success file) := by
  rw [convertElf]
  split_ifs with ho hA
  · simp [ho]
  · simp [hA]
  rw [Bool.not_eq_false] at ho hA
  cases himage : w.files filename with
  | none => simp
  | some image =>
      simp only [ho, hA, true_and, Option.some.injEq, exists_eq_left', exists_and_left]
      exact status_novlConvRun_eq_zero_iff

theorem status_runMode_eq_zero_iff {w : World} {argv0 : List Char} {st : ArgsState}
    {filename : List Char} {rest : List (List Char)} :
    (runMode w argv0 st filename rest).status = some 0 ↔ Succeeds w st (filename :: rest) := by
  rw [runMode, Succeeds]
  cases st.settings.opmode with
  | none => simp
  | convert =>
      simp only [Run.status_after]
      by_cases hrest : rest = []
      · subst hrest
        rw [if_neg (by simp), status_convertElf_eq_zero_iff]
        simp
      · rw [if_pos hrest]
        simp [hrest]
  | listSections | listRelocations | disassemble | disassembleAll =>
      rw [Run.status_after, status_doFiles_eq_zero_iff]

theorem status_mainCalls_eq_zero_iff {w : World} {argv0 : List Char} {args : List Arg}
    {filenames : List (List Char)} :
    (mainCalls w argv0 args filenames).status = some 0 ↔
      Accepted args ∧ filenames ≠ [] ∧ Succeeds w (argsSummary args) filenames := by
  rw [mainCalls]
  cases hargs : argsProcess argv0 args with
  | error messages =>
      have hrefused : ¬ Accepted args := fun h => by
        rw [(argsProcess_ok_iff argv0 args _).mpr ⟨h, rfl⟩] at hargs
        cases hargs
      simp [hrefused]
  | ok st =>
      obtain ⟨haccepted, rfl⟩ := (argsProcess_ok_iff argv0 args st).mp hargs
      cases filenames with
      | nil => simp
      | cons filename rest =>
          simp only [Run.status_after, status_runMode_eq_zero_iff]
          simp [haccepted]

/-- A run ends with `EXIT_SUCCESS` exactly if its options are accepted, it
has a mode and a file, its mode does what it has to with every file, and
all of its messages can be printed. -/
theorem mainRun_status_zero_iff (w : World) (argv0 : List Char) (args : List Arg)
    (filenames : List (List Char)) :
    (mainRun w argv0 args filenames).status = some 0 ↔
      Accepted args ∧ filenames ≠ [] ∧ Succeeds w (argsSummary args) filenames ∧
        ∀ m ∈ (mainCalls w argv0 args filenames).messages, m.Printable := by
  rw [mainRun, Run.status_printed_iff, status_mainCalls_eq_zero_iff, and_assoc, and_assoc]

/-! ### Many files in one run -/

/-- With options that are not accepted the files do not matter. -/
theorem mainCalls_of_refused {args : List Arg} (hrefused : ¬ Accepted args) (w : World)
    (argv0 : List Char) : ∃ messages, argsProcess argv0 args = .error messages ∧
      ∀ filenames, mainCalls w argv0 args filenames = .failure messages := by
  cases hargs : argsProcess argv0 args with
  | error messages => exact ⟨messages, rfl, fun filenames => by rw [mainCalls, hargs]⟩
  | ok st => exact absurd ((argsProcess_ok_iff argv0 args st).mp hargs).1 hrefused

/-- The messages about them can be printed. -/
theorem mainRun_of_refused {args : List Arg} (hrefused : ¬ Accepted args) (w : World)
    (argv0 : List Char) : ∃ messages, argsProcess argv0 args = .error messages ∧
      ∀ filenames, mainRun w argv0 args filenames = .failure messages := by
  obtain ⟨messages, hargs, hrun⟩ := mainCalls_of_refused hrefused w argv0
  obtain ⟨pre, arg, post, -, -, -, hsaid, -⟩ := argsProcess_error hargs
  refine ⟨messages, hargs, fun filenames => ?_⟩
  rw [mainRun, hrun, Run.printed_of_printable fun m hm => (hsaid m hm).2]

theorem mainCalls_of_accepted {w : World} {argv0 : List Char} {args : List Arg}
    (haccepted : Accepted args) (filename : List Char) (rest : List (List Char)) :
    mainCalls w argv0 args (filename :: rest) =
      (runMode w argv0 (argsSummary args) filename rest).after
        (headerMessages w (argsSummary args)) := by
  rw [mainCalls, (argsProcess_ok_iff argv0 args _).mpr ⟨haccepted, rfl⟩]

/-- The modes that read overlays. -/
theorem exists_runMode_eq {st : ArgsState} (hnone : st.settings.opmode ≠ .none)
    (hconvert : st.settings.opmode ≠ .convert) :
    ∃ mesg, escape ∉ mesg.map ascii ∧
      ∀ (w : World) (argv0 filename : List Char) (rest : List (List Char)),
        runMode w argv0 st filename rest =
          (doFiles w st.settings (filename :: rest)).after [⟨st.settings, .mesg, some mesg⟩] := by
  simp only [runMode]
  cases hop : st.settings.opmode with
  | none => exact absurd hop hnone
  | convert => exact absurd hop hconvert
  | listSections | listRelocations | disassemble | disassembleAll =>
      exact ⟨_, by decide, fun _ _ _ _ => rfl⟩

/-- Except in a conversion, a run on several files says what the run on the
first ones says if that stops, and else what the run on the other ones
says. -/
theorem mainCalls_append (w : World) (argv0 : List Char) (args : List Arg)
    (hmode : (argsSummary args).settings.opmode ≠ .convert)
    {filenames filenames' : List (List Char)} (hne : filenames ≠ []) (hne' : filenames' ≠ []) :
    let run := mainCalls w argv0 args
    (run (filenames ++ filenames')).status =
        (if (run filenames).status = some 0 then (run filenames').status
          else (run filenames).status) ∧
      (run (filenames ++ filenames')).messages =
        (if (run filenames).status = some 0 then (run filenames').messages
          else (run filenames).messages) ∧
      (run (filenames ++ filenames')).output =
        if (run filenames).status = some 0 then
          (run filenames).output ++ (run filenames').output
        else (run filenames).output := by
  obtain ⟨filename, rest, rfl⟩ := List.exists_cons_of_ne_nil hne
  obtain ⟨filename', rest', rfl⟩ := List.exists_cons_of_ne_nil hne'
  intro run
  by_cases haccepted : Accepted args
  · rw [List.cons_append]
    simp only [run, mainCalls_of_accepted haccepted, Run.status_after, Run.output_after,
      Run.messages_after]
    by_cases hnone : (argsSummary args).settings.opmode = .none
    · simp [runMode, hnone]
    · obtain ⟨mesg, -, hrun⟩ := exists_runMode_eq hnone hmode
      obtain ⟨hstatus, hmessages, houtput⟩ := doFiles_append (w := w)
        (s := (argsSummary args).settings) (filename :: rest) (filename' :: rest')
      rw [List.cons_append] at hstatus hmessages houtput
      simp only [hrun, Run.status_after, Run.output_after, Run.messages_after]
      refine ⟨hstatus, ?_, houtput⟩
      rw [hmessages]
      split_ifs <;> rfl
  · obtain ⟨messages, -, hrun⟩ := mainCalls_of_refused haccepted w argv0
    simp [run, hrun]

/-- What a run without a file that fails says is part of what any other run
with the options says. -/
theorem messages_subset_of_status {w : World} {argv0 : List Char} {args : List Arg}
    (hmode : (argsSummary args).settings.opmode ≠ .convert)
    {filenames filenames' : List (List Char)} (hne : filenames ≠ []) (hne' : filenames' ≠ [])
    (hstatus : (mainCalls w argv0 args filenames).status = some 0) :
    ∀ m ∈ (mainCalls w argv0 args filenames).messages,
      m ∈ (mainCalls w argv0 args filenames').messages := by
  obtain ⟨filename, rest, rfl⟩ := List.exists_cons_of_ne_nil hne
  obtain ⟨filename', rest', rfl⟩ := List.exists_cons_of_ne_nil hne'
  have haccepted := (status_mainCalls_eq_zero_iff.mp hstatus).1
  have hnone : (argsSummary args).settings.opmode ≠ .none := by
    intro hop
    have hsucceeds := (status_mainCalls_eq_zero_iff.mp hstatus).2.2
    rw [Succeeds, hop] at hsucceeds
    exact hsucceeds
  obtain ⟨mesg, -, hrun⟩ := exists_runMode_eq hnone hmode
  simp only [mainCalls_of_accepted haccepted, hrun, Run.status_after] at hstatus
  simp only [mainCalls_of_accepted haccepted, hrun, Run.messages_after,
    messages_doFiles_of_status hstatus, List.append_nil]
  intro m hm
  exact (List.mem_append.mp hm).elim (fun hm => List.mem_append_left _ hm)
    fun hm => List.mem_append_right _ (List.mem_append_left _ hm)

/-- Except in a conversion, a run on several files has the status of the run
on the first ones if that fails, and else that of the run on the other ones;
and if it has one, it prints what the runs on the first and on the other
ones print, up to the first file that fails. -/
theorem mainRun_append (w : World) (argv0 : List Char) (args : List Arg)
    (hmode : (argsSummary args).settings.opmode ≠ .convert)
    {filenames filenames' : List (List Char)} (hne : filenames ≠ []) (hne' : filenames' ≠ []) :
    let run := mainRun w argv0 args
    (run (filenames ++ filenames')).status =
        (if (run filenames).status = some 0 then (run filenames').status
          else (run filenames).status) ∧
      ((run (filenames ++ filenames')).status ≠ none →
        (run (filenames ++ filenames')).output =
          if (run filenames).status = some 0 then
            (run filenames).output ++ (run filenames').output
          else (run filenames).output) := by
  intro run
  obtain ⟨hstatus, hmessages, houtput⟩ := mainCalls_append w argv0 args hmode hne hne'
  simp only [run, mainRun]
  by_cases hfirst : (mainCalls w argv0 args filenames).status = some 0
  · simp only [hfirst, if_true] at hstatus hmessages houtput
    -- The run on the first files says nothing that the one on the others does not say.
    have hsubset := messages_subset_of_status hmode hne hne' hfirst
    by_cases hprintable : ∀ m ∈ (mainCalls w argv0 args filenames').messages, m.Printable
    · have hprintable' : ∀ m ∈ (mainCalls w argv0 args filenames).messages, m.Printable :=
        fun m hm => hprintable m (hsubset m hm)
      rw [Run.printed_of_printable (hmessages ▸ hprintable), Run.printed_of_printable hprintable,
        Run.printed_of_printable hprintable', if_pos hfirst, if_pos hfirst]
      exact ⟨hstatus, fun _ => houtput⟩
    · rw [Run.printed_of_not (hmessages ▸ hprintable), Run.printed_of_not hprintable]
      refine ⟨?_, fun h => absurd rfl h⟩
      by_cases hprintable' : ∀ m ∈ (mainCalls w argv0 args filenames).messages, m.Printable
      · rw [Run.printed_of_printable hprintable', if_pos hfirst]
      · rw [Run.printed_of_not hprintable']
        rfl
  · simp only [hfirst, if_false] at hstatus hmessages houtput
    by_cases hprintable : ∀ m ∈ (mainCalls w argv0 args filenames).messages, m.Printable
    · rw [Run.printed_of_printable (hmessages ▸ hprintable), Run.printed_of_printable hprintable,
        if_neg hfirst, if_neg hfirst]
      exact ⟨hstatus, fun _ => houtput⟩
    · rw [Run.printed_of_not (hmessages ▸ hprintable), Run.printed_of_not hprintable]
      exact ⟨rfl, fun h => absurd rfl h⟩

/-- One file, under two names. -/
def twoNames : World where
  files name := if name = "a.ovl".toList ∨ name = "b.ovl".toList then some pointerFile else none
  writable _ := true
  strerror := "No such file or directory".toList
  title := "nOVL".toList
  built := []

theorem twoNames_append :
    let run := mainRun twoNames "nOVL".toList [('l', []), ('h', [])]
    (run ["a.ovl".toList, "b.ovl".toList, "c.ovl".toList]).status = some 1 ∧
      (run ["a.ovl".toList, "b.ovl".toList, "c.ovl".toList]).output =
        (run ["a.ovl".toList, "b.ovl".toList]).output := by
  intro run
  have hboth : (run ["a.ovl".toList, "b.ovl".toList]).status = some 0 := by decide +kernel
  have hmissing : (run ["c.ovl".toList]).status = some 1 ∧ (run ["c.ovl".toList]).output = [] := by
    decide +kernel
  obtain ⟨hstatus, houtput⟩ := mainRun_append twoNames "nOVL".toList [('l', []), ('h', [])]
    (by decide) (List.cons_ne_nil "a.ovl".toList ["b.ovl".toList])
    (List.cons_ne_nil "c.ovl".toList [])
  rw [if_pos hboth] at hstatus houtput
  have hfailed := hstatus.trans hmissing.1
  have hprinted := houtput (by rw [hfailed]; exact Option.some_ne_none 1)
  refine ⟨hfailed, hprinted.trans ?_⟩
  rw [hmissing.2, List.append_nil]

/-! ### Options -/

/-- Neighbouring options that set different things can change places
without a change to what a run prints to `stdout`, to the file it leaves
and to its status. -/
theorem mainRun_swap (w : World) (argv0 : List Char) {a b : Arg} (h : ¬ SameSetting a b)
    (pre post : List Arg) (filenames : List (List Char)) :
    (mainRun w argv0 (pre ++ a :: b :: post) filenames).output =
        (mainRun w argv0 (pre ++ b :: a :: post) filenames).output ∧
      (mainRun w argv0 (pre ++ a :: b :: post) filenames).written =
        (mainRun w argv0 (pre ++ b :: a :: post) filenames).written ∧
      (mainRun w argv0 (pre ++ a :: b :: post) filenames).status =
        (mainRun w argv0 (pre ++ b :: a :: post) filenames).status := by
  have hswap := argsProcess_swap argv0 h pre post
  by_cases haccepted : Accepted (pre ++ a :: b :: post)
  · have hargs := (argsProcess_ok_iff argv0 _ _).mpr ⟨haccepted, rfl⟩
    have hargs' := (hswap _).mp hargs
    rw [mainRun, mainRun, mainCalls, mainCalls, hargs, hargs']
    exact ⟨rfl, rfl, rfl⟩
  · have haccepted' : ¬ Accepted (pre ++ b :: a :: post) := by
      intro h'
      have hargs' := (argsProcess_ok_iff argv0 _ _).mpr ⟨h', rfl⟩
      exact haccepted ((argsProcess_ok_iff argv0 _ _).mp ((hswap _).mpr hargs')).1
    obtain ⟨messages, -, hrun⟩ := mainRun_of_refused haccepted w argv0
    obtain ⟨messages', -, hrun'⟩ := mainRun_of_refused haccepted' w argv0
    rw [hrun, hrun']
    exact ⟨rfl, rfl, rfl⟩

theorem twoNames_swap :
    let run (args : List Arg) := mainRun twoNames "nOVL".toList args ["a.ovl".toList]
    let first := run [('r', []), ('A', "0x80800000".toList), ('s', [])]
    let second := run [('A', "0x80800000".toList), ('r', []), ('s', [])]
    first.output ≠ [] ∧ first.output = second.output ∧ first.written = second.written ∧
      first.status = second.status ∧ second.status = some 0 := by
  intro run first second
  obtain ⟨houtput, hwritten, hstatus⟩ := mainRun_swap twoNames "nOVL".toList
    (a := ('r', [])) (b := ('A', "0x80800000".toList)) (by decide) [] [('s', [])]
    ["a.ovl".toList]
  exact ⟨by decide +kernel, houtput, hwritten, hstatus, by decide +kernel⟩

/-- The base address as the header prints it, given to another `-A` behind
all options, leaves the run as it is. -/
theorem mainRun_printed_address (w : World) (argv0 : List Char) {args : List Arg}
    (hA : ∃ arg ∈ args, arg.1 = 'A') (filenames : List (List Char)) :
    mainRun w argv0 (args ++
        [('A', '0' :: 'x' :: hexPrint upperDigits 8 (argsSummary args).settings.baseAddr.toNat)])
        filenames =
      mainRun w argv0 args filenames := by
  rw [mainRun, mainRun, mainCalls, argsProcess_printed_address argv0 hA, ← mainCalls]

theorem twoNames_printed_address :
    let args : List Arg := [('l', []), ('A', " 80ab0000".toList)]
    mainRun twoNames "nOVL".toList (args ++ [('A', "0x80AB0000".toList)]) ["a.ovl".toList] =
      mainRun twoNames "nOVL".toList args ["a.ovl".toList] := by
  intro args
  have hA : ∃ arg ∈ args, arg.1 = 'A' := ⟨('A', " 80ab0000".toList), by decide, rfl⟩
  have hprinted : "0x80AB0000".toList =
      '0' :: 'x' :: hexPrint upperDigits 8 (argsSummary args).settings.baseAddr.toNat := by
    decide +kernel
  rw [hprinted]
  exact mainRun_printed_address twoNames "nOVL".toList hA ["a.ovl".toList]

/-- `-V` ends every run with a call for an error or for the usage: `getopt`
knows it, and the `switch` does not. Behind an `-s` the call prints
nothing. -/
theorem mainRun_raw_refused (w : World) (argv0 : List Char) {args : List Arg}
    (hV : ∃ arg ∈ args, arg.1 = 'V') (filenames : List (List Char)) :
    ∃ messages, mainRun w argv0 args filenames = .failure messages ∧
      ∃ m ∈ messages, m.kind = .error ∨ m.kind = .usage := by
  have hrefused : ¬ Accepted args := by
    intro haccepted
    obtain ⟨arg, harg, hc⟩ := hV
    have hknown := haccepted.known arg harg
    rw [hc] at hknown
    exact absurd hknown (by decide)
  obtain ⟨messages, hargs, hrun⟩ := mainRun_of_refused hrefused w argv0
  obtain ⟨-, -, -, -, -, -, -, hreports⟩ := argsProcess_error hargs
  exact ⟨messages, hrun filenames, hreports⟩

theorem twoNames_raw_refused :
    ∃ messages, mainRun twoNames "nOVL".toList [('d', []), ('V', [])] ["a.ovl".toList] =
      .failure messages ∧ ∃ m ∈ messages, m.kind = .error ∨ m.kind = .usage :=
  mainRun_raw_refused twoNames "nOVL".toList ⟨('V', []), by decide, rfl⟩ ["a.ovl".toList]

end Novl
