import Novl.Commands

/-!
What a run of the program says to `stderr`.

Every message of a run is called for with one and the same settings, those
that its options have left where the program stopped to process them. So
it can be read off the options whether the messages of a run are silent;
and it can be told from the calls whether it failed.
-/

namespace Novl

open FallibleRun

/-- The program says that something went wrong: an error, or how it is
used. -/
def MesgCall.Reports (m : MesgCall) : Prop := m.kind = .error ∨ m.kind = .usage

/-! ### Runs that fail -/

section Failed

variable {w : World} {s : Settings} {st : ArgsState}

end Failed

/-- What is printed begins with a bracket. -/
theorem mkMesgF_eq_nil_iff {settings : MesgSettings} {v : ℤ} {color : List Byte} {mark : Char}
    {hnul : 0 ∉ mesgSymbol color mark} {text : CString} :
    mkMesgF settings v ⟨mesgSymbol color mark, hnul⟩ text = .ok [] ↔ settings.verbosity < v := by
  rw [mkMesgF]
  by_cases hquiet : v > settings.verbosity
  · rw [if_pos hquiet]
    exact iff_of_true rfl hquiet
  · rw [if_neg hquiet]
    refine iff_of_false (fun h => ?_) hquiet
    cases hcolors : settings.noColors with
    | false =>
        simp only [hcolors] at h
        cases h
    | true =>
        simp only [hcolors, if_true] at h
        rw [mesgStripControlCharacters_eq] at h
        split_ifs at h
        all_goals cases h

theorem MesgCall.print_eq_nil_iff {m : MesgCall} :
    m.print = some [] ↔ m.settings.verbosity < m.kind.level := by
  rw [MesgCall.print]
  cases m.text with
  | none => simp
  | some text =>
      have hprint : m.printText (cText text) = .ok [] ↔ m.settings.verbosity < m.kind.level := by
        rw [MesgCall.printText]
        cases m.kind with
        | notice | mesg | error | debug | debugR | usage => exact mkMesgF_eq_nil_iff
      simp only
      rw [← hprint]
      cases m.printText (cText text) with
      | error stop => simp [Except.toOption]
      | ok bs => simp [Except.toOption]

/-- An `-s` that no `-v` stands behind. -/
def EndsSilent (args : List Arg) : Prop :=
  ∃ pre arg post, args = pre ++ arg :: post ∧ arg.1 = 's' ∧ ∀ a ∈ post, a.1 ≠ 'v'

theorem endsSilent_concat {args : List Arg} {arg : Arg} :
    EndsSilent (args ++ [arg]) ↔ arg.1 = 's' ∨ arg.1 ≠ 'v' ∧ EndsSilent args := by
  constructor
  · rintro ⟨pre, a, post, hsplit, ha, hpost⟩
    rcases List.eq_nil_or_concat post with rfl | ⟨post, last, rfl⟩
    · obtain ⟨-, hlast⟩ := List.append_inj' hsplit rfl
      obtain rfl := (List.cons.inj hlast).1
      exact Or.inl ha
    · have hinit : args ++ [arg] = (pre ++ a :: post) ++ [last] := by simpa using hsplit
      obtain ⟨rfl, hlast⟩ := List.append_inj' hinit rfl
      obtain rfl := (List.cons.inj hlast).1
      exact Or.inr ⟨hpost arg (by simp), pre, a, post, rfl, ha,
        fun b hb => hpost b (by simp [hb])⟩
  · rintro (hs | ⟨hv, pre, a, post, rfl, ha, hpost⟩)
    · exact ⟨args, arg, [], rfl, hs, fun b hb => absurd hb List.not_mem_nil⟩
    · refine ⟨pre, a, post ++ [arg], by simp, ha, List.forall_mem_append.mpr ⟨hpost, ?_⟩⟩
      rwa [List.forall_mem_singleton]

/-- Whether messages are printed at all, read off the options. -/
theorem verbosityOf_neg_iff {args : List Arg} :
    -1 ≤ verbosityOf args ∧ (verbosityOf args < 0 ↔ EndsSilent args) := by
  induction args using List.reverseRecOn with
  | nil =>
      refine ⟨by decide, iff_of_false (by decide) ?_⟩
      rintro ⟨pre, arg, post, hsplit, -⟩
      simp at hsplit
  | append_singleton args arg ih =>
      obtain ⟨hlow, hsilent⟩ := ih
      rw [verbosityOf_concat, endsSilent_concat, ← hsilent]
      split_ifs with hs hv
      · exact ⟨le_refl _, iff_of_true (by decide) (Or.inl hs)⟩
      · refine ⟨by omega, iff_of_false (by omega) ?_⟩
        rintro (h | ⟨h, -⟩)
        · exact hs h
        · exact h hv
      · exact ⟨hlow, by simp [hs, hv]⟩

theorem doFiles_settings {w : World} {s : Settings} {filenames : List (List Char)} :
    ∀ m ∈ (doFiles w s filenames).messages, m.settings = s := by
  induction filenames with
  | nil => simp [doFiles]
  | cons filename rest ih =>
      rw [doFiles]
      cases hfile : doFile w s filename with
      | printed text => exact ih
      | failed errmesg => simp
      | undefined => simp

theorem headerMessages_settings {w : World} {st : ArgsState} :
    ∀ m ∈ headerMessages w st, m.settings = st.settings := by
  intro m hm
  simp only [headerMessages, List.mem_append, List.mem_cons, List.not_mem_nil, or_false,
    List.mem_ite_nil_right] at hm
  rcases hm with ((((((rfl | rfl) | ⟨-, rfl⟩) | ⟨-, rfl⟩) | ⟨-, rfl⟩) | ⟨-, rfl⟩) | ⟨-, rfl⟩) <;>
    rfl

theorem conversionRun_settings {s : Settings} {out : List Char} {mesgs : List ConvMesg}
    {outcome : FileOutcome} :
    ∀ m ∈ (conversionRun s out (mesgs.map (ConvMesg.call s)) outcome).messages, m.settings = s := by
  have hcalls : ∀ m ∈ mesgs.map (ConvMesg.call s), m.settings = s := by
    intro m hm
    obtain ⟨m', -, rfl⟩ := List.mem_map.mp hm
    rfl
  cases outcome with
  | getehdrFailed e => exact hcalls
  | overlapping => simp [conversionRun]
  | ended outcome =>
      cases outcome with
      | failure e o => exact hcalls
      | undefinedBehaviour => simp [conversionRun]
      | success file =>
          refine List.forall_mem_append.mpr ⟨hcalls, ?_⟩
          rw [List.forall_mem_singleton]

theorem convertElf_settings {w : World} {st : ArgsState} {filename : List Char} :
    ∀ m ∈ (convertElf w st filename).messages, m.settings = st.settings := by
  rw [convertElf]
  split_ifs
  · simp
  · simp
  cases w.files filename with
  | none => simp
  | some image =>
      simp only [novlConvRun]
      cases openedFile? image with
      | none => exact conversionRun_settings
      | some f =>
          simp only
          split_ifs
          · simp [ConvMesg.call]
          · simp
          · exact conversionRun_settings

theorem runMode_settings {w : World} {argv0 : List Char} {st : ArgsState} {filename : List Char}
    {rest : List (List Char)} :
    ∀ m ∈ (runMode w argv0 st filename rest).messages, m.settings = st.settings := by
  rw [runMode]
  cases st.settings.opmode with
  | none => simp [showUsage]
  | convert =>
      simp only [Run.messages_after, List.forall_mem_append]
      refine ⟨by simp, ?_⟩
      split_ifs
      · simp
      · exact convertElf_settings
  | listSections | listRelocations | disassemble | disassembleAll =>
      simp only [Run.messages_after, List.forall_mem_append]
      exact ⟨by simp, doFiles_settings⟩

/-- A run whose options are accepted calls for all messages with the settings
they leave. -/
theorem mainCalls_settings {w : World} {argv0 : List Char} {args : List Arg}
    (haccepted : Accepted args) (filenames : List (List Char)) :
    ∀ m ∈ (mainCalls w argv0 args filenames).messages,
      m.settings = (argsSummary args).settings := by
  rw [mainCalls, (argsProcess_ok_iff argv0 args _).mpr ⟨haccepted, rfl⟩]
  refine List.forall_mem_append.mpr ⟨headerMessages_settings, ?_⟩
  cases filenames with
  | nil => simp [showUsage]
  | cons filename rest => exact runMode_settings

theorem title_mem_headerMessages (w : World) (st : ArgsState) :
    ⟨st.settings, .notice, some w.title⟩ ∈ headerMessages w st := by
  refine List.mem_append_left _ (List.mem_append_left _ (List.mem_append_left _ ?_))
  exact List.mem_append_left _ (List.mem_append_left _ List.mem_cons_self)

/-- No message of a run prints anything exactly if an `-s` with no `-v`
behind it stands among the options it takes: all of them, or those in front
of the first that is not accepted. -/
theorem mainRun_silent_iff (w : World) (argv0 : List Char) (args : List Arg)
    (filenames : List (List Char)) :
    ∃ taken rest, args = taken ++ rest ∧ Accepted taken ∧
      (∀ arg rest', rest = arg :: rest' → ¬ Accepted (taken ++ [arg])) ∧
      ((∀ m ∈ (mainCalls w argv0 args filenames).messages, m.print = some []) ↔
        EndsSilent taken) := by
  -- All messages have the verbosity of the options taken, and one has the level of a notice.
  have hiff {taken : List Arg} {messages : List MesgCall}
      (hsettings : ∀ m ∈ messages, m.settings.verbosity = verbosityOf taken)
      (hnotice : ∃ m ∈ messages, m.kind.level = 0) :
      (∀ m ∈ messages, m.print = some []) ↔ EndsSilent taken := by
    rw [← verbosityOf_neg_iff.2]
    constructor
    · intro hsilent
      obtain ⟨m, hm, hlevel⟩ := hnotice
      rw [← hsettings m hm, ← hlevel]
      exact MesgCall.print_eq_nil_iff.mp (hsilent m hm)
    · intro hneg m hm
      rw [MesgCall.print_eq_nil_iff, hsettings m hm]
      refine lt_of_lt_of_le hneg ?_
      cases m.kind <;> decide
  by_cases haccepted : Accepted args
  · refine ⟨args, [], (List.append_nil args).symm, haccepted, fun _ _ h => (by cases h), ?_⟩
    refine hiff (fun m hm => ?_) ⟨⟨(argsSummary args).settings, .notice, some w.title⟩, ?_, rfl⟩
    · rw [mainCalls_settings haccepted filenames m hm]
      rfl
    · rw [mainCalls, (argsProcess_ok_iff argv0 args _).mpr ⟨haccepted, rfl⟩]
      exact List.mem_append_left _ (title_mem_headerMessages w _)
  · obtain ⟨messages, hargs, hrun⟩ := mainCalls_of_refused haccepted w argv0
    obtain ⟨taken, arg, rest, rfl, htaken, hrefused, hsaid, m, hm, hkind⟩ :=
      argsProcess_error hargs
    refine ⟨taken, arg :: rest, rfl, htaken, fun a rest' h => ?_, ?_⟩
    · rwa [← (List.cons.inj h).1]
    · rw [hrun]
      refine hiff (fun m hm => ?_) ⟨m, hm, ?_⟩
      · rw [(hsaid m hm).1]
        rfl
      · rcases hkind with hkind | hkind <;> rw [hkind] <;> rfl

end Novl
