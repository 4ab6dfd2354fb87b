import Mathlib.Data.List.TakeWhile
import Novl.Library.FallibleRun
import Novl.Messages
import Novl.Opprintf

/-!
The options, `args_process` in `main.c`.

The list of options is what `getopt` returns one after the other, each with
its argument. What they leave in the settings is read off the whole list:
for most of them the last one counts or whether there is one, so their
order among each other is of no account. It is for the modes: one of `-c`,
`-l` and `-r` behind any mode is refused. `-V` is among the options of
`getopt`, and not among those of the `switch`.
-/

namespace Novl

open FallibleRun

inductive OpMode
  | none
  | listSections
  | listRelocations
  | convert
  | disassemble
  | disassembleAll
  deriving DecidableEq, Repr

/-- `struct novl_settings_t`, less `human_readable`, which nothing reads. -/
structure Settings where
  opmode : OpMode
  verbosity : ℤ
  noColors : Bool
  baseAddr : Word
  flags : Char → Bool

/-- The settings and `oval` when the program starts. -/
structure ArgsState where
  settings : Settings
  oval : Option (List Char)

def ArgsState.init : ArgsState where
  settings := ⟨.none, 0, false, 0, fun _ => false⟩
  oval := none

/-- An option and its argument, which is empty where it takes none. -/
abbrev Arg := Char × List Char

/-! ### Messages -/

/-- The functions that print to `stderr`; `usage` is the symbol of
`show_usage`. -/
inductive MesgKind
  | notice
  | mesg
  | error
  | debug
  | debugR
  | usage
  deriving DecidableEq, Repr

/-- The verbosity from which on a message is printed. -/
def MesgKind.level : MesgKind → ℤ
  | .notice | .error | .usage => 0
  | .mesg => 1
  | .debug => 2
  | .debugR => 3

/-- A message, with the settings at the time of its call. It has no text if
its arguments are not what its format says. -/
structure MesgCall where
  settings : Settings
  kind : MesgKind
  text : Option (List Char)

def Settings.mesgSettings (s : Settings) : MesgSettings := ⟨s.verbosity, s.noColors⟩

/-- The text of a message in memory. It is made of C strings, so there is no
`NUL` in it. -/
def cText (text : List Char) : CString where
  bytes := (text.map ascii).filter (· ≠ 0)
  noNul := by simp

theorem cText_append (s t : List Char) :
    (cText (s ++ t)).bytes = (cText s).bytes ++ (cText t).bytes := by
  simp [cText]

/-- What a message with the text prints. -/
def MesgCall.printText (m : MesgCall) (text : CString) : Except StripStop (List Byte) :=
  match m.kind with
  | .notice => notice m.settings.mesgSettings text
  | .mesg => mesg m.settings.mesgSettings text
  | .error => error m.settings.mesgSettings text
  | .debug => debug m.settings.mesgSettings text
  | .debugR => debugR m.settings.mesgSettings text
  | .usage => mkMesgF m.settings.mesgSettings 0
      ⟨mesgSymbol [ascii '3', ascii '3'] '?', by decide⟩ text

/-- What a message prints, if that is defined. Without a text it is only
where nothing is printed. -/
def MesgCall.print (m : MesgCall) : Option (List Byte) :=
  match m.text with
  | none => if m.kind.level > m.settings.verbosity then some [] else none
  | some text => (m.printText (cText text)).toOption

/-- It is defined what the message prints. -/
def MesgCall.Printable (m : MesgCall) : Prop := m.print ≠ none

/-- `show_usage`, up to its `exit`. -/
def showUsage (argv0 : List Char) (s : Settings) : List MesgCall :=
  [⟨s, .usage, some "Application prototype:".toList⟩,
    ⟨s, .usage, some (argv0 ++ " [-lrcDd] [-ghVvs] [-A address] [-o filename]".toList)⟩]

theorem MesgCall.printText_ok_iff {m : MesgCall} {text : CString} :
    (∃ bs, m.printText text = .ok bs) ↔ m.settings.verbosity < m.kind.level ∨
      m.settings.noColors = false ∨
        Bracketed.endsInside escape sequenceEnd false text.bytes = false := by
  have hok {v : ℤ} {color : List Byte} {mark : Char} (hnul : 0 ∉ mesgSymbol color mark) :
      (∃ bs, mkMesgF m.settings.mesgSettings v ⟨mesgSymbol color mark, hnul⟩ text = .ok bs) ↔
        m.settings.verbosity < v ∨ m.settings.noColors = false ∨
          Bracketed.endsInside escape sequenceEnd false text.bytes = false :=
    mkMesgF_ok_iff (lastSequenceEnds_mesgSymbol color mark)
  obtain ⟨s, kind, ctext⟩ := m
  cases kind <;> exact hok _

/-- A message with a text is printed unless colours are left out, and a
sequence is still open at the end of the text. -/
theorem MesgCall.printable_iff {m : MesgCall} :
    m.Printable ↔ m.settings.verbosity < m.kind.level ∨ ∃ text ∈ m.text,
      m.settings.noColors = false ∨
        Bracketed.endsInside escape sequenceEnd false (cText text).bytes = false := by
  rw [MesgCall.Printable, MesgCall.print]
  cases htext : m.text with
  | none => simp
  | some text =>
      have hprint := @MesgCall.printText_ok_iff m (cText text)
      simp only [Option.mem_def, Option.some.injEq, exists_eq_left']
      rw [← hprint]
      cases m.printText (cText text) with
      | error stop => simp [Except.toOption]
      | ok bs => simp [Except.toOption]

instance {m : MesgCall} : Decidable m.Printable := decidable_of_iff _ MesgCall.printable_iff.symm

/-- A text without an escape character can be printed. -/
theorem MesgCall.printable_of_text {m : MesgCall} {text : List Char} (htext : m.text = some text)
    (hescape : escape ∉ text.map ascii) : m.Printable := by
  refine MesgCall.printable_iff.mpr (Or.inr ⟨text, htext, Or.inr ?_⟩)
  exact Bracketed.endsInside_of_opening_not_mem fun h => hescape (List.mem_of_mem_filter h)

/-- The usage can be printed under whatever name the program has: there is
an `m` behind the name. -/
theorem showUsage_printable (argv0 : List Char) (s : Settings) :
    ∀ m ∈ showUsage argv0 s, m.Printable := by
  intro m hm
  rcases List.mem_cons.mp hm with rfl | hm
  · exact MesgCall.printable_of_text rfl (by decide)
  · rw [List.mem_singleton.mp hm]
    refine MesgCall.printable_iff.mpr (Or.inr ⟨_, rfl, Or.inr ?_⟩)
    rw [cText_append, Bracketed.endsInside_append]
    cases Bracketed.endsInside escape sequenceEnd false (cText argv0).bytes <;> decide

/-! ### Addresses -/

/-- The value of a hexadecimal digit. -/
def hexDigit? (c : Char) : Option ℕ :=
  if c.isDigit then some (c.toNat - '0'.toNat)
  else if 'a' ≤ c ∧ c ≤ 'f' then some (c.toNat - 'a'.toNat + 10)
  else if 'A' ≤ c ∧ c ≤ 'F' then some (c.toNat - 'A'.toNat + 10)
  else none

/-- The digits a text starts with. -/
def hexDigits : List Char → List ℕ
  | [] => []
  | c :: rest =>
    match hexDigit? c with
    | none => []
    | some d => d :: hexDigits rest

/-- A prefix `0x` is skipped. -/
def skipHexPrefix : List Char → List Char
  | '0' :: 'x' :: rest => rest
  | '0' :: 'X' :: rest => rest
  | text => text

/-- The number a text starts with. -/
def scanHexNumber (text : List Char) : Option ℕ :=
  match hexDigits (skipHexPrefix text) with
  | [] => none
  | ds => some (ds.foldl (fun n d => 16 * n + d) 0)

/-- The low 32 bits of what `strtoul` makes of a number and its sign. One of
more than 64 bits is the largest of them. -/
def strtoulLow (negative : Bool) (n : ℕ) : Word :=
  if 2 ^ 64 ≤ n then BitVec.allOnes 32
  else if negative then -BitVec.ofNat 32 n
  else BitVec.ofNat 32 n

def isSpace (c : Char) : Bool := c ∈ [' ', '\t', '\n', '\x0b', '\x0c', '\r']

/-- `sscanf( optarg, "%X", … )`: nothing is stored if there is no number. -/
def scanHex (text : List Char) : Option Word :=
  match text.dropWhile isSpace with
  | '-' :: rest => (scanHexNumber rest).map (strtoulLow true)
  | '+' :: rest => (scanHexNumber rest).map (strtoulLow false)
  | rest => (scanHexNumber rest).map (strtoulLow false)

example : scanHex "0x80800000".toList = some 0x80800000#32 := by decide +kernel

theorem hexDigits_hexPrint (n v : ℕ) :
    hexDigits (hexPrint upperDigits n v) = (List.range n).reverse.map fun k => v / 16 ^ k % 16 := by
  have hdigit : ∀ k < 16, hexDigit? (upperDigits.getD k '0') = some k := by decide
  rw [hexPrint]
  induction (List.range n).reverse with
  | nil => rfl
  | cons k ks ih =>
      rw [List.map_cons, hexDigits, hdigit _ (Nat.mod_lt _ (by decide))]
      simp only [ih, List.map_cons]

theorem foldl_digits (n v acc : ℕ) :
    ((List.range n).reverse.map fun k => v / 16 ^ k % 16).foldl (fun n d => 16 * n + d) acc =
      acc * 16 ^ n + v % 16 ^ n := by
  induction n generalizing acc with
  | zero => simp [Nat.mod_one]
  | succ n ih =>
      rw [List.range_succ, List.reverse_append, List.map_append, List.foldl_append, ih,
        Nat.mod_pow_succ]
      simp only [List.reverse_singleton, List.map_cons, List.map_nil, List.foldl_cons,
        List.foldl_nil]
      ring

/-- An address that is printed with its prefix is read back. -/
theorem scanHex_printed (a : Word) :
    scanHex ('0' :: 'x' :: hexPrint upperDigits 8 a.toNat) = some a := by
  have hnumber : scanHexNumber ('0' :: 'x' :: hexPrint upperDigits 8 a.toNat) = some a.toNat := by
    have hlt : a.toNat < 16 ^ 8 := a.isLt
    have hvalue := foldl_digits 8 a.toNat 0
    rw [Nat.zero_mul, Nat.zero_add, Nat.mod_eq_of_lt hlt] at hvalue
    rw [scanHexNumber, skipHexPrefix, hexDigits_hexPrint]
    split
    · rename_i hnil
      simp at hnil
    · exact congrArg some hvalue
  have hsmall : ¬ 2 ^ 64 ≤ a.toNat := by
    have hlt := a.isLt
    omega
  change (scanHexNumber ('0' :: 'x' :: hexPrint upperDigits 8 a.toNat)).map (strtoulLow false) = _
  rw [hnumber, Option.map_some, strtoulLow, if_neg hsmall, if_neg Bool.false_ne_true,
    BitVec.ofNat_toNat, BitVec.setWidth_eq]

/-! ### The loop -/

/-- `check_opmode`. -/
def checkOpmode (s : Settings) : Except (List MesgCall) Unit :=
  if s.opmode ≠ .none then
    .error [⟨s, .error, some "You can only specify one of the -clr options!".toList⟩]
  else .ok ()

def ArgsState.setOpmode (st : ArgsState) (mode : OpMode) : ArgsState :=
  { st with settings.opmode := mode }

/-- `SET_FLAG`. -/
def ArgsState.setFlag (st : ArgsState) (c : Char) : ArgsState :=
  { st with settings.flags := Function.update st.settings.flags c true }

/-- The `switch`. An error is an exit with the messages before it. -/
def argStep (argv0 : List Char) (st : ArgsState) (arg : Arg) :
    Except (List MesgCall) ArgsState :=
  let st := st.setFlag arg.1
  match arg.1 with
  | 'l' => (checkOpmode st.settings).map fun _ => st.setOpmode .listSections
  | 'r' => (checkOpmode st.settings).map fun _ => st.setOpmode .listRelocations
  | 'c' => (checkOpmode st.settings).map fun _ => st.setOpmode .convert
  | 'd' => .ok (st.setOpmode .disassemble)
  | 'D' => .ok (st.setOpmode .disassembleAll)
  | 'A' => .ok { st with settings.baseAddr := (scanHex arg.2).getD st.settings.baseAddr }
  | 'o' => .ok { st with oval := some arg.2 }
  | 'h' => .ok st
  | 'g' => .ok { st with settings.noColors := !st.settings.noColors }
  | 'v' => .ok { st with settings.verbosity := st.settings.verbosity + 1 }
  | 's' => .ok { st with settings.verbosity := -1 }
  | _ => .error (showUsage argv0 st.settings)

/-- `args_process`, less the filenames. -/
def argsProcess (argv0 : List Char) (args : List Arg) : Except (List MesgCall) ArgsState :=
  args.foldlM (argStep argv0) ArgsState.init

/-! ### What the options say -/

/-- The modes. -/
def modeOf (arg : Arg) : Option OpMode :=
  match arg.1 with
  | 'l' => some .listSections
  | 'r' => some .listRelocations
  | 'c' => some .convert
  | 'd' => some .disassemble
  | 'D' => some .disassembleAll
  | _ => none

def addressOf (arg : Arg) : Option Word := if arg.1 = 'A' then scanHex arg.2 else none

def outputOf (arg : Arg) : Option (List Char) := if arg.1 = 'o' then some arg.2 else none

/-- The last of the values given, if any is. -/
def lastOf {α β : Type} (f : α → Option β) (l : List α) : Option β := (l.filterMap f).getLast?

/-- `-v` counts up from the last `-s`. -/
def verbosityOf (args : List Arg) : ℤ :=
  (args.reverse.takeWhile fun arg => arg.1 ≠ 's').countP (fun arg => arg.1 = 'v') -
    if args.any (fun arg => arg.1 = 's') then 1 else 0

/-- What a list of options sets. -/
def argsSummary (args : List Arg) : ArgsState where
  settings :=
    { opmode := (lastOf modeOf args).getD .none
      verbosity := verbosityOf args
      noColors := args.countP (fun arg => arg.1 = 'g') % 2 = 1
      baseAddr := (lastOf addressOf args).getD 0
      flags := fun c => args.any fun arg => arg.1 = c }
  oval := lastOf outputOf args

/-- The options that the `switch` has a case for. -/
def knownOptions : List Char := "clrdDAohgvs".toList

/-- The options that `check_opmode` stands before. -/
def exclusiveOptions : List Char := "clr".toList

/-- The lists of options that are processed to their end: every option is
known, and none of `-c`, `-l` and `-r` stands behind a mode. -/
structure Accepted (args : List Arg) : Prop where
  known : ∀ arg ∈ args, arg.1 ∈ knownOptions
  single : ∀ pre arg post, args = pre ++ arg :: post → arg.1 ∈ exclusiveOptions →
    ∀ before ∈ pre, modeOf before = none

/-! ### One more option -/

theorem lastOf_concat {α β : Type} (f : α → Option β) (l : List α) (a : α) :
    lastOf f (l ++ [a]) = (f a).or (lastOf f l) := by
  rw [lastOf, lastOf, List.filterMap_append]
  cases h : f a with
  | none => simp [h]
  | some b => simp [h]

theorem lastOf_eq_none_iff {α β : Type} {f : α → Option β} {l : List α} :
    lastOf f l = none ↔ ∀ a ∈ l, f a = none := by
  rw [lastOf, List.getLast?_eq_none_iff, List.filterMap_eq_nil_iff]

theorem verbosityOf_concat (args : List Arg) (arg : Arg) :
    verbosityOf (args ++ [arg]) =
      if arg.1 = 's' then -1
      else if arg.1 = 'v' then verbosityOf args + 1
      else verbosityOf args := by
  rw [verbosityOf, verbosityOf, List.reverse_concat, List.takeWhile_cons, List.any_append]
  split_ifs <;> simp_all

theorem argsSummary_concat (args : List Arg) (arg : Arg) :
    argsSummary (args ++ [arg]) =
      { settings :=
          { opmode := (modeOf arg).getD (argsSummary args).settings.opmode
            verbosity :=
              if arg.1 = 's' then -1
              else if arg.1 = 'v' then (argsSummary args).settings.verbosity + 1
              else (argsSummary args).settings.verbosity
            noColors :=
              if arg.1 = 'g' then !(argsSummary args).settings.noColors
              else (argsSummary args).settings.noColors
            baseAddr := (addressOf arg).getD (argsSummary args).settings.baseAddr
            flags := Function.update (argsSummary args).settings.flags arg.1 true }
        oval := (outputOf arg).or (argsSummary args).oval } := by
  have hgetD {α : Type} (x y : Option α) (d : α) : (x.or y).getD d = x.getD (y.getD d) := by
    cases x <;> rfl
  have hflags : (fun c => (args ++ [arg]).any fun a => a.1 = c) =
      Function.update (fun c => args.any fun a => a.1 = c) arg.1 true := by
    funext c
    rw [List.any_append, Function.update_apply]
    by_cases hc : c = arg.1
    · simp [hc]
    · simp [hc, Ne.symm hc]
  have hcolors : decide ((args ++ [arg]).countP (fun a => a.1 = 'g') % 2 = 1) =
      if arg.1 = 'g' then !decide (args.countP (fun a => a.1 = 'g') % 2 = 1)
      else decide (args.countP (fun a => a.1 = 'g') % 2 = 1) := by
    rw [List.countP_append, List.countP_singleton]
    by_cases hg : arg.1 = 'g'
    · rw [if_pos hg, if_pos (decide_eq_true hg), ← decide_not, decide_eq_decide]
      omega
    · rw [if_neg hg, if_neg (by simpa using hg), Nat.add_zero]
  rw [argsSummary, argsSummary, lastOf_concat, lastOf_concat, lastOf_concat, hgetD, hgetD,
    verbosityOf_concat, hflags, hcolors]

/-! ### The loop over the options -/

theorem modeOf_ne_none (arg : Arg) : modeOf arg ≠ some .none := by
  rw [modeOf]
  split <;> decide

/-- No mode is set exactly if none was given. -/
theorem opmode_eq_none_iff {args : List Arg} :
    (argsSummary args).settings.opmode = .none ↔ ∀ arg ∈ args, modeOf arg = none := by
  rw [← lastOf_eq_none_iff]
  change (lastOf modeOf args).getD .none = .none ↔ _
  cases hlast : lastOf modeOf args with
  | none => simp
  | some mode =>
      obtain ⟨arg, -, harg⟩ := List.mem_filterMap.mp (List.mem_of_getLast? hlast)
      have hmode : mode ≠ .none := fun h => modeOf_ne_none arg (h ▸ harg)
      simp [hmode]

theorem accepted_nil : Accepted [] :=
  ⟨fun _ harg => absurd harg List.not_mem_nil, fun pre arg post h => by simp at h⟩

theorem accepted_concat {args : List Arg} {arg : Arg} :
    Accepted (args ++ [arg]) ↔ Accepted args ∧ arg.1 ∈ knownOptions ∧
      (arg.1 ∈ exclusiveOptions → (argsSummary args).settings.opmode = .none) := by
  rw [opmode_eq_none_iff]
  constructor
  · rintro ⟨hknown, hsingle⟩
    obtain ⟨hargs, harg⟩ := List.forall_mem_append.mp hknown
    refine ⟨⟨hargs, fun pre a post hsplit => ?_⟩, harg arg List.mem_cons_self,
      hsingle args arg [] rfl⟩
    exact hsingle pre a (post ++ [arg]) (by rw [hsplit, List.append_assoc]; rfl)
  · rintro ⟨⟨hknown, hsingle⟩, harg, hfirst⟩
    refine ⟨List.forall_mem_append.mpr ⟨hknown, by simpa using harg⟩, fun pre a post hsplit => ?_⟩
    rcases List.eq_nil_or_concat post with rfl | ⟨post, b, rfl⟩
    · obtain ⟨rfl, hlast⟩ := List.append_inj' hsplit rfl
      obtain rfl := (List.cons.inj hlast).1
      exact hfirst
    · have hinit : args ++ [arg] = (pre ++ a :: post) ++ [b] := by simpa using hsplit
      obtain ⟨rfl, -⟩ := List.append_inj' hinit rfl
      exact hsingle pre a post rfl

/-- A step with an option that is accepted. -/
theorem argStep_summary (argv0 : List Char) (args : List Arg) {arg : Arg}
    (hknown : arg.1 ∈ knownOptions)
    (hsingle : arg.1 ∈ exclusiveOptions → (argsSummary args).settings.opmode = .none) :
    argStep argv0 (argsSummary args) arg = .ok (argsSummary (args ++ [arg])) := by
  obtain ⟨c, optarg⟩ := arg
  have hcases : c ∈ ['c', 'l', 'r', 'd', 'D', 'A', 'o', 'h', 'g', 'v', 's'] := hknown
  simp only [List.mem_cons, List.not_mem_nil, or_false] at hcases
  rw [argsSummary_concat]
  have hfree (hc : c ∈ exclusiveOptions) :
      checkOpmode ((argsSummary args).setFlag c).settings = .ok () :=
    if_neg (not_not.mpr (hsingle hc))
  rcases hcases with rfl | rfl | rfl | rfl | rfl | rfl | rfl | rfl | rfl | rfl | rfl
  · rw [argStep]
    simp only [hfree (by decide)]
    rfl
  · rw [argStep]
    simp only [hfree (by decide)]
    rfl
  · rw [argStep]
    simp only [hfree (by decide)]
    rfl
  all_goals rfl

/-- What is said before an exit, with the settings it is said with. -/
def Reports (s : Settings) (messages : List MesgCall) : Prop :=
  (∀ m ∈ messages, m.settings = s ∧ m.Printable) ∧
    ∃ m ∈ messages, m.kind = .error ∨ m.kind = .usage

/-- A step with an option that is not accepted. -/
theorem argStep_refused (argv0 : List Char) (args : List Arg) {arg : Arg}
    (h : ¬ (arg.1 ∈ knownOptions ∧
      (arg.1 ∈ exclusiveOptions → (argsSummary args).settings.opmode = .none))) :
    ∃ messages, argStep argv0 (argsSummary args) arg = .error messages ∧
      Reports ((argsSummary args).setFlag arg.1).settings messages := by
  obtain ⟨c, optarg⟩ := arg
  by_cases hknown : c ∈ knownOptions
  · rw [not_and] at h
    obtain ⟨hc, hmode⟩ := Classical.not_imp.mp (h hknown)
    have htaken : checkOpmode ((argsSummary args).setFlag c).settings =
        .error [⟨((argsSummary args).setFlag c).settings, .error,
          some "You can only specify one of the -clr options!".toList⟩] :=
      if_pos hmode
    have hcases : c ∈ ['c', 'l', 'r'] := hc
    simp only [List.mem_cons, List.not_mem_nil, or_false] at hcases
    have hreports (m : MesgCall) (hm : m.kind = .error) (hprintable : m.Printable) :
        Reports m.settings [m] :=
      ⟨fun m' hm' => by rw [List.mem_singleton.mp hm']; exact ⟨rfl, hprintable⟩, m,
        List.mem_singleton_self m, Or.inl hm⟩
    rcases hcases with rfl | rfl | rfl
    all_goals
      rw [argStep]
      simp only [htaken]
      exact ⟨_, rfl, hreports _ rfl (MesgCall.printable_of_text rfl (by decide))⟩
  · have hcases : c ∉ ['c', 'l', 'r', 'd', 'D', 'A', 'o', 'h', 'g', 'v', 's'] := hknown
    refine ⟨showUsage argv0 ((argsSummary args).setFlag c).settings, ?_, ?_⟩
    · rw [argStep]
      split <;> simp_all
    · refine ⟨fun m hm => ⟨?_, showUsage_printable _ _ m hm⟩, _, List.mem_cons_self, Or.inr rfl⟩
      rcases List.mem_cons.mp hm with rfl | hm
      · rfl
      · rw [List.mem_singleton.mp hm]

/-- The options are processed to their end exactly if all of them are known
and none of `-c`, `-l` and `-r` stands behind a mode; and then the settings
are those read off the list. -/
theorem argsProcess_ok_iff (argv0 : List Char) (args : List Arg) (st : ArgsState) :
    argsProcess argv0 args = .ok st ↔ Accepted args ∧ st = argsSummary args := by
  rw [argsProcess]
  induction args using List.reverseRecOn generalizing st with
  | nil =>
      have hinit : argsSummary [] = ArgsState.init := rfl
      rw [List.foldlM_nil, hinit]
      exact ⟨fun h => ⟨accepted_nil, (Except.ok.inj h).symm⟩, fun h => by rw [h.2]; rfl⟩
  | append_singleton args arg ih =>
      rw [List.foldlM_append, accepted_concat]
      constructor
      · intro h
        obtain ⟨st', hargs, hstep⟩ := exists_of_bind_eq_ok h
        obtain ⟨haccepted, rfl⟩ := (ih st').mp hargs
        rw [List.foldlM_cons] at hstep
        obtain ⟨st'', hstep, hlast⟩ := exists_of_bind_eq_ok hstep
        obtain rfl := Except.ok.inj hlast
        by_cases harg : arg.1 ∈ knownOptions ∧
            (arg.1 ∈ exclusiveOptions → (argsSummary args).settings.opmode = .none)
        · rw [argStep_summary argv0 args harg.1 harg.2] at hstep
          exact ⟨⟨haccepted, harg⟩, (Except.ok.inj hstep).symm⟩
        · obtain ⟨messages, hrefused, -⟩ := argStep_refused argv0 args harg
          rw [hrefused] at hstep
          cases hstep
      · rintro ⟨⟨haccepted, harg⟩, rfl⟩
        rw [(ih _).mpr ⟨haccepted, rfl⟩]
        have hstep := argStep_summary argv0 args harg.1 harg.2
        change ([arg].foldlM (argStep argv0) (argsSummary args)) = _
        rw [List.foldlM_cons, hstep]
        rfl

/-- If they are not, the first option that is not accepted is reported. -/
theorem argsProcess_error {argv0 : List Char} {args : List Arg} {messages : List MesgCall}
    (h : argsProcess argv0 args = .error messages) :
    ∃ pre arg post, args = pre ++ arg :: post ∧ Accepted pre ∧ ¬ Accepted (pre ++ [arg]) ∧
      Reports ((argsSummary pre).setFlag arg.1).settings messages := by
  obtain ⟨pre, arg, post, st, hsplit, hpre, hstep⟩ := foldlM_eq_error_iff.mp h
  obtain ⟨haccepted, rfl⟩ := (argsProcess_ok_iff argv0 pre st).mp hpre
  by_cases harg : arg.1 ∈ knownOptions ∧
      (arg.1 ∈ exclusiveOptions → (argsSummary pre).settings.opmode = .none)
  · rw [argStep_summary argv0 pre harg.1 harg.2] at hstep
    cases hstep
  · obtain ⟨messages', hrefused, hreports⟩ := argStep_refused argv0 pre harg
    obtain rfl := Except.error.inj (hstep.symm.trans hrefused)
    exact ⟨pre, arg, post, hsplit, haccepted, fun h => harg (accepted_concat.mp h).2, hreports⟩

/-- The address that is set, printed and given once more, changes nothing. -/
theorem argsProcess_printed_address (argv0 : List Char) {args : List Arg}
    (hA : ∃ arg ∈ args, arg.1 = 'A') :
    argsProcess argv0 (args ++
        [('A', '0' :: 'x' :: hexPrint upperDigits 8 (argsSummary args).settings.baseAddr.toNat)]) =
      argsProcess argv0 args := by
  cases hargs : argsProcess argv0 args with
  | error messages =>
      rw [argsProcess] at hargs
      rw [argsProcess, List.foldlM_append, hargs]
      rfl
  | ok st =>
      obtain ⟨haccepted, rfl⟩ := (argsProcess_ok_iff argv0 args st).mp hargs
      have hset : (argsSummary args).settings.flags 'A' = true := by
        obtain ⟨arg, harg, hc⟩ := hA
        exact List.any_eq_true.mpr ⟨arg, harg, decide_eq_true hc⟩
      have hflags : Function.update (argsSummary args).settings.flags 'A' true =
          (argsSummary args).settings.flags := by
        rw [← hset, Function.update_eq_self]
      have hknown : 'A' ∈ knownOptions := by decide
      have hfree : 'A' ∉ exclusiveOptions := by decide
      refine (argsProcess_ok_iff argv0 _ _).mpr
        ⟨accepted_concat.mpr ⟨haccepted, hknown, fun h => absurd h hfree⟩, ?_⟩
      rw [argsSummary_concat, addressOf, if_pos rfl, scanHex_printed]
      simp only [hflags]
      rfl
/-! ### The order of options -/

/-- Two options that set the same thing: the mode, the address, the output
file or the verbosity. -/
def SameSetting (a b : Arg) : Prop :=
  (modeOf a ≠ none ∧ modeOf b ≠ none) ∨ (a.1 = 'A' ∧ b.1 = 'A') ∨ (a.1 = 'o' ∧ b.1 = 'o') ∨
    ((a.1 = 'v' ∨ a.1 = 's') ∧ (b.1 = 'v' ∨ b.1 = 's'))

instance {a b : Arg} : Decidable (SameSetting a b) := inferInstanceAs (Decidable (_ ∨ _))

theorem SameSetting.symm {a b : Arg} (h : SameSetting a b) : SameSetting b a := by
  rcases h with h | h | h | h
  · exact Or.inl h.symm
  · exact Or.inr (Or.inl h.symm)
  · exact Or.inr (Or.inr (Or.inl h.symm))
  · exact Or.inr (Or.inr (Or.inr h.symm))

/-- The exclusive options are modes. -/
theorem modeOf_ne_none_of_exclusive {arg : Arg} (h : arg.1 ∈ exclusiveOptions) :
    modeOf arg ≠ none := by
  obtain ⟨c, optarg⟩ := arg
  have hcases : c ∈ ['c', 'l', 'r'] := h
  simp only [List.mem_cons, List.not_mem_nil, or_false] at hcases
  rcases hcases with rfl | rfl | rfl <;> exact Option.some_ne_none _

theorem argsSummary_swap {a b : Arg} (h : ¬ SameSetting a b) (pre : List Arg) :
    argsSummary (pre ++ [a, b]) = argsSummary (pre ++ [b, a]) := by
  have hsplit (x y : Arg) : pre ++ [x, y] = pre ++ [x] ++ [y] := by simp
  simp only [SameSetting, not_or, not_and_or, not_not] at h
  obtain ⟨hmode, haddress, houtput, hverbosity⟩ := h
  have hgetD {α : Type} {x y : Option α} (hxy : x = none ∨ y = none) (d : α) :
      y.getD (x.getD d) = x.getD (y.getD d) := by
    rcases hxy with rfl | rfl <;> rfl
  have hor {α : Type} {x y : Option α} (hxy : x = none ∨ y = none) (z : Option α) :
      y.or (x.or z) = x.or (y.or z) := by
    rcases hxy with rfl | rfl <;> simp
  have haddressOf : addressOf a = none ∨ addressOf b = none :=
    haddress.imp (fun ha => if_neg ha) fun hb => if_neg hb
  have houtputOf : outputOf a = none ∨ outputOf b = none :=
    houtput.imp (fun ha => if_neg ha) fun hb => if_neg hb
  rw [hsplit, hsplit, argsSummary_concat, argsSummary_concat, argsSummary_concat,
    argsSummary_concat]
  have hflags (f : Char → Bool) : Function.update (Function.update f a.1 true) b.1 true =
      Function.update (Function.update f b.1 true) a.1 true := by
    by_cases hab : a.1 = b.1
    · rw [hab]
    · exact Function.update_comm hab _ _ _
  have hcolors (x : Bool) :
      (if b.1 = 'g' then !if a.1 = 'g' then !x else x else if a.1 = 'g' then !x else x) =
        if a.1 = 'g' then !if b.1 = 'g' then !x else x else if b.1 = 'g' then !x else x := by
    split_ifs <;> rfl
  have hcount (n : ℤ) :
      (if b.1 = 's' then -1
        else if b.1 = 'v' then (if a.1 = 's' then -1 else if a.1 = 'v' then n + 1 else n) + 1
        else if a.1 = 's' then -1 else if a.1 = 'v' then n + 1 else n) =
      if a.1 = 's' then -1
        else if a.1 = 'v' then (if b.1 = 's' then -1 else if b.1 = 'v' then n + 1 else n) + 1
        else if b.1 = 's' then -1 else if b.1 = 'v' then n + 1 else n := by
    rcases hverbosity with ⟨hv, hs⟩ | ⟨hv, hs⟩
    · rw [if_neg hs, if_neg hv, if_neg hs, if_neg hv]
    · rw [if_neg hs, if_neg hv, if_neg hs, if_neg hv]
  simp only [hgetD hmode, hgetD haddressOf, hor houtputOf, hflags, hcolors, hcount]

theorem accepted_swap {a b : Arg} (h : ¬ SameSetting a b) {pre : List Arg}
    (haccepted : Accepted (pre ++ [a, b])) : Accepted (pre ++ [b, a]) := by
  have hsplit (x y : Arg) : pre ++ [x, y] = pre ++ [x] ++ [y] := by simp
  rw [hsplit, accepted_concat, accepted_concat] at haccepted ⊢
  obtain ⟨⟨hpre, haknown, hafirst⟩, hbknown, hbfirst⟩ := haccepted
  have hmodes : modeOf a = none ∨ modeOf b = none := by
    by_contra hboth
    rw [not_or] at hboth
    exact h (Or.inl hboth)
  refine ⟨⟨hpre, hbknown, fun hb => ?_⟩, haknown, fun ha => ?_⟩
  · have hbefore := hbfirst hb
    rw [opmode_eq_none_iff] at hbefore ⊢
    exact fun arg harg => hbefore arg (List.mem_append_left _ harg)
  · have hbefore := hafirst ha
    rw [opmode_eq_none_iff] at hbefore ⊢
    rw [List.forall_mem_append, List.forall_mem_singleton]
    exact ⟨hbefore, hmodes.resolve_left (modeOf_ne_none_of_exclusive ha)⟩

/-- Neighbouring options that set different things can change places. -/
theorem argsProcess_swap (argv0 : List Char) {a b : Arg} (h : ¬ SameSetting a b)
    (pre post : List Arg) (st : ArgsState) :
    argsProcess argv0 (pre ++ a :: b :: post) = .ok st ↔
      argsProcess argv0 (pre ++ b :: a :: post) = .ok st := by
  have hone {a b : Arg} (h : ¬ SameSetting a b)
      (hok : argsProcess argv0 (pre ++ a :: b :: post) = .ok st) :
      argsProcess argv0 (pre ++ b :: a :: post) = .ok st := by
    have hsplit (x y : Arg) : pre ++ x :: y :: post = (pre ++ [x, y]) ++ post := by simp
    rw [hsplit, argsProcess, List.foldlM_append] at hok ⊢
    obtain ⟨st', hfirst, hrest⟩ := exists_of_bind_eq_ok hok
    obtain ⟨haccepted, rfl⟩ := (argsProcess_ok_iff argv0 _ st').mp hfirst
    have hswapped : (pre ++ [b, a]).foldlM (argStep argv0) ArgsState.init =
        .ok (argsSummary (pre ++ [a, b])) :=
      (argsProcess_ok_iff argv0 _ _).mpr ⟨accepted_swap h haccepted, argsSummary_swap h pre⟩
    rw [hswapped]
    exact hrest
  exact ⟨hone h, hone fun hsame => h hsame.symm⟩

end Novl
