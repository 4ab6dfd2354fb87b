import Novl.Elf
import Novl.Library.Bracketed

/-!
Messages without colours, `mesg.c`.

Every message starts with a symbol in colour, and without colours the
whole line goes through a copy that leaves the escape sequences out. The
copy has room for as many bytes as the line has, which does for the `NUL`
only if something is left out; and the loop over a sequence looks for its
`m` and for nothing else.
-/

namespace Novl

/-- A string in memory, up to its `NUL`. -/
structure CString where
  bytes : List Byte
  noNul : 0 ∉ bytes

def CString.append (s t : CString) : CString where
  bytes := s.bytes ++ t.bytes
  noNul := by
    rw [List.mem_append, not_or]
    exact ⟨s.noNul, t.noNul⟩

def ascii (c : Char) : Byte := BitVec.ofNat 8 c.toNat

/-- `ANSI_START[0]`. -/
def escape : Byte := 0x1B

/-- The `m` at the end of a sequence. -/
def sequenceEnd : Byte := ascii 'm'

/-- Where a copy leaves its buffers. -/
inductive StripStop
  | readsBehindNul
  | writesBehindBuffer
  deriving DecidableEq, Repr

/-- `while( (*(src++) != 'm') );` -/
def skipSequence : List Byte → Except StripStop (List Byte)
  | [] => .error .readsBehindNul
  | c :: src => if c ≠ sequenceEnd then skipSequence src else .ok src

theorem length_of_skipSequence {src src' : List Byte} (h : skipSequence src = .ok src') :
    src'.length < src.length := by
  induction src with
  | nil => cases h
  | cons c src ih =>
      rw [skipSequence] at h
      split at h
      · exact (ih h).trans (Nat.lt_succ_self _)
      · cases h
        exact Nat.lt_succ_self _

/-- `*(tgt++) = c`, into a buffer of `size` bytes of which `new` are
written. -/
def putByte (size : ℕ) (new : List Byte) (c : Byte) : Except StripStop (List Byte) :=
  if new.length < size then .ok (new ++ [c]) else .error .writesBehindBuffer

/-- The loop over the characters and the `NUL` behind it. `src` is what is
left of the string with its `NUL`. -/
def stripLoop (size : ℕ) (src new : List Byte) : Except StripStop (List Byte) :=
  match src with
  | [] => .error .readsBehindNul
  | c :: rest =>
    if c = 0 then putByte size new 0
    else if c = escape then
      match _h : skipSequence (c :: rest) with
      | .error e => .error e
      | .ok src' => stripLoop size src' new
    else
      match putByte size new c with
      | .error e => .error e
      | .ok new' => stripLoop size rest new'
termination_by src.length
decreasing_by
  · exact length_of_skipSequence _h
  · exact Nat.lt_succ_self _

/-- `mesg_strip_control_characters`: the bytes written, with the `NUL`. -/
def mesgStripControlCharacters (str : CString) : Except StripStop (List Byte) :=
  stripLoop str.bytes.length (str.bytes ++ [0]) []

/-- What is left of a string without its escape sequences, from an escape
character through the next `m` or to the end. -/
def withoutSequences (s : List Byte) : List Byte :=
  Bracketed.outside escape sequenceEnd false s

/-- An `m` follows the last escape character. -/
def LastSequenceEnds (s : List Byte) : Prop :=
  ∃ pre post, s = pre ++ escape :: post ∧ escape ∉ post ∧ sequenceEnd ∈ post

/-! ### The loops -/

theorem skipSequence_eq {seq rest : List Byte} (h : sequenceEnd ∉ seq) :
    skipSequence (seq ++ sequenceEnd :: rest) = .ok rest := by
  induction seq with
  | nil => rfl
  | cons c seq ih =>
      rw [List.mem_cons, not_or] at h
      rw [List.cons_append, skipSequence, if_pos (Ne.symm h.1), ih h.2]

theorem skipSequence_of_not_mem {src : List Byte} (h : sequenceEnd ∉ src) :
    skipSequence src = .error .readsBehindNul := by
  induction src with
  | nil => rfl
  | cons c src ih =>
      rw [List.mem_cons, not_or] at h
      rw [skipSequence, if_pos (Ne.symm h.1), ih h.2]

section Steps

variable {size : ℕ} {src src' new : List Byte} {e : StripStop} {c : Byte}

theorem stripLoop_nul : stripLoop size (0 :: src) new = putByte size new 0 := by
  rw [stripLoop, if_pos rfl]

theorem stripLoop_escape (hskip : skipSequence src = .ok src') :
    stripLoop size (escape :: src) new = stripLoop size src' new := by
  have hfirst : skipSequence (escape :: src) = .ok src' := hskip
  rw [stripLoop, if_neg (by decide), if_pos rfl]
  split
  · rename_i hskip'
    rw [hfirst] at hskip'
    cases hskip'
  · rename_i hskip'
    rw [hfirst] at hskip'
    cases hskip'
    rfl

theorem stripLoop_escape_error (hskip : skipSequence src = .error e) :
    stripLoop size (escape :: src) new = .error e := by
  have hfirst : skipSequence (escape :: src) = .error e := hskip
  rw [stripLoop, if_neg (by decide), if_pos rfl]
  split
  · rename_i hskip'
    rw [hfirst] at hskip'
    cases hskip'
    rfl
  · rename_i hskip'
    rw [hfirst] at hskip'
    cases hskip'

theorem stripLoop_regular (hnul : c ≠ 0) (hescape : c ≠ escape) (hroom : new.length < size) :
    stripLoop size (c :: src) new = stripLoop size src (new ++ [c]) := by
  rw [stripLoop, if_neg hnul, if_neg hescape, putByte, if_pos hroom]

end Steps

/-- From any place of a string on, as long as there is room for what is
left of it: the copy reads too far when a sequence is still open at the
end, and else writes too far when the `NUL` does not fit. -/
theorem stripLoop_eq {size : ℕ} {s new : List Byte} (hnul : 0 ∉ s)
    (hroom : new.length + s.length ≤ size) :
    stripLoop size (s ++ [0]) new =
      if Bracketed.endsInside escape sequenceEnd false s then .error .readsBehindNul
      else putByte size (new ++ withoutSequences s) 0 := by
  induction hn : s.length using Nat.strong_induction_on generalizing s new with
  | _ n ih =>
  cases s with
  | nil =>
      rw [List.nil_append, stripLoop_nul, withoutSequences, Bracketed.outside_nil,
        List.append_nil]
      rfl
  | cons c s =>
      rw [List.mem_cons, not_or] at hnul
      rw [List.length_cons] at hroom hn
      obtain ⟨hc, hs⟩ := hnul
      rw [List.cons_append, Bracketed.endsInside_cons, Bracketed.after_false, withoutSequences,
        Bracketed.outside]
      by_cases hescape : c = escape
      · subst hescape
        rw [if_pos rfl, decide_eq_true rfl]
        by_cases hend : sequenceEnd ∈ s
        · -- The inner loop stops behind the first `m`.
          obtain ⟨seq, rest, rfl, hseq⟩ := List.eq_append_cons_of_mem hend
          obtain ⟨hinside, houtside⟩ :
              Bracketed.endsInside escape sequenceEnd true (seq ++ sequenceEnd :: rest) = _ ∧ _ :=
            Bracketed.inside_closing hseq
          have hskip : skipSequence (seq ++ sequenceEnd :: rest ++ [0]) = .ok (rest ++ [0]) := by
            rw [List.append_assoc, List.cons_append, skipSequence_eq hseq]
          rw [List.length_append, List.length_cons] at hroom hn
          have hrest : 0 ∉ rest := fun h =>
            hs (List.mem_append_right _ (List.mem_cons_of_mem _ h))
          rw [hinside, houtside, stripLoop_escape hskip]
          exact ih rest.length (by omega) hrest (by omega) rfl
        · -- It runs through the `NUL`.
          have hskip : sequenceEnd ∉ s ++ [0] := by
            rw [List.mem_append, not_or]
            exact ⟨hend, by decide⟩
          rw [stripLoop_escape_error (skipSequence_of_not_mem hskip),
            (Bracketed.inside_of_not_mem hend).1]
          rfl
      · rw [if_neg hescape, decide_eq_false hescape,
          stripLoop_regular (Ne.symm hc) hescape (by omega),
          ih s.length (by omega) hs (by rw [List.length_append, List.length_singleton]; omega) rfl,
          List.append_assoc]
        rfl

/-! ### The whole copy -/

/-- What the copy does with any string. -/
theorem mesgStripControlCharacters_eq (str : CString) :
    mesgStripControlCharacters str =
      if Bracketed.endsInside escape sequenceEnd false str.bytes then .error .readsBehindNul
      else if escape ∈ str.bytes then .ok (withoutSequences str.bytes ++ [0])
      else .error .writesBehindBuffer := by
  rw [mesgStripControlCharacters, stripLoop_eq str.noNul (by simp), List.nil_append, putByte,
    withoutSequences]
  simp only [Bracketed.length_outside_lt_iff]

theorem mesgStripControlCharacters_of_last {str : CString} (h : LastSequenceEnds str.bytes) :
    mesgStripControlCharacters str = .ok (withoutSequences str.bytes ++ [0]) := by
  obtain ⟨hmem, hclosed⟩ := (Bracketed.closed_iff (by decide)).mpr h
  rw [mesgStripControlCharacters_eq, hclosed, if_neg Bool.false_ne_true, if_pos hmem]

/-- The copy stays in its buffers and leaves out the escape sequences, no
more and no less, exactly when the string has an escape character and an
`m` follows the last one. -/
theorem mesgStripControlCharacters_ok_iff (str : CString) :
    mesgStripControlCharacters str = .ok (withoutSequences str.bytes ++ [0]) ↔
      LastSequenceEnds str.bytes := by
  refine ⟨fun hok => ?_, mesgStripControlCharacters_of_last⟩
  rw [LastSequenceEnds, ← Bracketed.closed_iff (by decide)]
  rw [mesgStripControlCharacters_eq] at hok
  split at hok
  · cases hok
  · rename_i hclosed
    split at hok
    · rename_i hmem
      exact ⟨hmem, Bool.eq_false_of_not_eq_true hclosed⟩
    · cases hok

/-! The `NUL` of a string without colours does not fit into the buffer. -/

example : mesgStripControlCharacters ⟨[ascii 'a'], by decide⟩ = .error .writesBehindBuffer := by
  rw [mesgStripControlCharacters_eq]
  decide

/-! ### The lines of the program -/

/-- `ANSI_START`, `ANSI_COLOR_END` and `ANSI_SEP`. -/
def ansiStart : List Byte := [escape, ascii '[']

def ansiColorEnd : List Byte := [sequenceEnd]

def ansiSep : List Byte := [ascii ';']

def ansiAttribsOff : List Byte := [ascii '0']

/-- `ANSI_SET_FG_…`, for one of the colours `ANSI_FG_…`. -/
def ansiSetFg (color : List Byte) : List Byte :=
  ansiStart ++ ansiAttribsOff ++ ansiSep ++ color ++ ansiColorEnd

def ansiResetDefault : List Byte := ansiStart ++ ansiAttribsOff ++ ansiColorEnd

/-- The parts of `settings` that a message depends on. -/
structure MesgSettings where
  verbosity : ℤ
  noColors : Bool

/-- `final`. `text` is what the format and its arguments come to. -/
def mesgFinal (symbol text : CString) : CString :=
  symbol.append (CString.append ⟨[ascii ' '], by decide⟩ (text.append ⟨[ascii '\n'], by decide⟩))

/-- What `mk_mesg_f` prints. -/
def mkMesgF (settings : MesgSettings) (v : ℤ) (symbol text : CString) :
    Except StripStop (List Byte) :=
  if v > settings.verbosity then .ok []
  else
    let final := mesgFinal symbol text
    if settings.noColors then
      match mesgStripControlCharacters final with
      | .error e => .error e
      | .ok stripped => .ok (stripped.takeWhile (· ≠ 0))
    else .ok final.bytes

/-- `"[" ANSI_SET_FG_… "…" ANSI_RESET_DEFAULT "]"`. -/
def mesgSymbol (color : List Byte) (mark : Char) : List Byte :=
  [ascii '['] ++ ansiSetFg color ++ [ascii mark] ++ ansiResetDefault ++ [ascii ']']

def notice (settings : MesgSettings) (text : CString) : Except StripStop (List Byte) :=
  mkMesgF settings 0 ⟨mesgSymbol [ascii '3', ascii '4'] '-', by decide⟩ text

def mesg (settings : MesgSettings) (text : CString) : Except StripStop (List Byte) :=
  mkMesgF settings 1 ⟨mesgSymbol [ascii '3', ascii '4'] '-', by decide⟩ text

def error (settings : MesgSettings) (text : CString) : Except StripStop (List Byte) :=
  mkMesgF settings 0 ⟨mesgSymbol [ascii '3', ascii '1'] '!', by decide⟩ text

def debug (settings : MesgSettings) (text : CString) : Except StripStop (List Byte) :=
  mkMesgF settings 2 ⟨mesgSymbol [ascii '3', ascii '2'] '@', by decide⟩ text

def debugR (settings : MesgSettings) (text : CString) : Except StripStop (List Byte) :=
  mkMesgF settings 3 ⟨mesgSymbol [ascii '3', ascii '6'] '*', by decide⟩ text

/-- The text of the first message on a file with the name `\x1B.elf`. -/
def unendedText : CString where
  bytes := "\"\x1B.elf\": valid MIPS ELF file.".toList.map ascii
  noNul := by decide

/-- The line it is printed in. -/
def unendedLine : CString :=
  mesgFinal ⟨mesgSymbol [ascii '3', ascii '4'] '-', by decide⟩ unendedText

/-- With `-g` and `-v` that line is stripped, and no `m` stands behind the
escape character of the name. -/
theorem unendedLine_overruns :
    mesg ⟨1, true⟩ unendedText = .error .readsBehindNul ∧
      mesgStripControlCharacters unendedLine ≠
        .ok (withoutSequences unendedLine.bytes ++ [0]) := by
  have hstop : mesgStripControlCharacters (mesgFinal
      ⟨mesgSymbol [ascii '3', ascii '4'] '-', by decide⟩ unendedText) = .error .readsBehindNul := by
    rw [mesgStripControlCharacters_eq]
    decide +kernel
  constructor
  · rw [mesg, mkMesgF, if_neg (by decide)]
    simp only [if_true]
    rw [hstop]
  · rw [unendedLine, hstop]
    simp

theorem takeWhile_append_nul {s : List Byte} (hs : 0 ∉ s) :
    (s ++ [0]).takeWhile (· ≠ 0) = s := by
  rw [List.takeWhile_append_of_pos]
  · simp
  · intro c hc
    exact decide_eq_true fun hzero => hs (hzero ▸ hc)

/-- The colours of the symbol are what makes room for the `NUL`: a line
whose text has no escape character of its own is stripped of just them. -/
theorem mkMesgF_stripped {settings : MesgSettings} {v : ℤ} {symbol text : CString}
    (hshown : v ≤ settings.verbosity) (hcolors : settings.noColors = true)
    (hsymbol : LastSequenceEnds symbol.bytes) (htext : escape ∉ text.bytes) :
    mkMesgF settings v symbol text =
      .ok (withoutSequences symbol.bytes ++ ascii ' ' :: (text.bytes ++ [ascii '\n'])) := by
  have hrest : escape ∉ ascii ' ' :: (text.bytes ++ [ascii '\n']) := by
    rw [List.mem_cons, not_or, List.mem_append, not_or]
    exact ⟨by decide, htext, by decide⟩
  have hlast : LastSequenceEnds (symbol.bytes ++ ascii ' ' :: (text.bytes ++ [ascii '\n'])) := by
    obtain ⟨pre, post, hsplit, hpost, hend⟩ := hsymbol
    refine ⟨pre, post ++ ascii ' ' :: (text.bytes ++ [ascii '\n']), ?_, ?_,
      List.mem_append_left _ hend⟩
    · rw [hsplit, List.append_assoc, List.cons_append]
    · rw [List.mem_append, not_or]
      exact ⟨hpost, hrest⟩
  have hclosed := ((Bracketed.closed_iff (by decide)).mpr hsymbol).2
  have hwithout : withoutSequences (symbol.bytes ++ ascii ' ' :: (text.bytes ++ [ascii '\n'])) =
      withoutSequences symbol.bytes ++ ascii ' ' :: (text.bytes ++ [ascii '\n']) := by
    rw [withoutSequences, Bracketed.outside_append, hclosed,
      Bracketed.outside_of_opening_not_mem hrest]
    rfl
  have hnul : 0 ∉ withoutSequences (mesgFinal symbol text).bytes := fun h =>
    (mesgFinal symbol text).noNul ((Bracketed.outside_sublist _ _ _ _).subset h)
  have hstrip : mesgStripControlCharacters (mesgFinal symbol text) =
      .ok (withoutSequences (mesgFinal symbol text).bytes ++ [0]) :=
    mesgStripControlCharacters_of_last hlast
  rw [mkMesgF, if_neg (not_lt.mpr hshown)]
  simp only [hcolors, if_true]
  rw [hstrip]
  simp only [takeWhile_append_nul hnul]
  exact congrArg _ hwithout

/-- A line is printed unless it is stripped, and a sequence is still open at
the end of its text. -/
theorem mkMesgF_ok_iff {settings : MesgSettings} {v : ℤ} {symbol text : CString}
    (hsymbol : LastSequenceEnds symbol.bytes) :
    (∃ bs, mkMesgF settings v symbol text = .ok bs) ↔
      settings.verbosity < v ∨ settings.noColors = false ∨
        Bracketed.endsInside escape sequenceEnd false text.bytes = false := by
  obtain ⟨hmem, hclosed⟩ := (Bracketed.closed_iff (by decide)).mpr hsymbol
  -- The line break ends no sequence and begins none.
  have hbreak (inside : Bool) :
      Bracketed.after escape sequenceEnd inside (ascii '\n') = inside := by
    cases inside <;> decide
  have hline : Bracketed.endsInside escape sequenceEnd false (mesgFinal symbol text).bytes =
      Bracketed.endsInside escape sequenceEnd false text.bytes := by
    change Bracketed.endsInside escape sequenceEnd false
      (symbol.bytes ++ (ascii ' ' :: (text.bytes ++ [ascii '\n']))) = _
    have hblank : Bracketed.after escape sequenceEnd false (ascii ' ') = false := by decide
    rw [Bracketed.endsInside_append, hclosed, Bracketed.endsInside_cons, hblank,
      Bracketed.endsInside_append, Bracketed.endsInside_cons, hbreak, Bracketed.endsInside_nil]
  have hescape : escape ∈ (mesgFinal symbol text).bytes := List.mem_append_left _ hmem
  by_cases hquiet : v > settings.verbosity
  · rw [mkMesgF, if_pos hquiet]
    exact iff_of_true ⟨[], rfl⟩ (Or.inl hquiet)
  cases hcolors : settings.noColors with
  | false =>
      rw [mkMesgF, if_neg hquiet]
      simp [hcolors]
  | true =>
      rw [mkMesgF, if_neg hquiet]
      simp only [hcolors, if_true]
      rw [mesgStripControlCharacters_eq, hline, if_pos hescape]
      cases Bracketed.endsInside escape sequenceEnd false text.bytes with
      | true => simpa using le_of_not_gt hquiet
      | false => simp

theorem lastSequenceEnds_mesgSymbol (color : List Byte) (mark : Char) :
    LastSequenceEnds (mesgSymbol color mark) := by
  refine ⟨[ascii '['] ++ ansiSetFg color ++ [ascii mark],
    [ascii '[', ascii '0', sequenceEnd, ascii ']'], ?_, by decide, by decide⟩
  simp only [mesgSymbol, ansiResetDefault, ansiStart, ansiAttribsOff, ansiColorEnd,
    List.append_assoc, List.cons_append, List.nil_append]

/-- A line without colours. -/
def plainLine (mark : Char) (text : CString) : List Byte :=
  [ascii '[', ascii mark, ascii ']'] ++ ascii ' ' :: (text.bytes ++ [ascii '\n'])

/-- Every message whose text has no escape character is printed, safely,
as its plain line. -/
theorem messages_stripped {settings : MesgSettings} {text : CString}
    (hshown : 3 ≤ settings.verbosity) (hcolors : settings.noColors = true)
    (htext : escape ∉ text.bytes) :
    notice settings text = .ok (plainLine '-' text) ∧
      mesg settings text = .ok (plainLine '-' text) ∧
      error settings text = .ok (plainLine '!' text) ∧
      debug settings text = .ok (plainLine '@' text) ∧
      debugR settings text = .ok (plainLine '*' text) := by
  have hline {v : ℤ} (hv : v ≤ 3) {color : List Byte} {mark : Char}
      (hnul : 0 ∉ mesgSymbol color mark)
      (hmark : withoutSequences (mesgSymbol color mark) = [ascii '[', ascii mark, ascii ']']) :
      mkMesgF settings v ⟨mesgSymbol color mark, hnul⟩ text = .ok (plainLine mark text) := by
    rw [mkMesgF_stripped (hv.trans hshown) hcolors (lastSequenceEnds_mesgSymbol color mark) htext,
      hmark]
    rfl
  exact ⟨hline (by decide) _ (by decide), hline (by decide) _ (by decide),
    hline (by decide) _ (by decide), hline (by decide) _ (by decide),
    hline (by decide) _ (by decide)⟩

end Novl
