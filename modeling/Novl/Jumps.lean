import Novl.BaseIndependence
import Novl.Recording

/-!
Where the jumps of an overlay go.

On the processor a jump keeps the upper four bits of the address behind it
and replaces the others by its field. The relocator takes these bits to be
those of 0x80000000, wherever the code is linked. So it finds the target of
a jump only in code that is linked there; the field of any other jump stays
as it is, and is right just in case the code moves by a multiple of the
256 MB a jump can span.
-/

namespace Novl

open ByteMemory FallibleRun

/-- The region of 256 MB an address is in. -/
def region (a : Word) : Word := a &&& 0xF0000000#32

/-- The address the jump instruction `w` at `p` goes to. -/
def archTarget (p w : Word) : Word := region (p + 4#32) ||| (w &&& 0x03FFFFFF#32) <<< 2

theorem toNat_region (a : Word) : (region a).toNat = a.toNat / 2 ^ 28 * 2 ^ 28 :=
  LowMask.toNat_and_not_mask (n := 28) (by omega) a

theorem region_eq_iff {a b : Word} : region a = region b ↔ a.toNat / 2 ^ 28 = b.toNat / 2 ^ 28 := by
  rw [← BitVec.toNat_inj, toNat_region, toNat_region]
  omega

theorem toNat_field (w : Word) : (w &&& 0x03FFFFFF#32).toNat = w.toNat % 2 ^ 26 :=
  LowMask.toNat_and_mask (n := 26) (by omega) w

/-- A region and a field make an address. -/
theorem toNat_or_field (a w : Word) :
    (region a ||| (w &&& 0x03FFFFFF#32) <<< 2).toNat =
      a.toNat / 2 ^ 28 * 2 ^ 28 + w.toNat % 2 ^ 26 * 4 := by
  have hfield : ((w &&& 0x03FFFFFF#32) <<< 2).toNat = w.toNat % 2 ^ 26 * 4 := by
    rw [BitVec.toNat_shiftLeft, toNat_field, Nat.shiftLeft_eq]
    omega
  have hlt : w.toNat % 2 ^ 26 * 4 < 2 ^ 28 := by omega
  rw [BitVec.toNat_or, toNat_region, hfield, ← Nat.shiftLeft_eq,
    ← Nat.shiftLeft_add_eq_or_of_lt hlt]

theorem toNat_archTarget (p w : Word) :
    (archTarget p w).toNat = (p + 4#32).toNat / 2 ^ 28 * 2 ^ 28 + w.toNat % 2 ^ 26 * 4 :=
  toNat_or_field (p + 4#32) w

theorem toNat_jumpTarget (w : Word) : (jumpTarget w).toNat = 2 ^ 31 + w.toNat % 2 ^ 26 * 4 := by
  have hregion : jumpTarget w = region 0x80000000#32 ||| (w &&& 0x03FFFFFF#32) <<< 2 :=
    BitVec.or_comm _ _
  rw [hregion, toNat_or_field]
  rfl

theorem toNat_withJumpTarget_field (w a : Word) :
    (withJumpTarget w a).toNat % 2 ^ 26 = a.toNat / 4 % 2 ^ 26 := by
  rw [← toNat_field, withJumpTarget_field, toNat_field, BitVec.toNat_ushiftRight,
    Nat.shiftRight_eq_div_pow]

/-- The address is in the recorded extent of `.text`. -/
def Globals.InText (g : Globals) (a : Word) : Prop :=
  (g.elfStarts .text).toNat ≤ a.toNat ∧
    a.toNat < (g.elfStarts .text).toNat + (g.sizes .text).toNat

theorem getTargetSection_text_iff {g : Globals} {a : Word} :
    getTargetSection g a = some .text ↔ (g.elfStarts .text).toNat ≤ a.toNat ∧
      a.toNat < ((g.elfStarts .text).toNat + (g.sizes .text).toNat) % 2 ^ 32 := by
  rw [getTargetSection_eq_some_iff, inExtent_iff]
  refine and_iff_left fun i hi => ?_
  exact absurd hi (Nat.not_lt_zero _)

/-- The relocator finds the target of a jump inside `.text` exactly in the
region it assumes. -/
theorem jumpTarget_found_iff {g : Globals} {p w : Word}
    (hsize : (g.sizes .text).toNat ≤ memorySize) (htarget : g.InText (archTarget p w))
    (hregion : region (archTarget p w) = region (g.elfStarts .text)) :
    getTargetSection g (jumpTarget w) = some .text ↔ region (p + 4#32) = 0x80000000#32 := by
  have hassumed : region (p + 4#32) = 0x80000000#32 ↔ (p + 4#32).toNat / 2 ^ 28 = 8 := by
    rw [← BitVec.toNat_inj, toNat_region]
    change _ = 2 ^ 31 ↔ _
    omega
  obtain ⟨hge, hlt⟩ := htarget
  rw [region_eq_iff] at hregion
  rw [toNat_archTarget] at hge hlt hregion
  rw [getTargetSection_text_iff, hassumed, toNat_jumpTarget]
  rw [memorySize] at hsize
  have hstart := (g.elfStarts .text).isLt
  omega

section Converted

variable {elf : Elf} {base : Word} {c : Converted}

theorem Conversion.final_jump (h : Conversion elf base c)
    (hplaced : WellPlaced c.globals.elfEp (relBlocks elf.sections)) {b : RelBlock} {e : GElfRel}
    (hb : b ∈ relBlocks elf.sections) (he : e ∈ b.rels)
    (hjt : novlRelocJt e.type = some .mips26) :
    loadWord c.memory (relOff c.globals e) =
      if getTargetSection c.globals (jumpTarget (loadWord c.loaded (relOff c.globals e))) =
          some .text then
        withJumpTarget (loadWord c.loaded (relOff c.globals e))
          (jumpTarget (loadWord c.loaded (relOff c.globals e)) + c.globals.delta .text)
      else loadWord c.loaded (relOff c.globals e) := by
  obtain ⟨before, after, hsplit⟩ := List.append_of_mem hb
  obtain ⟨pre, post, hentries⟩ := List.append_of_mem (mem_relList.mpr he)
  have hplaced' : Placed c.globals (visited (relBlocks elf.sections)) := hplaced.placed
  rw [(h.planned hplaced).1]
  rw [hsplit] at hplaced' ⊢
  exact final_mips26 hplaced' hentries hjt

end Converted

/-- Jumps over a whole conversion: of a jump at `p` in `.text`, with its
target in the part of `.text` that shares the region of its start, the
relocated instruction goes to where the target has moved if and only if
the address behind it is in the region of the moved target, and either the
jump was in the region of 0x80000000 and `.text` moves by a multiple of 4,
or `.text` moves by a multiple of 256 MB. -/
theorem convert_jump_iff {elf : Elf} {base : Word} {c : Converted}
    (hconvert : convert elf base = .ok c)
    (haligned : ∀ b ∈ relBlocks elf.sections, ∀ e ∈ b.rels, e.addr.toNat % 4 = 0)
    (hdistinct : ((relBlocks elf.sections).flatMap fun b => b.rels).Pairwise
      fun a b => a.addr ≠ b.addr)
    {b : RelBlock} {e : GElfRel} (hb : b ∈ relBlocks elf.sections) (he : e ∈ b.rels)
    (hjt : novlRelocJt e.type = some .mips26)
    (htarget : c.globals.InText
      (archTarget e.addr (loadWord c.loaded (relOff c.globals e))))
    (hregion : region (archTarget e.addr (loadWord c.loaded (relOff c.globals e))) =
      region (c.globals.elfStarts .text)) :
    archTarget (e.addr + (base - c.globals.elfStarts .text))
        (loadWord c.memory (relOff c.globals e)) =
      archTarget e.addr (loadWord c.loaded (relOff c.globals e)) +
        (base - c.globals.elfStarts .text) ↔
    region (e.addr + (base - c.globals.elfStarts .text) + 4#32) =
        region (archTarget e.addr (loadWord c.loaded (relOff c.globals e)) +
          (base - c.globals.elfStarts .text)) ∧
      (region (e.addr + 4#32) = 0x80000000#32 ∧
          (base - c.globals.elfStarts .text).toNat % 4 = 0 ∨
        (base - c.globals.elfStarts .text).toNat % 2 ^ 28 = 0) := by
  have h := conversion_of_convert hconvert
  have hplaced : WellPlaced c.globals.elfEp (relBlocks elf.sections) :=
    h.dryOk.wellPlaced haligned hdistinct
  have hdelta : c.globals.delta .text = base - c.globals.elfStarts .text := by
    rw [Globals.delta, h.starts]
    rfl
  have hword := h.final_jump hplaced hb he hjt
  have hfound := jumpTarget_found_iff (h.sizesFit .text (by decide)) htarget hregion
  rw [hword, ← hdelta, ← BitVec.toNat_inj, region_eq_iff, toNat_archTarget]
  generalize hw : loadWord c.loaded (relOff c.globals e) = w at *
  generalize hd : c.globals.delta .text = d at *
  have htargetNat := toNat_archTarget e.addr w
  have hjumpNat := toNat_jumpTarget w
  have hmoved : (archTarget e.addr w + d).toNat = ((archTarget e.addr w).toNat + d.toNat) % 2 ^ 32 :=
    BitVec.toNat_add _ _
  have hd := d.isLt
  by_cases hassumed : region (e.addr + 4#32) = 0x80000000#32
  · have hsame : jumpTarget w = archTarget e.addr w := by
      rw [archTarget, hassumed]
      exact BitVec.or_comm _ _
    rw [if_pos (hfound.mpr hassumed), toNat_withJumpTarget_field, hsame]
    simp only [hassumed, true_and]
    omega
  · rw [if_neg (mt hfound.mp hassumed)]
    simp only [hassumed, false_and, false_or]
    omega

theorem mixedElf_jump_follows :
    ∃ c, convert mixedElf 0x80800000 = .ok c ∧
      archTarget 0x80800010 (loadWord c.memory 0x10) = 0x80800000#32 := by
  obtain ⟨c, hconvert, hc⟩ := exists_ok_of_map (x := convert mixedElf 0x80800000)
    (fun c => decide (c.globals.elfEp = 0x80000000#32 ∧
      c.globals.elfStarts .text = 0x80000000#32 ∧ c.globals.sizes .text = 0x18#32 ∧
      loadWord c.loaded 0x10 = 0x08000000#32)) (by decide +kernel)
  obtain ⟨hep, hstart, hsize, hword⟩ := of_decide_eq_true hc
  have hblocks : relBlocks mixedElf.sections = [mixedBlock] := by decide +kernel
  have hoff : relOff c.globals ⟨0x80000010, 4⟩ = 0x10 := by
    rw [relOff, hep]
    decide
  have htarget : archTarget (GElfRel.addr ⟨0x80000010, 4⟩)
      (loadWord c.loaded (relOff c.globals ⟨0x80000010, 4⟩)) = 0x80000000#32 := by
    rw [hoff, hword]
    decide
  have hiff := convert_jump_iff hconvert (by decide +kernel) (by decide +kernel)
    (b := mixedBlock) (e := ⟨0x80000010, 4⟩) (by rw [hblocks]; simp) (by decide) (by decide)
    (by rw [htarget, Globals.InText, hstart, hsize]; decide) (by rw [htarget, hstart])
  rw [htarget, hstart, hoff] at hiff
  exact ⟨c, hconvert, hiff.mpr (by decide)⟩

/-- A jump to itself, linked at 0x00400000. -/
def lowElf : Elf where
  kind := .elf
  eMachine := emMips
  eEntry := 0x00400000
  sections := [
    ⟨OvlSection.text.name, shtProgbits, 0x00400000, 8,
      some ⟨[0x08100000, 0x00000000].flatMap wordBytes, []⟩⟩,
    ⟨['.', 'r', 'e', 'l'] ++ OvlSection.text.name, 9, 0, 8, some ⟨[], [⟨0x00400000, 4⟩]⟩⟩]

/-- It goes to 0x80400000 afterwards, and not to itself. -/
theorem lowElf_jump_astray :
    ∃ c, convert lowElf 0x80800000 = .ok c ∧
      archTarget 0x00400000 (loadWord c.loaded 0) = 0x00400000#32 ∧
      archTarget 0x80800000 (loadWord c.memory 0) = 0x80400000#32 := by
  obtain ⟨c, hconvert, hc⟩ := exists_ok_of_map (x := convert lowElf 0x80800000)
    (fun c => decide (archTarget 0x00400000 (loadWord c.loaded 0) = 0x00400000#32 ∧
      archTarget 0x80800000 (loadWord c.memory 0) = 0x80400000#32)) (by decide +kernel)
  exact ⟨c, hconvert, of_decide_eq_true hc⟩

end Novl
