import Mathlib.Data.List.GetD
import Novl.Convert

/-!
The overlay reader, `overlay.h` and `overlay.c`, and the section listing
of `main.c`.

The reader takes its offsets and counts from the file it reads. An access
outside the bytes read ends the model with `LoadStop.undefinedBehaviour`,
and a pointer into them is given by its position. Opening, reading and
allocating succeed, except that a negative size cannot be allocated. A read
from an object that has been freed ends the model in the same way.
-/

namespace Novl

open ByteMemory

/-- `OVL_RELOC_GET_ADDR`. -/
def ovlRelocGetAddr (r : Word) : Word := r &&& 0x00FFFFFF#32

/-- `OVL_RELOC_GET_SEC`. -/
def ovlRelocGetSec (r : Word) : Word := r >>> 30 - 1#32

/-- `OVL_RELOC_GET_TYPE`. -/
def ovlRelocGetType (r : Word) : Word := r >>> 24 &&& 0x3F#32

/-- `struct ovl_header_t`. -/
structure OvlHeader where
  sizes : OvlSection → Word
  relocationCount : Word

/-- `struct ovl_section_t`. -/
structure OvlSectionInfo where
  addr : Word
  size : ℤ
  /-- The pointer into the file's bytes; `none` is null. -/
  data : Option ℕ
  deriving DecidableEq, Repr

/-- `struct ovl_t`. -/
structure Ovl where
  sections : OvlSection → OvlSectionInfo
  relocationCount : ℤ
  data : List Byte
  filesize : ℤ
  relocations : List Word

/-- How loading ends without an overlay. -/
inductive LoadStop
  | mallocFailed
  | notAnOverlay
  | undefinedBehaviour
  deriving DecidableEq, Repr

/-- The bytes of a file as a memory. -/
def fileMemory (bytes : List Byte) : Memory := fun a => bytes.getD a 0

/-- The word at a position of the file's bytes, if it lies in them. -/
def fileWord (bytes : List Byte) (p : ℤ) : Option Word :=
  if 0 ≤ p ∧ p + 4 ≤ bytes.length then some (loadWord (fileMemory bytes) p.toNat) else none

/-- Read the header the last word of the file points back to. The second
component is where it starts. -/
def ovlGetHeader (data : List Byte) (filesize : ℤ) : Except LoadStop (OvlHeader × ℤ) :=
  match fileWord data (filesize - 4) with
  | none => .error .undefinedBehaviour
  | some w =>
    let offset := w.toInt
    if offset > filesize ∨ offset.tmod 4 ≠ 0 then .error .notAnOverlay
    else
      let ptr := filesize - offset
      match (List.range 5).mapM fun (i : ℕ) => fileWord data (ptr + 4 * i) with
      | none => .error .undefinedBehaviour
      | some ws =>
        .ok (⟨fun i => ws.getD i.index 0, ws.getD 4 0⟩, ptr)

/-- The loop over the sections, with its running `total`. -/
def ovlSections (sizes : OvlSection → Word) : OvlSection → OvlSectionInfo :=
  (OvlSection.all.foldl
    (fun (acc : (OvlSection → OvlSectionInfo) × Word) i =>
      (Function.update acc.1 i
        { addr := acc.2
          size := (sizes i).toInt
          data := if i ≠ .bss then some acc.2.toNat else none },
        acc.2 + sizes i))
    (fun _ => ⟨0, 0, none⟩, 0)).1

/-- Create an OVL object from the bytes of a file. `filesize` is an `int`;
a negative relocation count leaves the loop over the words empty. -/
def ovlLoad (bytes : List Byte) : Except LoadStop Ovl :=
  let filesize := (BitVec.ofNat 32 bytes.length).toInt
  if filesize < 0 then .error .mallocFailed
  else
    let data := bytes.take filesize.toNat
    match ovlGetHeader data filesize with
    -- `free( ovl )` comes first, then `ovl->data` is read to be freed
    | .error _ => .error .undefinedBehaviour
    | .ok (head, ptr) =>
      let raw := ptr + 20
      let relocationCount := head.relocationCount.toInt
      match (List.range relocationCount.toNat).mapM
          fun (i : ℕ) => fileWord data (raw + 4 * i) with
      | none => .error .undefinedBehaviour
      | some relocations =>
        .ok ⟨ovlSections head.sizes, relocationCount, data, filesize, relocations⟩

/-- The bytes a section exposes. -/
def Ovl.sectionBytes (ovl : Ovl) (i : OvlSection) : List Byte :=
  match (ovl.sections i).data with
  | none => []
  | some p => (ovl.data.drop p).take (ovl.sections i).size.toNat

/-- `list_sections`: for each section the name, address and size that are
printed. -/
def listSections (base : Word) (ovl : Ovl) : List (List Char × Word × ℤ) :=
  OvlSection.all.map fun i => (i.name, base + (ovl.sections i).addr, (ovl.sections i).size)

/-! ### Words of a file -/

/-- A word is found where its bytes were put. -/
theorem fileWord_append (pre post : List Byte) (w : Word) :
    fileWord (pre ++ (wordBytes w ++ post)) pre.length = some w := by
  have hword : loadWord (fileMemory (pre ++ (wordBytes w ++ post))) pre.length = w := by
    apply eq_of_wordByte_eq
    intro k hk
    rw [wordByte_loadWord _ _ hk, fileMemory, List.getD_append_right _ _ _ _ (by omega),
      Nat.add_sub_cancel_left]
    interval_cases k <;> rfl
  rw [fileWord, if_pos, Int.toNat_natCast, hword]
  refine ⟨by omega, ?_⟩
  rw [List.length_append, List.length_append]
  simp only [wordBytes, List.length_cons, List.length_nil]
  omega

/-! ### Sections -/

theorem ovlSections_eq (sizes : OvlSection → Word) (i : OvlSection) :
    ovlSections sizes i =
      match i with
      | .text => ⟨0, (sizes .text).toInt, some 0⟩
      | .data => ⟨sizes .text, (sizes .data).toInt, some (sizes .text).toNat⟩
      | .rodata =>
        ⟨sizes .text + sizes .data, (sizes .rodata).toInt, some (sizes .text + sizes .data).toNat⟩
      | .bss => ⟨headerAddr sizes, (sizes .bss).toInt, none⟩ := by
  cases i <;>
    simp [ovlSections, OvlSection.all, headerAddr]

/-! ### The fields of an overlay relocation -/

theorem getLsbD_addrMask (i : ℕ) : (0x00FFFFFF#32).getLsbD i = decide (i < 24) :=
  LowMask.getLsbD_mask (n := 24) (by omega) i

theorem getLsbD_typeMask (i : ℕ) : (0x3F#32).getLsbD i = decide (i < 6) :=
  LowMask.getLsbD_mask (n := 6) (by omega) i

theorem ovlRelocGetAddr_mk (sec offset type : Word) :
    ovlRelocGetAddr (novlRelocMk sec offset type) = offset &&& 0x00FFFFFF#32 := by
  apply BitVec.eq_of_getLsbD_eq
  intro i hi
  simp only [ovlRelocGetAddr, novlRelocMk, BitVec.getLsbD_and, BitVec.getLsbD_or,
    BitVec.getLsbD_shiftLeft, getLsbD_addrMask, getLsbD_typeMask]
  by_cases h : i < 24
  · simp [h, show i < 30 by omega]
  · simp [h]

theorem ovlRelocGetType_mk (sec offset type : Word) :
    ovlRelocGetType (novlRelocMk sec offset type) = type &&& 0x3F#32 := by
  apply BitVec.eq_of_getLsbD_eq
  intro i hi
  simp only [ovlRelocGetType, novlRelocMk, BitVec.getLsbD_and, BitVec.getLsbD_or,
    BitVec.getLsbD_shiftLeft, BitVec.getLsbD_ushiftRight, getLsbD_addrMask, getLsbD_typeMask]
  by_cases h : i < 6
  · simp [h, show 24 + i < 30 by omega, show ¬ 24 + i < 24 by omega, show 24 + i < 32 by omega]
  · simp [h]

/-- The section number is kept modulo four. -/
theorem ovlRelocGetSec_mk (sec offset type : Word) :
    ovlRelocGetSec (novlRelocMk sec offset type) = (sec &&& 3#32) - 1#32 := by
  have hsec : novlRelocMk sec offset type >>> 30 = sec &&& 3#32 := by
    apply BitVec.eq_of_getLsbD_eq
    intro i hi
    have hmask : (3#32).getLsbD i = decide (i < 2) := LowMask.getLsbD_mask (n := 2) (by omega) i
    simp only [novlRelocMk, BitVec.getLsbD_and, BitVec.getLsbD_or, BitVec.getLsbD_shiftLeft,
      BitVec.getLsbD_ushiftRight, getLsbD_addrMask, getLsbD_typeMask, hmask]
    by_cases h : i < 2
    · simp [h, show 30 + i < 32 by omega, show ¬ 30 + i < 24 by omega,
        show ¬ 30 + i - 24 < 6 by omega]
    · simp [h, show ¬ 30 + i < 32 by omega, show ¬ 30 + i < 24 by omega]
  rw [ovlRelocGetSec, hsec]

end Novl
