import Novl.Overlay

/-!
The file the converter writes.

The header and the table are written first, at the place where the
sections will end; then the footer, aligned so that the file ends on a
multiple of 16; then the sections, over the gap in front. The overlay
addresses were predicted from the sizes and the number of entries, and
the writer compares its positions with them. Both agree when the base
address is a multiple of 16 and the file ends below the top of the
address space.
-/

namespace Novl

open ByteMemory FallibleRun

@[simp] theorem length_wordBytes (w : Word) : (wordBytes w).length = 4 := rfl

@[simp] theorem length_flatMap_wordBytes (ws : List Word) :
    (ws.flatMap wordBytes).length = 4 * ws.length := by
  induction ws with
  | nil => rfl
  | cons w ws ih =>
      rw [List.flatMap_cons, List.length_append, ih, length_wordBytes, List.length_cons]
      omega

@[simp] theorem length_newHead (sizes : OvlSection → Word) (count : ℤ) :
    (newHead sizes count).length = 5 := rfl

/-- The words of the table that are written. -/
def writtenRelocs (relocs : List Word) : List Word := relocs.takeWhile (· ≠ 0)

/-- Header and table as bytes. -/
def headBytes (sizes : OvlSection → Word) (count : ℤ) (relocs : List Word) : List Byte :=
  (newHead sizes count).flatMap wordBytes ++ (writtenRelocs relocs).flatMap wordBytes

/-- Where the table ends. -/
def headEnd (sizes : OvlSection → Word) (relocs : List Word) : ℕ :=
  (headerAddr sizes).toNat + 20 + 4 * (writtenRelocs relocs).length

/-- Where the data of a section starts in the file. -/
def fileStart (sizes : OvlSection → Word) : OvlSection → ℕ
  | .text => 0
  | .data => (sizes .text).toNat
  | .rodata => (sizes .text).toNat + (sizes .data).toNat
  | .bss => (sizes .text).toNat + (sizes .data).toNat + (sizes .rodata).toNat

/-- The length of the file. -/
def fileLength (sizes : OvlSection → Word) (relocs : List Word) : ℕ :=
  (headEnd sizes relocs + 4 + 15) / 16 * 16

/-- The bytes between the table and the footer, and the footer. -/
def tailBytes (sizes : OvlSection → Word) (relocs : List Word) : List Byte :=
  List.replicate (fileLength sizes relocs - 4 - headEnd sizes relocs) 0 ++
    wordBytes (BitVec.ofNat 32 (fileLength sizes relocs - (headerAddr sizes).toNat))

/-- The file before the sections are written. -/
def tailFile (sizes : OvlSection → Word) (count : ℤ) (relocs : List Word) : SeekFile :=
  writeFooter sizes (writeHead sizes count relocs)

section Tail

variable (sizes : OvlSection → Word) (count : ℤ) (relocs : List Word)

@[simp] theorem length_headBytes :
    (headBytes sizes count relocs).length = 20 + 4 * (writtenRelocs relocs).length := by
  rw [headBytes, List.length_append, length_flatMap_wordBytes, length_flatMap_wordBytes,
    length_newHead]

theorem headEnd_le_fileLength : headEnd sizes relocs + 4 ≤ fileLength sizes relocs := by
  rw [fileLength]
  omega

theorem writeHead_eq :
    (writeHead sizes count relocs).bytes =
        List.replicate (headerAddr sizes).toNat 0 ++ headBytes sizes count relocs ∧
      (writeHead sizes count relocs).pos = headEnd sizes relocs := by
  have hne : (newHead sizes count).flatMap wordBytes ≠ [] := by
    rw [ne_eq, ← List.length_eq_zero_iff, length_flatMap_wordBytes]
    simp
  have hhead : ((SeekFile.empty.seek (headerAddr sizes).toNat).write
      ((newHead sizes count).flatMap wordBytes)).bytes =
        List.replicate (headerAddr sizes).toNat 0 ++ (newHead sizes count).flatMap wordBytes := by
    rw [SeekFile.write_bytes_of_length_le (Nat.zero_le _) hne]
    rfl
  obtain ⟨hbytes, hpos⟩ := SeekFile.foldl_write_at_end wordBytes (relocs.takeWhile (· ≠ 0))
    (f := (SeekFile.empty.seek (headerAddr sizes).toNat).write
      ((newHead sizes count).flatMap wordBytes)) (by
        rw [hhead, SeekFile.write_pos, SeekFile.seek_pos, List.length_append,
          List.length_replicate])
  refine ⟨?_, ?_⟩
  · rw [writeHead, hbytes, hhead, List.append_assoc]
    rfl
  · rw [writeHead, hpos, hbytes, hhead, List.length_append, List.length_append,
      List.length_replicate, length_flatMap_wordBytes, length_flatMap_wordBytes, length_newHead]
    rfl

theorem length_writeHead :
    (writeHead sizes count relocs).bytes.length = headEnd sizes relocs := by
  rw [(writeHead_eq sizes count relocs).1, List.length_append, List.length_replicate,
    length_headBytes, headEnd]
  omega

theorem headerAddr_le_headEnd : (headerAddr sizes).toNat + 20 ≤ headEnd sizes relocs := by
  rw [headEnd]
  omega

theorem toInt_ofNat_of_lt {p : ℕ} (hp : p < 2 ^ 31) : (BitVec.ofNat 32 p).toInt = p := by
  rw [BitVec.toInt_eq_toNat_of_lt, BitVec.toNat_ofNat]
  · congr 1
    omega
  · rw [BitVec.toNat_ofNat]
    omega

/-- The footer of a file whose table ends below `2 ^ 31`. -/
theorem tailFile_eq (hshort : headEnd sizes relocs < 2 ^ 31) :
    (tailFile sizes count relocs).bytes =
        List.replicate (headerAddr sizes).toNat 0 ++
          (headBytes sizes count relocs ++ tailBytes sizes relocs) ∧
      (tailFile sizes count relocs).pos = fileLength sizes relocs := by
  obtain ⟨hbytes, hpos⟩ := writeHead_eq sizes count relocs
  have hlen := length_writeHead sizes count relocs
  have hheader := headerAddr_le_headEnd sizes relocs
  have hmod : ((headEnd sizes relocs : ℤ) + 4).tmod 16 = ((headEnd sizes relocs + 4) % 16 : ℕ) := by
    rw [Int.tmod_eq_emod_of_nonneg (by omega)]
    omega
  have hback : BitVec.ofNat 32 (headEnd sizes relocs) - headerAddr sizes + 4 =
      BitVec.ofNat 32 (headEnd sizes relocs + 4 - (headerAddr sizes).toNat) := by
    apply BitVec.eq_of_toNat_eq
    rw [BitVec.toNat_add, BitVec.toNat_sub, BitVec.toNat_ofNat, BitVec.toNat_ofNat]
    have h4 : (4 : Word).toNat = 4 := rfl
    rw [h4]
    omega
  have hne (w : Word) : wordBytes w ≠ [] := List.cons_ne_nil _ _
  rw [tailFile, writeFooter]
  simp only [hpos, toInt_ofNat_of_lt hshort, hmod, hback]
  -- The seek in front of the footer is only made off a 16-byte boundary.
  by_cases haligned : (headEnd sizes relocs + 4) % 16 = 0
  · have hfile : fileLength sizes relocs = headEnd sizes relocs + 4 := by
      rw [fileLength]
      omega
    rw [if_neg (by simp [haligned])]
    refine ⟨?_, ?_⟩
    · rw [SeekFile.write_bytes_at_end _ (by rw [hpos, hlen]), hbytes, tailBytes, hfile,
        Nat.add_sub_cancel, Nat.sub_self, List.replicate_zero, List.nil_append,
        List.append_assoc]
    · rw [SeekFile.write_pos, hpos, length_wordBytes, hfile]
  · have hnew : (headEnd sizes relocs : ℤ) - ((headEnd sizes relocs + 4) % 16 : ℕ) + 16 =
        (fileLength sizes relocs - 4 : ℕ) := by
      rw [fileLength]
      omega
    have hfooter : BitVec.ofNat 32 (headEnd sizes relocs + 4 - (headerAddr sizes).toNat) +
        BitVec.ofInt 32 ((fileLength sizes relocs - 4 : ℕ) - (headEnd sizes relocs : ℤ)) =
          BitVec.ofNat 32 (fileLength sizes relocs - (headerAddr sizes).toNat) := by
      have hle := headEnd_le_fileLength sizes relocs
      rw [show ((fileLength sizes relocs - 4 : ℕ) - (headEnd sizes relocs : ℤ)) =
          ((fileLength sizes relocs - 4 - headEnd sizes relocs : ℕ) : ℤ) by omega,
        BitVec.ofInt_natCast, ← BitVec.ofNat_add]
      congr 1
      omega
    rw [if_pos (by omega), hnew, hfooter, fseek, if_pos (by omega),
      Int.toNat_natCast]
    have hle := headEnd_le_fileLength sizes relocs
    refine ⟨?_, ?_⟩
    · rw [SeekFile.write_bytes_of_length_le
          (by rw [SeekFile.seek_bytes, SeekFile.seek_pos, hlen]; omega) (hne _),
        SeekFile.seek_bytes, SeekFile.seek_pos, hlen, hbytes, tailBytes, List.append_assoc,
        List.append_assoc]
    · rw [SeekFile.write_pos, SeekFile.seek_pos, length_wordBytes]
      omega

theorem length_tailFile (hshort : headEnd sizes relocs < 2 ^ 31) :
    (tailFile sizes count relocs).bytes.length = fileLength sizes relocs := by
  have hle := headEnd_le_fileLength sizes relocs
  rw [(tailFile_eq sizes count relocs hshort).1]
  simp only [tailBytes, List.length_append, length_headBytes, List.length_replicate,
    length_wordBytes]
  rw [headEnd] at hle ⊢
  omega

/-- However the footer comes to lie, the table stays in front of it. -/
theorem headEnd_le_length_tailFile :
    headEnd sizes relocs ≤ (tailFile sizes count relocs).bytes.length := by
  rw [← length_writeHead sizes count relocs, tailFile, writeFooter]
  simp only
  split
  · refine le_trans (le_of_eq ?_) (SeekFile.length_le_write _ _)
    rw [fseek]
    split <;> rfl
  · exact SeekFile.length_le_write _ _

end Tail

/-! ### The sections -/

section Sections

variable {base : Word} {starts : OvlSection → Word}
  {contents : OvlSection → Except Stop (List Byte)} {t d r rest : List Byte} {f : SeekFile}

theorem writeSection_eq {i : OvlSection} {bs : List Byte}
    (hpos : (starts i).toNat = f.pos + base.toNat) (hcontents : contents i = .ok bs) :
    writeSection base starts contents f i = .ok (f.write bs) := by
  rw [writeSection, if_neg (not_not.mpr hpos), hcontents]

theorem writeSection_ok {i : OvlSection} {f' : SeekFile}
    (hrun : writeSection base starts contents f i = .ok f') :
    ∃ bs, contents i = .ok bs ∧ f' = f.write bs := by
  rw [writeSection] at hrun
  split at hrun
  · cases hrun
  · split at hrun
    · cases hrun
    · rename_i bs hbs
      cases hrun
      exact ⟨bs, hbs, rfl⟩

/-- The sections fill the gap in front of the header. -/
theorem writeSections_eq (ht : contents .text = .ok t) (hd : contents .data = .ok d)
    (hr : contents .rodata = .ok r) (htext : (starts .text).toNat = base.toNat)
    (hdata : (starts .data).toNat = t.length + base.toNat)
    (hrodata : (starts .rodata).toNat = t.length + d.length + base.toNat)
    (hbytes : f.bytes = List.replicate (t.length + d.length + r.length) 0 ++ rest) :
    ∃ f', [OvlSection.text, .data, .rodata].foldlM (writeSection base starts contents)
        (f.seek 0) = .ok f' ∧
      f'.bytes = t ++ d ++ r ++ rest ∧ f'.pos = t.length + d.length + r.length := by
  have hgap : List.replicate (t.length + d.length + r.length) (0 : Byte) =
      List.replicate t.length 0 ++ (List.replicate d.length 0 ++ List.replicate r.length 0) := by
    rw [Nat.add_assoc, List.replicate_add, List.replicate_add]
  have hgap₀ : (f.seek 0).bytes = [] ++ List.replicate t.length 0 ++
      (List.replicate d.length 0 ++ (List.replicate r.length 0 ++ rest)) := by
    rw [SeekFile.seek_bytes, hbytes, hgap, List.nil_append, List.append_assoc, List.append_assoc]
  have h₁ := SeekFile.write_bytes_over hgap₀ rfl (by rw [List.length_replicate] :
    t.length = _)
  rw [List.nil_append, ← List.append_assoc] at h₁
  have h₂ := SeekFile.write_bytes_over h₁ (by simp) (by rw [List.length_replicate] :
    d.length = _)
  rw [← List.append_assoc] at h₂
  have h₃ := SeekFile.write_bytes_over h₂ (by simp) (by rw [List.length_replicate] :
    r.length = _)
  refine ⟨(((f.seek 0).write t).write d).write r, ?_, h₃, by simp⟩
  rw [List.foldlM_cons, writeSection_eq (by simpa using htext) ht]
  change [OvlSection.data, .rodata].foldlM (writeSection base starts contents)
    ((f.seek 0).write t) = _
  rw [List.foldlM_cons, writeSection_eq (by simpa using hdata) hd]
  change [OvlSection.rodata].foldlM (writeSection base starts contents)
    (((f.seek 0).write t).write d) = _
  rw [List.foldlM_cons, writeSection_eq (by simpa using hrodata) hr]
  rfl

end Sections

/-! ### The layout checks -/

/-- The three section sizes are at most that of `memory`. -/
def SizesFit (sizes : OvlSection → Word) : Prop :=
  ∀ i, i ≠ .bss → (sizes i).toNat ≤ memorySize

theorem SizesFit.toNat_headerAddr {sizes : OvlSection → Word} (h : SizesFit sizes) :
    (headerAddr sizes).toNat =
      (sizes .text).toNat + (sizes .data).toNat + (sizes .rodata).toNat := by
  have htext := h .text (by decide)
  have hdata := h .data (by decide)
  have hrodata := h .rodata (by decide)
  rw [memorySize] at htext hdata hrodata
  rw [headerAddr, BitVec.toNat_add, BitVec.toNat_add]
  omega

theorem toNat_and_not_15 (x : Word) : (x &&& ~~~15#32).toNat = x.toNat / 16 * 16 :=
  LowMask.toNat_and_not_mask (n := 4) (by omega) x

/-- Where the converter predicts `.bss` when the table gets the predicted
number of words. -/
theorem toNat_overlayStarts_bss (base : Word) (sizes : OvlSection → Word)
    (relocs : List Word) :
    (overlayStarts base sizes (writtenRelocs relocs).length .bss).toNat =
      (base.toNat + headEnd sizes relocs + 19) % 2 ^ 32 / 16 * 16 := by
  have hcount : BitVec.ofInt 32 (((writtenRelocs relocs).length : ℤ) * 4) =
      BitVec.ofNat 32 (4 * (writtenRelocs relocs).length) := by
    rw [← BitVec.ofInt_natCast]
    congr 1
    omega
  have hsum : base + sizes .text + sizes .data + sizes .rodata = base + headerAddr sizes := by
    rw [headerAddr, ← BitVec.add_assoc, ← BitVec.add_assoc]
  rw [overlayStarts]
  change (_ &&& ~~~15#32).toNat = _
  rw [toNat_and_not_15, hcount, hsum]
  congr 2
  simp only [BitVec.toNat_add, BitVec.toNat_ofNat, headEnd,
    show (5 * 4 : Word).toNat = 20 by rfl, show (4 : Word).toNat = 4 by rfl,
    show (15 : Word).toNat = 15 by rfl, Nat.mod_add_mod, Nat.add_mod_mod]
  congr 1
  omega

/-- What the first layout check comes to. -/
theorem overlayStarts_bss_eq_iff {base : Word} {sizes : OvlSection → Word}
    {relocs : List Word} :
    (overlayStarts base sizes (writtenRelocs relocs).length .bss).toNat =
        fileLength sizes relocs + base.toNat ↔
      base.toNat % 16 = 0 ∧ base.toNat + fileLength sizes relocs < 2 ^ 32 := by
  rw [toNat_overlayStarts_bss, fileLength]
  have hbase := base.isLt
  omega

/-- The file that passes the layout checks. -/
def overlayBytes (sizes : OvlSection → Word) (count : ℤ) (relocs : List Word)
    (t d r : List Byte) : List Byte :=
  t ++ d ++ r ++ (headBytes sizes count relocs ++ tailBytes sizes relocs)

theorem length_overlayBytes {sizes : OvlSection → Word} {count : ℤ} {relocs : List Word}
    {t d r : List Byte} (hheader : (headerAddr sizes).toNat = t.length + d.length + r.length) :
    (overlayBytes sizes count relocs t d r).length = fileLength sizes relocs := by
  have hend := headEnd_le_fileLength sizes relocs
  have hstart := headerAddr_le_headEnd sizes relocs
  simp only [overlayBytes, tailBytes, List.length_append, length_headBytes,
    List.length_replicate, length_wordBytes]
  rw [headEnd] at hend hstart ⊢
  omega

/-- The file from the header on. -/
theorem drop_overlayBytes {sizes : OvlSection → Word} (count : ℤ) (relocs : List Word)
    {t d r : List Byte} (hheader : (headerAddr sizes).toNat = t.length + d.length + r.length) :
    (overlayBytes sizes count relocs t d r).drop (headerAddr sizes).toNat =
      headBytes sizes count relocs ++ tailBytes sizes relocs := by
  have hlen : (headerAddr sizes).toNat = (t ++ d ++ r).length := by
    rw [hheader, List.length_append, List.length_append]
  rw [overlayBytes, hlen, List.drop_left]

/-- The last word of the file leads back to the header. -/
theorem fileWord_footer {sizes : OvlSection → Word} (count : ℤ) (relocs : List Word)
    (t d r : List Byte) (hheader : (headerAddr sizes).toNat = t.length + d.length + r.length) :
    fileWord (overlayBytes sizes count relocs t d r) ((fileLength sizes relocs : ℤ) - 4) =
      some (BitVec.ofNat 32 (fileLength sizes relocs - (headerAddr sizes).toNat)) := by
  have hend := headEnd_le_fileLength sizes relocs
  have hstart := headerAddr_le_headEnd sizes relocs
  have hsplit : overlayBytes sizes count relocs t d r =
      (t ++ d ++ r ++ (headBytes sizes count relocs ++
        List.replicate (fileLength sizes relocs - 4 - headEnd sizes relocs) 0)) ++
      (wordBytes (BitVec.ofNat 32 (fileLength sizes relocs - (headerAddr sizes).toNat)) ++
        []) := by
    simp only [overlayBytes, tailBytes, List.append_assoc, List.append_nil]
  have hlen : (t ++ d ++ r ++ (headBytes sizes count relocs ++
      List.replicate (fileLength sizes relocs - 4 - headEnd sizes relocs) (0 : Byte))).length =
        fileLength sizes relocs - 4 := by
    simp only [List.length_append, length_headBytes, List.length_replicate]
    rw [headEnd] at hend hstart ⊢
    omega
  have hword := fileWord_append (t ++ d ++ r ++ (headBytes sizes count relocs ++
    List.replicate (fileLength sizes relocs - 4 - headEnd sizes relocs) 0)) []
    (BitVec.ofNat 32 (fileLength sizes relocs - (headerAddr sizes).toNat))
  rw [← hsplit, hlen] at hword
  rw [← hword]
  congr 1
  omega

section Write

variable {base : Word} {sizes : OvlSection → Word} {count : ℤ} {relocs : List Word}
  {contents : OvlSection → Except Stop (List Byte)} {t d r : List Byte}

/-- With a suitable base address the writer gets through. -/
theorem writeOverlay_eq (hsizes : SizesFit sizes) (ht : contents .text = .ok t)
    (hd : contents .data = .ok d) (hr : contents .rodata = .ok r)
    (htlen : t.length = (sizes .text).toNat) (hdlen : d.length = (sizes .data).toNat)
    (hrlen : r.length = (sizes .rodata).toNat) (hshort : headEnd sizes relocs < 2 ^ 31)
    (hbase : base.toNat % 16 = 0)
    (hend : base.toNat + fileLength sizes relocs < 2 ^ 32) :
    ∃ f, writeOverlay base (overlayStarts base sizes (writtenRelocs relocs).length) sizes count
        relocs contents = .ok f ∧ f.bytes = overlayBytes sizes count relocs t d r := by
  obtain ⟨hbytes, hpos⟩ := tailFile_eq sizes count relocs hshort
  have hheader := hsizes.toNat_headerAddr
  have hle := headEnd_le_fileLength sizes relocs
  have hle' := headerAddr_le_headEnd sizes relocs
  rw [← htlen, ← hdlen, ← hrlen] at hheader
  rw [hheader] at hbytes
  have hdata : (overlayStarts base sizes (writtenRelocs relocs).length .data).toNat =
      t.length + base.toNat := by
    rw [overlayStarts, BitVec.toNat_add]
    omega
  have hrodata : (overlayStarts base sizes (writtenRelocs relocs).length .rodata).toNat =
      t.length + d.length + base.toNat := by
    rw [overlayStarts, BitVec.toNat_add, BitVec.toNat_add]
    omega
  have htext : (overlayStarts base sizes (writtenRelocs relocs).length .text).toNat =
      base.toNat := rfl
  obtain ⟨f, hrun, hfbytes, hfpos⟩ := writeSections_eq ht hd hr htext hdata hrodata hbytes
  refine ⟨f, ?_, hfbytes⟩
  have hbss := overlayStarts_bss_eq_iff.mpr ⟨hbase, hend⟩
  rw [← hpos] at hbss
  rw [writeOverlay, ← tailFile, if_neg (not_not.mpr hbss), hrun]
  exact if_neg (by rw [hheader, hfpos]; simp)

/-- The writer stops at its first check with any other base address. -/
theorem writeOverlay_inv {f : SeekFile} (hshort : headEnd sizes relocs < 2 ^ 31)
    (hrun : writeOverlay base (overlayStarts base sizes (writtenRelocs relocs).length) sizes
      count relocs contents = .ok f) :
    base.toNat % 16 = 0 ∧ base.toNat + fileLength sizes relocs < 2 ^ 32 := by
  obtain ⟨-, hpos⟩ := tailFile_eq sizes count relocs hshort
  rw [← overlayStarts_bss_eq_iff, ← hpos]
  by_contra hne
  rw [writeOverlay, ← tailFile, if_pos hne] at hrun
  cases hrun

/-- A file that was written holds the three sections. -/
theorem writeOverlay_sections {starts : OvlSection → Word} {f : SeekFile}
    (hrun : writeOverlay base starts sizes count relocs contents = .ok f) :
    ∃ t d r, contents .text = .ok t ∧ contents .data = .ok d ∧ contents .rodata = .ok r ∧
      f = ((((tailFile sizes count relocs).seek 0).write t).write d).write r := by
  rw [writeOverlay, ← tailFile] at hrun
  split at hrun
  · cases hrun
  · split at hrun
    · cases hrun
    · rename_i f' hsections
      split at hrun
      · cases hrun
      · cases hrun
        rw [List.foldlM_cons] at hsections
        obtain ⟨f₁, htext, hsections⟩ := exists_of_bind_eq_ok hsections
        rw [List.foldlM_cons] at hsections
        obtain ⟨f₂, hdata, hsections⟩ := exists_of_bind_eq_ok hsections
        rw [List.foldlM_cons] at hsections
        obtain ⟨f₃, hrodata, hsections⟩ := exists_of_bind_eq_ok hsections
        cases hsections
        obtain ⟨t, ht, rfl⟩ := writeSection_ok htext
        obtain ⟨d, hd, rfl⟩ := writeSection_ok hdata
        obtain ⟨r, hr, rfl⟩ := writeSection_ok hrodata
        exact ⟨t, d, r, ht, hd, hr, rfl⟩

/-- The table lies inside the file whatever its length. -/
theorem headEnd_le_length_of_writeOverlay {starts : OvlSection → Word} {f : SeekFile}
    (hrun : writeOverlay base starts sizes count relocs contents = .ok f) :
    headEnd sizes relocs ≤ f.bytes.length := by
  obtain ⟨t, d, r, -, -, -, rfl⟩ := writeOverlay_sections hrun
  calc headEnd sizes relocs
      ≤ (tailFile sizes count relocs).bytes.length :=
        headEnd_le_length_tailFile sizes count relocs
    _ ≤ (((tailFile sizes count relocs).seek 0).write t).bytes.length :=
        SeekFile.length_le_write ((tailFile sizes count relocs).seek 0) t
    _ ≤ ((((tailFile sizes count relocs).seek 0).write t).write d).bytes.length :=
        SeekFile.length_le_write _ d
    _ ≤ _ := SeekFile.length_le_write _ r

end Write

/-- All layout checks pass, for sections of the sizes they were given and a
table of the predicted length, if and only if the base address is a
multiple of 16 and the file ends below the top of the address space. Then
the length of the file is a multiple of 4, and its last word leads from
its end back to the header. -/
theorem writeOverlay_ok_iff {base : Word} {sizes : OvlSection → Word} {count : ℤ}
    {relocs : List Word} {contents : OvlSection → Except Stop (List Byte)}
    (hsizes : SizesFit sizes)
    (hcontents : ∀ i, i ≠ .bss → ∃ bs, contents i = .ok bs ∧ bs.length = (sizes i).toNat)
    (hshort : (tailFile sizes count relocs).bytes.length < 2 ^ 31) :
    ((∃ f, writeOverlay base (overlayStarts base sizes (writtenRelocs relocs).length) sizes count
        relocs contents = .ok f) ↔
      base.toNat % 16 = 0 ∧
        base.toNat + (tailFile sizes count relocs).bytes.length < 2 ^ 32) ∧
    ∀ f, writeOverlay base (overlayStarts base sizes (writtenRelocs relocs).length) sizes count
        relocs contents = .ok f →
      f.bytes.length = (tailFile sizes count relocs).bytes.length ∧ f.bytes.length % 4 = 0 ∧
      ∃ w, fileWord f.bytes (f.bytes.length - 4) = some w ∧
        (f.bytes.length : ℤ) - w.toInt = (headerAddr sizes).toNat := by
  obtain ⟨t, ht, htlen⟩ := hcontents .text (by decide)
  obtain ⟨d, hd, hdlen⟩ := hcontents .data (by decide)
  obtain ⟨r, hr, hrlen⟩ := hcontents .rodata (by decide)
  have hshort' : headEnd sizes relocs < 2 ^ 31 :=
    (headEnd_le_length_tailFile sizes count relocs).trans_lt hshort
  have hlen := length_tailFile sizes count relocs hshort'
  rw [hlen] at hshort ⊢
  refine ⟨⟨?_, ?_⟩, fun f hf => ?_⟩
  · rintro ⟨f, hf⟩
    exact writeOverlay_inv hshort' hf
  · rintro ⟨hbase, hend⟩
    obtain ⟨f, hf, -⟩ :=
      writeOverlay_eq hsizes ht hd hr htlen hdlen hrlen hshort' hbase hend
    exact ⟨f, hf⟩
  · obtain ⟨hbase, hend⟩ := writeOverlay_inv hshort' hf
    obtain ⟨f', hf', hbytes⟩ :=
      writeOverlay_eq hsizes ht hd hr htlen hdlen hrlen hshort' hbase hend
    obtain rfl : f' = f := Except.ok.inj (hf'.symm.trans hf)
    have hheader := hsizes.toNat_headerAddr
    rw [← htlen, ← hdlen, ← hrlen] at hheader
    have hlength : f'.bytes.length = fileLength sizes relocs := by
      rw [hbytes, length_overlayBytes hheader]
    have hle := headEnd_le_fileLength sizes relocs
    have hle' := headerAddr_le_headEnd sizes relocs
    have hfooter := fileWord_footer count relocs t d r hheader
    rw [← hbytes, ← hlength] at hfooter
    refine ⟨hlength, by rw [hlength, fileLength]; omega, _, hfooter, ?_⟩
    rw [hlength, toInt_ofNat_of_lt (by omega)]
    omega

def mixedSizes : OvlSection → Word
  | .text => 0x20
  | .data => 0x18
  | .rodata => 0
  | .bss => 0x40

theorem writeOverlay_ok_at_0x80800000 :
    ∃ f, writeOverlay 0x80800000#32
      (overlayStarts 0x80800000#32 mixedSizes (writtenRelocs [0x42000014#32]).length) mixedSizes 1
      [0x42000014#32] (fun i => .ok (List.replicate (mixedSizes i).toNat 0)) = .ok f := by
  have hsizes : SizesFit mixedSizes := by
    intro i _
    cases i <;> decide
  exact (writeOverlay_ok_iff hsizes (fun i _ => ⟨_, rfl, List.length_replicate⟩)
    (by decide +kernel)).1.mpr (by decide +kernel)

end Novl
