import Novl.MovingBytes

/-!
Does the table name everything that depends on the base address?

Two conversions of one input differ only in bytes that move with the base,
and such a byte is named by the table if its entry is still there and the
position is one in the entry's own section. So the files agree outside the
named words, at all bases, exactly when no entry with a moving byte has
been deleted, and no moving byte is shown by another section as well.
-/

namespace Novl

open ByteMemory FallibleRun

/-- The globals of a conversion at base 0. -/
def Converted.atZero (c : Converted) : Globals :=
  { c.globals with ovlStarts := overlayStarts 0#32 c.globals.sizes c.nintyCountPred }

/-- The base addresses of an overlay laid out at base 0: multiples of 16
behind which everything in front of `.bss` ends below 2^32. -/
def Globals.UsableBase (g : Globals) (base : Word) : Prop :=
  base.toNat % 16 = 0 ∧ base.toNat + (g.ovlStarts .bss).toNat < 2 ^ 32

section TwoBases

variable {elf : Elf} {base base' : Word} {c c' : Converted}

/-- A conversion at another base, in terms of the first one. -/
theorem Conversion.globals_eq_moved (h : Conversion elf base c) (h' : Conversion elf base' c')
    (hplaced : WellPlaced c.globals.elfEp (relBlocks elf.sections)) :
    c'.globals = c.atZero.moved base' := by
  obtain ⟨hglobals, -, -, hpred, -⟩ := h.agree h' hplaced
  obtain ⟨hbase, -⟩ := h'.file_eq_of_wellPlaced ((h.wellPlaced_iff h').mp hplaced)
  have hstarts : c'.globals.ovlStarts = fun s => c.atZero.ovlStarts s + base' := by
    funext s
    rw [h'.starts, h.sizes_agree h' hplaced, hpred, overlayStarts_eq_add hbase]
    rfl
  calc c'.globals = { c'.dryGlobals with ovlStarts := c'.globals.ovlStarts } := rfl
    _ = c.atZero.moved base' := by rw [hglobals, hstarts]; rfl

theorem Conversion.memory_eq_moved (h : Conversion elf base c) (h' : Conversion elf base' c')
    (hplaced : WellPlaced c.globals.elfEp (relBlocks elf.sections)) :
    c'.memory = finalMemory (c.atZero.moved base') c.loaded (relBlocks elf.sections) := by
  obtain ⟨-, hloaded, -⟩ := h.agree h' hplaced
  rw [(h'.planned ((h.wellPlaced_iff h').mp hplaced)).1, h.globals_eq_moved h' hplaced, hloaded]

/-- A byte of an entry's word. -/
theorem Conversion.memory_at (h : Conversion elf base c) (h' : Conversion elf base' c')
    (hplaced : WellPlaced c.globals.elfEp (relBlocks elf.sections)) {b : RelBlock}
    (hb : b ∈ relBlocks elf.sections) {pre post : List GElfRel} {e : GElfRel}
    (hsplit : relList b.rels = pre ++ e :: post) {j : ℕ} (hj : j < 4) :
    c'.memory (relOff c.globals e + j) =
      wordByte (finalWord c.atZero c.loaded pre post e base') j := by
  obtain ⟨before, after, hblocks⟩ := List.append_of_mem hb
  have hplaced₀ : Placed c.atZero (visited (before ++ b :: after)) := by
    rw [← hblocks]
    exact WellPlaced.placed (g := c.atZero) hplaced
  have hword := loadWord_finalMemory_moved (m := c.loaded) base' hplaced₀ hsplit
  rw [← hblocks, ← h.memory_eq_moved h' hplaced] at hword
  rw [← hword]
  exact (wordByte_loadWord c'.memory _ hj).symm

/-- A byte outside the entries' words. -/
theorem Conversion.memory_outside (h : Conversion elf base c) (h' : Conversion elf base' c')
    (hplaced : WellPlaced c.globals.elfEp (relBlocks elf.sections)) {a : ℕ}
    (ha : ∀ b ∈ relBlocks elf.sections, ∀ e ∈ b.rels,
      a < relOff c.globals e ∨ relOff c.globals e + 4 ≤ a) :
    c'.memory a = c.loaded a := by
  rw [h.memory_eq_moved h' hplaced]
  apply finalMemory_outside
  intro e he
  obtain ⟨b, hb, heb⟩ := mem_visited.mp he
  exact ha b hb e heb

/-- The word around a byte belongs to one entry. -/
theorem WellPlaced.split_unique {g : Globals} {bs : List RelBlock}
    (hplaced : WellPlaced g.elfEp bs) {b b' : RelBlock} (hb : b ∈ bs) (hb' : b' ∈ bs)
    {pre post pre' post' : List GElfRel} {e e' : GElfRel}
    (hsplit : relList b.rels = pre ++ e :: post)
    (hsplit' : relList b'.rels = pre' ++ e' :: post') {a : ℕ}
    (hlo : relOff g e ≤ a) (hhi : a < relOff g e + 4) (hlo' : relOff g e' ≤ a)
    (hhi' : a < relOff g e' + 4) : b = b' ∧ pre = pre' ∧ e = e' ∧ post = post' := by
  have he : e ∈ b.rels := by
    rw [← mem_relList, hsplit]
    exact List.mem_append_right _ List.mem_cons_self
  have he' : e' ∈ b'.rels := by
    rw [← mem_relList, hsplit']
    exact List.mem_append_right _ List.mem_cons_self
  -- Both words contain `a`, and words at distinct addresses are apart.
  have haddr : e.addr = e'.addr := by
    by_contra hne
    have hapart := apart_of_aligned (g := g) (hplaced.aligned b hb e he)
      (hplaced.aligned b' hb' e' he') hne
    rw [Apart] at hapart
    omega
  obtain ⟨hinner, houter⟩ := List.pairwise_flatMap.mp hplaced.distinct
  have hbb : b = b' := by
    by_contra hne
    have hsymm : Std.Symm fun b b' : RelBlock => ∀ x ∈ b.rels, ∀ y ∈ b'.rels, x.addr ≠ y.addr :=
      ⟨fun _ _ h x hx y hy => (h y hy x hx).symm⟩
    exact houter.forall hb hb' hne e he e' he' haddr
  subst hbb
  obtain rfl : e = e' :=
    List.inj_on_of_nodup_map (List.pairwise_map.mpr (hinner b hb)) he he' haddr
  have hnodup : (relList b.rels).Nodup :=
    (InsertionSort.sort_perm _ _).nodup_iff.mpr
      (List.Nodup.of_map _ (List.pairwise_map.mpr (hinner b hb)))
  rw [hsplit] at hsplit'
  rw [hsplit, List.nodup_append] at hnodup
  obtain ⟨-, htail, hcross⟩ := hnodup
  have hpre : e ∉ pre := fun hmem => hcross e hmem e List.mem_cons_self rfl
  obtain ⟨rfl, -, rfl⟩ := (List.append_cons_inj_of_notMem hpre
    (List.nodup_cons.mp htail).1).mp hsplit'
  exact ⟨rfl, rfl, rfl, rfl⟩

/-- At base 0 the file ends where `.bss` starts. -/
theorem Conversion.atZero_bss (h : Conversion elf base c)
    (hplaced : WellPlaced c.globals.elfEp (relBlocks elf.sections)) :
    (c.atZero.ovlStarts .bss).toNat = fileLength c.globals.sizes c.nintyRelocs := by
  have hend := h.headEnd_lt_of_wellPlaced hplaced
  have hstarts : c.atZero.ovlStarts =
      overlayStarts 0#32 c.globals.sizes (writtenRelocs c.nintyRelocs).length := by
    rw [Converted.atZero, h.counts, h.nintyCountReal_eq, h.writtenRelocs_eq]
  rw [hstarts, toNat_overlayStarts_bss, fileLength]
  simp only [BitVec.toNat_ofNat]
  omega

/-- An input that can be converted at all can be converted at exactly the
usable base addresses. -/
theorem Conversion.usableBase_iff (h : Conversion elf base c)
    (hplaced : WellPlaced c.globals.elfEp (relBlocks elf.sections)) (base' : Word) :
    c.atZero.UsableBase base' ↔ ∃ c', convert elf base' = .ok c' := by
  rw [Globals.UsableBase, h.atZero_bss hplaced]
  constructor
  · rintro ⟨hbase, hend⟩
    obtain ⟨c', h'⟩ := h.rebase hplaced hbase hend
    exact ⟨c', h'.convert_eq⟩
  · rintro ⟨c', hc'⟩
    have h' := conversion_of_convert hc'
    obtain ⟨-, -, hrelocs, -⟩ := h.agree h' hplaced
    obtain ⟨hbase, hend, hlen, -⟩ := h'.file_eq_of_wellPlaced ((h.wellPlaced_iff h').mp hplaced)
    rw [hlen, h.sizes_agree h' hplaced, hrelocs] at hend
    exact ⟨hbase, hend⟩

/-- Base 0 and the powers of two up to 2^28 are usable. -/
theorem Conversion.usableBase_twoPow (h : Conversion elf base c)
    (hplaced : WellPlaced c.globals.elfEp (relBlocks elf.sections)) :
    c.atZero.UsableBase 0#32 ∧
      ∀ k, 4 ≤ k → k ≤ 28 → c.atZero.UsableBase (BitVec.twoPow 32 k) := by
  have hlt := h.length_file_lt hplaced
  obtain ⟨-, -, hlen, -⟩ := h.file_eq_of_wellPlaced hplaced
  rw [hlen, ← h.atZero_bss hplaced] at hlt
  refine ⟨⟨rfl, by rw [BitVec.toNat_ofNat]; omega⟩, fun k hlo hhi => ?_⟩
  have hpow : (BitVec.twoPow 32 k).toNat = 2 ^ k := by
    rw [BitVec.toNat_twoPow, Nat.mod_eq_of_lt (Nat.pow_lt_pow_right (by omega) (by omega))]
  have hmul : 2 ^ k = 16 * 2 ^ (k - 4) := by
    rw [show 16 = 2 ^ 4 by rfl, ← pow_add, Nat.add_sub_cancel' hlo]
  have hle : 2 ^ k ≤ 2 ^ 28 := Nat.pow_le_pow_right (by omega) hhi
  refine ⟨?_, by omega⟩
  rw [hpow, hmul]
  exact Nat.mul_mod_right _ _

/-- The table names the same bytes at every base. -/
theorem Conversion.named_agree (h : Conversion elf base c) (h' : Conversion elf base' c')
    (hplaced : WellPlaced c.globals.elfEp (relBlocks elf.sections)) (p : ℕ) :
    Named c'.globals.sizes c'.nintyRelocs p ↔ Named c.globals.sizes c.nintyRelocs p := by
  rw [(h.agree h' hplaced).2.2.1, h.globals_eq_moved h' hplaced]
  exact Iff.rfl

/-- A byte of a section in the file, at any base. -/
theorem Conversion.file_section_byte (h : Conversion elf base c) (h' : Conversion elf base' c')
    (hplaced : WellPlaced c.globals.elfEp (relBlocks elf.sections)) {i : OvlSection}
    (hi : i ≠ .bss) {k : ℕ} (hk : k < (c.globals.sizes i).toNat) :
    c'.file[fileStart c.globals.sizes i + k]? =
      some (c'.memory (sectionPos c.globals i + k)) := by
  have hbyte := h'.getElem?_file ((h.wellPlaced_iff h').mp hplaced) hi (k := k)
  rw [h.globals_eq_moved h' hplaced] at hbyte
  exact hbyte hk

variable {base₁ base₂ : Word} {c₁ c₂ : Converted}

/-- Behind the sections the files are the same, whatever the table names. -/
theorem Conversion.file_tail_agree (h : Conversion elf base c) (h₁ : Conversion elf base₁ c₁)
    (h₂ : Conversion elf base₂ c₂)
    (hplaced : WellPlaced c.globals.elfEp (relBlocks elf.sections)) {p : ℕ}
    (hp : (headerAddr c.globals.sizes).toNat ≤ p) : c₁.file[p]? = c₂.file[p]? := by
  have hdrop₁ := (h.file_agree h₁ hplaced).2
  have hdrop₂ := (h.file_agree h₂ hplaced).2
  rw [h.globals_eq_moved h₁ hplaced] at hdrop₁
  rw [h.globals_eq_moved h₂ hplaced] at hdrop₂
  change c₁.file.drop (headerAddr c.globals.sizes).toNat = _ at hdrop₁
  change c₂.file.drop (headerAddr c.globals.sizes).toNat = _ at hdrop₂
  have hget := congrArg (fun l => l[p - (headerAddr c.globals.sizes).toNat]?)
    (hdrop₁.trans hdrop₂.symm)
  simp only [List.getElem?_drop] at hget
  rwa [Nat.add_sub_cancel' hp] at hget

/-- A byte that is in no entry's word, or does not move, is the same at all
bases. -/
theorem Conversion.memory_steady (h : Conversion elf base c) (h₁ : Conversion elf base₁ c₁)
    (h₂ : Conversion elf base₂ c₂)
    (hplaced : WellPlaced c.globals.elfEp (relBlocks elf.sections)) {a : ℕ}
    (hsteady : ∀ b ∈ relBlocks elf.sections, ∀ pre e post, relList b.rels = pre ++ e :: post →
      ∀ j < 4, a = relOff c.globals e + j →
        ¬ Moves c.atZero c.loaded c.atZero.UsableBase pre post e j) :
    c₁.memory a = c₂.memory a := by
  by_cases hentry : ∃ b ∈ relBlocks elf.sections, ∃ e ∈ b.rels,
      relOff c.globals e ≤ a ∧ a < relOff c.globals e + 4
  · obtain ⟨b, hb, e, he, hlo, hhi⟩ := hentry
    obtain ⟨pre, post, hsplit⟩ := List.append_of_mem (mem_relList.mpr he)
    obtain ⟨j, hj⟩ := Nat.exists_eq_add_of_le hlo
    have hlt : j < 4 := by omega
    rw [hj, h.memory_at h₁ hplaced hb hsplit hlt, h.memory_at h₂ hplaced hb hsplit hlt]
    exact wordByte_finalWord_eq (hsteady b hb pre e post hsplit j hlt hj) hlt
      ((h.usableBase_iff hplaced base₁).mpr ⟨c₁, h₁.convert_eq⟩)
      ((h.usableBase_iff hplaced base₂).mpr ⟨c₂, h₂.convert_eq⟩)
  · have hout : ∀ b ∈ relBlocks elf.sections, ∀ e ∈ b.rels,
        a < relOff c.globals e ∨ relOff c.globals e + 4 ≤ a := by
      intro b hb e he
      by_contra hin
      exact hentry ⟨b, hb, e, he, by omega, by omega⟩
    rw [h.memory_outside h₁ hplaced hout, h.memory_outside h₂ hplaced hout]

end TwoBases

/-- The table names everything that depends on the base address, at all
bases at which the conversion succeeds, if and only if every entry with a
byte that moves is still in the table at the end, and no section other
than the entry's own shows that byte. -/
theorem convert_table_complete_iff {elf : Elf} {base : Word} {c : Converted}
    (hconvert : convert elf base = .ok c)
    (haligned : ∀ b ∈ relBlocks elf.sections, ∀ e ∈ b.rels, e.addr.toNat % 4 = 0)
    (hdistinct : ((relBlocks elf.sections).flatMap fun b => b.rels).Pairwise
      fun a b => a.addr ≠ b.addr)
    (hinside : InsideSections c.globals (relBlocks elf.sections)) :
    (∀ base₁ base₂ c₁ c₂, convert elf base₁ = .ok c₁ → convert elf base₂ = .ok c₂ →
      ∀ p, ¬ Named c₁.globals.sizes c₁.nintyRelocs p → c₁.file[p]? = c₂.file[p]?) ↔
    ∀ b ∈ relBlocks elf.sections, ∀ pre e post, relList b.rels = pre ++ e :: post →
      ∀ j < 4, Moves c.atZero c.loaded c.atZero.UsableBase pre post e j →
        ∀ i, i ≠ .bss → ∀ k < (c.globals.sizes i).toNat,
          sectionPos c.globals i + k = relOff c.globals e + j →
          i = b.id ∧ DeletionsCovered c.globals c.loaded (pre ++ [e]) post := by
  have h := conversion_of_convert hconvert
  have hplaced : WellPlaced c.globals.elfEp (relBlocks elf.sections) :=
    h.dryOk.wellPlaced haligned hdistinct
  constructor
  · intro hall b hb pre e post hsplit j hj hmoves i hi k hk hpos
    by_contra hnot
    obtain ⟨hzero, hpow⟩ := h.usableBase_twoPow hplaced
    obtain ⟨base₁, base₂, husable₁, husable₂, hne⟩ :=
      exists_wordByte_finalWord_ne hmoves hj hzero hpow
    obtain ⟨c₁, hc₁⟩ := (h.usableBase_iff hplaced base₁).mp husable₁
    obtain ⟨c₂, hc₂⟩ := (h.usableBase_iff hplaced base₂).mp husable₂
    have h₁ := conversion_of_convert hc₁
    have h₂ := conversion_of_convert hc₂
    have hunnamed : ¬ Named c.globals.sizes c.nintyRelocs (fileStart c.globals.sizes i + k) := by
      rw [h.named_iff hplaced hinside hi hk]
      rintro ⟨b', hb', rfl, pre', e', post', hsplit', -, hcov, hlo, hhi⟩
      obtain ⟨rfl, rfl, rfl, rfl⟩ := hplaced.split_unique hb hb' hsplit hsplit'
        (a := sectionPos c.globals b'.id + k) (by omega) (by omega) hlo hhi
      exact hnot ⟨rfl, hcov⟩
    have hsame := hall base₁ base₂ c₁ c₂ hc₁ hc₂ (fileStart c.globals.sizes i + k)
      ((h.named_agree h₁ hplaced _).not.mpr hunnamed)
    rw [h.file_section_byte h₁ hplaced hi hk, h.file_section_byte h₂ hplaced hi hk, hpos,
      h.memory_at h₁ hplaced hb hsplit hj, h.memory_at h₂ hplaced hb hsplit hj,
      Option.some.injEq] at hsame
    exact hne hsame
  · intro hcond base₁ base₂ c₁ c₂ hc₁ hc₂ p hunnamed
    have h₁ := conversion_of_convert hc₁
    have h₂ := conversion_of_convert hc₂
    rw [h.named_agree h₁ hplaced] at hunnamed
    by_cases hp : p < (headerAddr c.globals.sizes).toNat
    · obtain ⟨i, hi, k, hk, rfl⟩ := exists_fileStart_eq h.sizesFit hp
      rw [h.file_section_byte h₁ hplaced hi hk, h.file_section_byte h₂ hplaced hi hk,
        Option.some.injEq]
      refine h.memory_steady h₁ h₂ hplaced fun b hb pre e post hsplit j hj hpos hmoves => ?_
      -- A byte that moves would be named.
      obtain ⟨rfl, hcov⟩ := hcond b hb pre e post hsplit j hj hmoves i hi k hk hpos
      have hres : resolves c.globals c.loaded pre e = true :=
        resolves_of_moves (g := c.atZero) hmoves
      exact hunnamed ((h.named_iff hplaced hinside hi hk).mpr
        ⟨b, hb, rfl, pre, e, post, hsplit, hres, hcov, by omega, by omega⟩)
    · exact h.file_tail_agree h₁ h₂ hplaced (not_lt.mp hp)

/-! The pointer between a HI16 and its LO16 again: it has been deleted
from the table, and it moves. -/

theorem straddledElf_pointer_unnamed :
    ∃ c₁ c₂, convert straddledElf 0x80800000 = .ok c₁ ∧
      convert straddledElf 0x80900000 = .ok c₂ ∧
      ¬ Named c₁.globals.sizes c₁.nintyRelocs 5 ∧ c₁.file[5]? ≠ c₂.file[5]? := by
  obtain ⟨c₁, hc₁, hrun₁⟩ := exists_ok_of_map (x := convert straddledElf 0x80800000)
    (fun c => decide (c.nintyRelocs = [0x45000000#32] ∧ c.file[5]? = some 0x80#8))
    (by decide +kernel)
  obtain ⟨c₂, hc₂, hrun₂⟩ := exists_ok_of_map (x := convert straddledElf 0x80900000)
    (fun c => decide (c.file[5]? = some 0x90#8)) (by decide +kernel)
  obtain ⟨hrelocs, hbyte₁⟩ := of_decide_eq_true hrun₁
  refine ⟨c₁, c₂, hc₁, hc₂, ?_, ?_⟩
  · rw [hrelocs]
    rintro ⟨r, hr, i, hsec, -, hhi⟩
    rw [List.mem_singleton.mp hr] at hsec hhi
    cases i with
    | text =>
        rw [fileStart, Nat.zero_add] at hhi
        exact absurd hhi (by decide)
    | data | rodata | bss => exact absurd hsec (by decide)
  · rw [hbyte₁, of_decide_eq_true hrun₂]
    decide

theorem straddledElf_table_incomplete :
    ∃ c, convert straddledElf 0x80800000 = .ok c ∧
      ¬ ∀ base₁ base₂ c₁ c₂, convert straddledElf base₁ = .ok c₁ →
        convert straddledElf base₂ = .ok c₂ →
        ∀ p, ¬ Named c₁.globals.sizes c₁.nintyRelocs p → c₁.file[p]? = c₂.file[p]? := by
  obtain ⟨c, hconvert, hc⟩ := exists_ok_of_map (x := convert straddledElf 0x80800000)
    (fun c => decide ((∀ b ∈ relBlocks straddledElf.sections, ∀ e ∈ b.rels,
          (e.addr - c.globals.elfStarts b.id).toNat + 4 ≤ (c.globals.sizes b.id).toNat) ∧
        resolves c.atZero c.loaded [⟨0x80000000, 5⟩] ⟨0x80000004, 2⟩ = true ∧
        4 < (c.globals.sizes .text).toNat ∧
        sectionPos c.globals .text + 4 = relOff c.globals ⟨0x80000004, 2⟩ + 0 ∧
        countAlong (resolves c.globals c.loaded) [⟨0x80000000, 5⟩, ⟨0x80000004, 2⟩]
            [⟨0x80000008, 6⟩] <
          countAlong (deletes c.globals c.loaded) [⟨0x80000000, 5⟩, ⟨0x80000004, 2⟩]
            [⟨0x80000008, 6⟩])) (by decide +kernel)
  obtain ⟨hinside, hres, hk, hpos, hcounts⟩ := of_decide_eq_true hc
  refine ⟨c, hconvert, fun hall => ?_⟩
  have hblock : straddledBlock ∈ relBlocks straddledElf.sections := by decide +kernel
  have hsplit : relList straddledBlock.rels =
      [⟨0x80000000, 5⟩] ++ ⟨0x80000004, 2⟩ :: [⟨0x80000008, 6⟩] := by decide +kernel
  have haligned : ∀ b ∈ relBlocks straddledElf.sections, ∀ e ∈ b.rels,
      e.addr.toNat % 4 = 0 := by decide +kernel
  have hdistinct : ((relBlocks straddledElf.sections).flatMap fun b => b.rels).Pairwise
      fun a b => a.addr ≠ b.addr := by decide +kernel
  have hjt : novlRelocJt (GElfRel.type ⟨0x80000004, 2⟩) = some .mips32 := by decide
  have hmoves : Moves c.atZero c.loaded c.atZero.UsableBase [⟨0x80000000, 5⟩]
      [⟨0x80000008, 6⟩] ⟨0x80000004, 2⟩ 0 := by
    rw [Moves]
    simp only [hjt]
    exact hres
  have hcond := (convert_table_complete_iff hconvert haligned hdistinct hinside).mp hall
  have hcov := (hcond straddledBlock hblock _ _ _ hsplit 0 (by decide) hmoves .text (by decide) 4
    hk hpos).2
  exact absurd hcounts (hcov _ (List.prefix_refl _)).not_gt

end Novl
