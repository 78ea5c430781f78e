import Jos.BootMain
import Mathlib.Data.List.Basic

/-!
# What the boot loader leaves in memory

Each segment is read by whole sectors, from the one its `p_pa` lies in. Where two
segments share a sector the later one decides about all of it, so an earlier
segment keeps its bytes there only if the later one brings the same.
-/

namespace Jos.Boot

/-! ## One segment -/

def Proghdr.Covers (s : Proghdr) (a : Word) : Prop :=
  s.pa.toNat / 512 ≤ a.toNat / 512 ∧ 512 * (a.toNat / 512) < s.pa.toNat + s.memsz.toNat

instance (s : Proghdr) (a : Word) : Decidable (s.Covers a) := inferInstanceAs (Decidable (_ ∧ _))

def Proghdr.brings (disk : Disk) (s : Proghdr) (a : Word) : Byte :=
  disk (512 * (s.offset.toNat / 512 + 1 + (a.toNat / 512 - s.pa.toNat / 512)) + a.toNat % 512)

def load (disk : Disk) (ram : Ram) (s : Proghdr) : Ram := fun a => if s.Covers a then s.brings disk a else ram a

section
variable {disk : Disk} {n : Nat} {ram ram' : Ram}

theorem readsect_apply {k : Nat} (hk : k < 2 ^ 23) (offset a : Word) :
    readsect disk (BitVec.ofNat 32 (512 * k)) offset ram a =
      if a.toNat / 512 = k then disk (512 * offset.toNat + a.toNat % 512) else ram a := by
  have ha := a.isLt
  have hsub : (a - BitVec.ofNat 32 (512 * k)).toNat = (2 ^ 32 - 512 * k + a.toNat) % 2 ^ 32 := by
    rw [BitVec.toNat_sub, BitVec.toNat_ofNat, Nat.mod_eq_of_lt (show 512 * k < 2 ^ 32 by omega)]
  unfold readsect
  rw [hsub]
  by_cases h : a.toNat / 512 = k
  · have hm : (2 ^ 32 - 512 * k + a.toNat) % 2 ^ 32 = a.toNat % 512 := by omega
    rw [if_pos h, hm, if_pos (Nat.mod_lt _ (by omega))]
  · rw [if_neg h, if_neg (by omega)]

theorem sector_lt_iff {k : Nat} (hk : k < 2 ^ 23) (e : Word) : BitVec.ofNat 32 (512 * k) < e ↔ 512 * k < e.toNat := by
  rw [BitVec.lt_def, BitVec.toNat_ofNat, Nat.mod_eq_of_lt (by omega)]

theorem sector_next (k : Nat) : BitVec.ofNat 32 (512 * k) + sectsize = BitVec.ofNat 32 (512 * (k + 1)) := by
  rw [Nat.mul_succ, BitVec.ofNat_add]
  rfl

/-- With its end in the last sector the loop starts over at address 0. -/
theorem readsegLoop_diverges {e : Word} (he : 512 * (2 ^ 23 - 1) < e.toNat) {k : Nat} (hk : k < 2 ^ 23) (offset : Word) :
    readsegLoop disk n (BitVec.ofNat 32 (512 * k)) e offset ram = none := by
  induction n generalizing k offset ram with
  | zero => rfl
  | succ n ih =>
    rw [readsegLoop, if_pos ((sector_lt_iff hk e).mpr (by omega)), sector_next]
    rcases Nat.lt_or_ge (k + 1) (2 ^ 23) with hk' | hk'
    · exact ih hk' _
    · have hwrap : BitVec.ofNat 32 (512 * (k + 1)) = BitVec.ofNat 32 (512 * 0) := by
        have : k + 1 = 2 ^ 23 := by omega
        rw [this]
        rfl
      rw [hwrap]
      exact ih (by omega) _

theorem readsegLoop_apply {e : Word} {k : Nat} (hk : k < 2 ^ 23) {offset : Word} (ho : offset.toNat + 2 ^ 23 < 2 ^ 32 + k)
    (h : readsegLoop disk n (BitVec.ofNat 32 (512 * k)) e offset ram = some ram') (a : Word) :
    ram' a = if k ≤ a.toNat / 512 ∧ 512 * (a.toNat / 512) < e.toNat
      then disk (512 * (offset.toNat + (a.toNat / 512 - k)) + a.toNat % 512) else ram a := by
  induction n generalizing k offset ram with
  | zero => cases h
  | succ n ih =>
    rw [readsegLoop] at h
    by_cases hlt : BitVec.ofNat 32 (512 * k) < e
    · rw [if_pos hlt, sector_next] at h
      rw [sector_lt_iff hk] at hlt
      rcases Nat.lt_or_ge (k + 1) (2 ^ 23) with hk' | hk'
      · have ho' : (offset + 1).toNat = offset.toNat + 1 := by
          rw [BitVec.toNat_add, show (1 : Word).toNat = 1 from rfl, Nat.mod_eq_of_lt (by omega)]
        rw [ih hk' (by omega) h, ho', readsect_apply hk]
        by_cases hka : a.toNat / 512 = k
        · rw [if_neg (by omega), if_pos hka, if_pos (by omega), hka, Nat.sub_self, Nat.add_zero]
        · rw [if_neg hka]
          by_cases hin : k + 1 ≤ a.toNat / 512 ∧ 512 * (a.toNat / 512) < e.toNat
          · rw [if_pos hin, if_pos (by omega)]
            congr 2
            omega
          · rw [if_neg hin, if_neg (by omega)]
      · have hwrap : BitVec.ofNat 32 (512 * (k + 1)) = BitVec.ofNat 32 (512 * 0) := by
          have : k + 1 = 2 ^ 23 := by omega
          rw [this]
          rfl
        rw [hwrap, readsegLoop_diverges (by omega) (by omega)] at h
        cases h
    · rw [if_neg hlt, Option.some.injEq] at h
      rw [sector_lt_iff hk] at hlt
      rw [h, if_neg (by omega)]

theorem readsegLoop_ends {e : Word} (he : e.toNat ≤ 512 * (2 ^ 23 - 1)) {k : Nat} (hk : k < 2 ^ 23) (hn : 2 ^ 23 < n + k)
    (offset : Word) : ∃ ram', readsegLoop disk n (BitVec.ofNat 32 (512 * k)) e offset ram = some ram' := by
  induction n generalizing k offset ram with
  | zero => omega
  | succ n ih =>
    rw [readsegLoop]
    by_cases hlt : BitVec.ofNat 32 (512 * k) < e
    · rw [if_pos hlt, sector_next]
      rw [sector_lt_iff hk] at hlt
      exact ih (by omega) (by omega) _
    · rw [if_neg hlt]
      exact ⟨ram, rfl⟩

theorem pa_sector (pa : Word) : pa &&& ~~~(sectsize - 1) = BitVec.ofNat 32 (512 * (pa.toNat / 512)) := by
  have hmask : sectsize - 1 = BitVec.ofNat 32 (2 ^ 9 - 1) := rfl
  apply BitVec.eq_of_toNat_eq
  rw [hmask, and_not_ones pa 9 (by decide), BitVec.toNat_shiftLeft, BitVec.toNat_ushiftRight, Nat.shiftRight_eq_div_pow,
    Nat.shiftLeft_eq, BitVec.toNat_ofNat, Nat.mul_comm]

theorem offset_sector (offset : Word) : (offset / sectsize + 1).toNat = offset.toNat / 512 + 1 := by
  have h := offset.isLt
  rw [BitVec.toNat_add, BitVec.toNat_udiv, show sectsize.toNat = 512 from rfl, show (1 : Word).toNat = 1 from rfl,
    Nat.mod_eq_of_lt (by omega)]

theorem readseg_eq {s : Proghdr} (hs : s.pa.toNat + s.memsz.toNat < 2 ^ 32)
    (h : readseg disk n s.pa s.memsz s.offset ram = some ram') : ram' = load disk ram s := by
  have hend : (s.pa + s.memsz).toNat = s.pa.toNat + s.memsz.toNat := by
    rw [BitVec.toNat_add, Nat.mod_eq_of_lt hs]
  have hpa := s.pa.isLt
  have hoff := s.offset.isLt
  have hos := offset_sector s.offset
  funext a
  rw [readseg, pa_sector] at h
  rw [readsegLoop_apply (by omega) (by omega) h a, hend, hos]
  rfl

theorem readseg_ends {pa count : Word} (he : (pa + count).toNat ≤ 512 * (2 ^ 23 - 1)) (hn : 2 ^ 23 < n) (offset : Word) :
    ∃ ram', readseg disk n pa count offset ram = some ram' := by
  have hpa := pa.isLt
  rw [readseg, pa_sector]
  exact readsegLoop_ends he (by omega) (by omega) _

end

/-! ## The headers in memory -/

def file (disk : Disk) : Ram := fun i => disk (512 + i.toNat)

def HeaderPage (disk : Disk) (ram : Ram) : Prop := ∀ i : Word, i.toNat < 4096 → ram (elfhdr + i) = file disk i

section
variable {disk : Disk} {n : Nat} {ram ram' : Ram}

theorem ld16_page (h : HeaderPage disk ram) {i : Word} (hi : i.toNat + 1 < 4096) : ld16 ram (elfhdr + i) = ld16 (file disk) i := by
  have h1 : (i + 1).toNat = i.toNat + 1 := by
    rw [BitVec.toNat_add, show (1 : Word).toNat = 1 from rfl, Nat.mod_eq_of_lt (by omega)]
  rw [ld16, ld16, BitVec.add_assoc, h _ (by omega), h _ (by omega)]

theorem ld32_page (h : HeaderPage disk ram) {i : Word} (hi : i.toNat + 3 < 4096) : ld32 ram (elfhdr + i) = ld32 (file disk) i := by
  have h1 : (i + 1).toNat = i.toNat + 1 := by
    rw [BitVec.toNat_add, show (1 : Word).toNat = 1 from rfl, Nat.mod_eq_of_lt (by omega)]
  have h2 : (i + 2).toNat = i.toNat + 2 := by
    rw [BitVec.toNat_add, show (2 : Word).toNat = 2 from rfl, Nat.mod_eq_of_lt (by omega)]
  have h3 : (i + 3).toNat = i.toNat + 3 := by
    rw [BitVec.toNat_add, show (3 : Word).toNat = 3 from rfl, Nat.mod_eq_of_lt (by omega)]
  rw [ld32, ld32, BitVec.add_assoc, BitVec.add_assoc, BitVec.add_assoc, h _ (by omega), h _ (by omega), h _ (by omega),
    h _ (by omega)]

theorem elf_page (h : HeaderPage disk ram) : elf ram elfhdr = elf (file disk) 0 := by
  have hmagic : ld32 ram elfhdr = ld32 (file disk) 0 := ld32_page (i := 0) h (by decide)
  rw [elf, elf, hmagic, ld32_page h (by decide), ld32_page h (by decide), ld16_page h (by decide)]
  rfl

theorem proghdr_page (h : HeaderPage disk ram) {i : Word} (hi : i.toNat + 32 ≤ 4096) :
    proghdr ram (elfhdr + i) = proghdr (file disk) i := by
  have hadd : ∀ k : Word, k.toNat ≤ 28 → (i + k).toNat + 3 < 4096 := fun k hk => by
    rw [BitVec.toNat_add, Nat.mod_eq_of_lt (by omega)]
    omega
  rw [proghdr, proghdr, BitVec.add_assoc, BitVec.add_assoc, BitVec.add_assoc, BitVec.add_assoc, ld32_page h (hadd 4 (by decide)),
    ld32_page h (hadd 12 (by decide)), ld32_page h (hadd 16 (by decide)), ld32_page h (hadd 20 (by decide))]

end

/-! ## The images that are loaded -/

def segments (disk : Disk) : List Proghdr :=
  (List.range (elf (file disk) 0).phnum.toNat).map fun k => proghdr (file disk) ((elf (file disk) 0).phoff + BitVec.ofNat 32 (32 * k))

def Proghdr.fileByte (disk : Disk) (s : Proghdr) (a : Word) : Byte := disk (512 + (s.offset.toNat + (a.toNat - s.pa.toNat)))

def Proghdr.InFile (s : Proghdr) (a : Word) : Prop := s.pa.toNat ≤ a.toNat ∧ a.toNat < s.pa.toNat + s.filesz.toNat

instance (s : Proghdr) (a : Word) : Decidable (s.InFile a) := inferInstanceAs (Decidable (_ ∧ _))

structure Image (disk : Disk) : Prop where
  magic : (elf (file disk) 0).magic = elfMagic
  headers : (elf (file disk) 0).phoff.toNat + 32 * (elf (file disk) 0).phnum.toNat ≤ 4096
  above : ∀ s ∈ segments disk, s.memsz ≠ 0 → 0x100000 ≤ s.pa.toNat ∧ s.pa.toNat + s.memsz.toNat < 2 ^ 32
  increasing : ((segments disk).filter (·.memsz ≠ 0)).Pairwise fun s t => s.pa.toNat + s.memsz.toNat ≤ t.pa.toNat
  filesz : ∀ s ∈ segments disk, s.filesz ≤ s.memsz
  congruent : ∀ s ∈ segments disk, s.memsz ≠ 0 → s.pa.toNat % 512 = s.offset.toNat % 512

/-- An empty segment reads no sector, or one that is not below 1 MB. -/
def EmptySafe (disk : Disk) : Prop := ∀ s ∈ segments disk, s.memsz = 0 → s.pa.toNat % 512 = 0 ∨ 0x100000 ≤ s.pa.toNat

def Loaded (disk : Disk) (ram : Ram) : Prop := ∀ s ∈ segments disk, ∀ a, s.InFile a → ram a = s.fileByte disk a

/-- The last later segment that covers a byte of an earlier one brings that byte. -/
def Agree (disk : Disk) : Prop :=
  ∀ (l m r : List Proghdr) (s t : Proghdr) (a : Word), segments disk = l ++ s :: (m ++ t :: r) →
    s.InFile a → t.Covers a → (∀ u ∈ r, ¬ u.Covers a) → t.brings disk a = s.fileByte disk a

/-! ## The loading of all segments -/

section
variable {disk : Disk} {n : Nat} {ram ram' : Ram}

def Proghdr.Safe (s : Proghdr) : Prop :=
  s.pa.toNat + s.memsz.toNat < 2 ^ 32 ∧ ∀ a, s.Covers a → 0x100000 ≤ a.toNat

theorem segment_safe (hi : Image disk) (he : EmptySafe disk) {s : Proghdr} (hs : s ∈ segments disk) : s.Safe := by
  have hpa := s.pa.isLt
  by_cases hm : s.memsz = 0
  · have hz : s.memsz.toNat = 0 := by
      rw [hm]
      rfl
    refine ⟨by omega, fun a ha => ?_⟩
    obtain ⟨h1, h2⟩ := ha
    rcases he s hs hm with h | h <;> omega
  · obtain ⟨h1, h2⟩ := hi.above s hs hm
    refine ⟨h2, fun a ha => ?_⟩
    have := ha.1
    omega

theorem load_page {s : Proghdr} (hs : s.Safe) (h : HeaderPage disk ram) : HeaderPage disk (load disk ram s) := by
  intro i hi
  have ha : (elfhdr + i).toNat = 0x10000 + i.toNat := by
    rw [BitVec.toNat_add, show elfhdr.toNat = 0x10000 from rfl, Nat.mod_eq_of_lt (by omega)]
  rw [load, if_neg, h i hi]
  intro hc
  have := hs.2 _ hc
  omega

theorem load_all_page {ss : List Proghdr} (hs : ∀ s ∈ ss, s.Safe) (h : HeaderPage disk ram) :
    HeaderPage disk (ss.foldl (load disk) ram) := by
  induction ss generalizing ram with
  | nil => exact h
  | cons s ss ih =>
    obtain ⟨h1, h2⟩ := List.forall_mem_cons.mp hs
    exact ih h2 (load_page h1 h)

theorem load_all_last {l r : List Proghdr} {t : Proghdr} {a : Word} (ht : t.Covers a) (hr : ∀ u ∈ r, ¬ u.Covers a) :
    (l ++ t :: r).foldl (load disk) ram a = t.brings disk a := by
  have hlast : ∀ ram : Ram, r.foldl (load disk) ram a = ram a := by
    induction r with
    | nil => exact fun _ => rfl
    | cons u r ih =>
      obtain ⟨h1, h2⟩ := List.forall_mem_cons.mp hr
      intro ram
      rw [List.foldl_cons, ih h2, load, if_neg h1]
  rw [List.foldl_append, List.foldl_cons, hlast, load, if_pos ht]

theorem exists_last {α : Type} (p : α → Prop) (ss : List α) :
    (∀ u ∈ ss, ¬ p u) ∨ ∃ l t r, ss = l ++ t :: r ∧ p t ∧ ∀ u ∈ r, ¬ p u := by
  induction ss with
  | nil => exact Or.inl fun _ hu => absurd hu List.not_mem_nil
  | cons s ss ih =>
    rcases ih with h | ⟨l, t, r, rfl, ht, hr⟩
    · by_cases hs : p s
      · exact Or.inr ⟨[], s, ss, rfl, hs, h⟩
      · exact Or.inl (List.forall_mem_cons.mpr ⟨hs, h⟩)
    · exact Or.inr ⟨s :: l, t, r, rfl, ht, hr⟩

theorem inFile_covers {s : Proghdr} (hf : s.filesz ≤ s.memsz) {a : Word} (ha : s.InFile a) : s.Covers a := by
  have := BitVec.le_def.mp hf
  obtain ⟨h1, h2⟩ := ha
  exact ⟨Nat.div_le_div_right h1, by omega⟩

theorem inFile_memsz {s : Proghdr} (hf : s.filesz ≤ s.memsz) {a : Word} (ha : s.InFile a) : s.memsz ≠ 0 := by
  intro hm
  rw [hm] at hf
  have hle : s.filesz.toNat ≤ 0 := BitVec.le_def.mp hf
  obtain ⟨h1, h2⟩ := ha
  omega

theorem brings_own {s : Proghdr} (hc : s.pa.toNat % 512 = s.offset.toNat % 512) {a : Word} (ha : s.InFile a) :
    s.brings disk a = s.fileByte disk a := by
  obtain ⟨h1, _⟩ := ha
  refine congrArg disk ?_
  omega

theorem loaded_iff_agree (hi : Image disk) : Loaded disk ((segments disk).foldl (load disk) ram) ↔ Agree disk := by
  constructor
  · intro h l m r s t a he hs ht hr
    rw [← h s (by rw [he]; exact List.mem_append_right _ List.mem_cons_self) a hs, he, ← List.cons_append, ← List.append_assoc,
      load_all_last ht hr]
  · intro h s hs a ha
    obtain ⟨l, rest, he⟩ := List.append_of_mem hs
    have hcov := inFile_covers (hi.filesz s hs) ha
    rcases exists_last (·.Covers a) rest with hr | ⟨m, t, r, rfl, ht, hr⟩
    · have hm := inFile_memsz (hi.filesz s hs) ha
      rw [he, load_all_last hcov hr, brings_own (hi.congruent s hs hm) ha]
    · rw [he, ← List.cons_append, ← List.append_assoc, load_all_last ht hr, h l m r s t a he ha ht hr]

theorem agree_of_distance (hi : Image disk) (hd : ∀ s ∈ segments disk, ∀ t ∈ segments disk,
    s.offset.toNat + t.pa.toNat = t.offset.toNat + s.pa.toNat) : Agree disk := by
  intro l m r s t a he ha ht _
  have hs : s ∈ segments disk := by
    rw [he]
    exact List.mem_append_right _ List.mem_cons_self
  have hts : t ∈ segments disk := by
    rw [he]
    exact List.mem_append_right _ (List.mem_cons_of_mem _ (List.mem_append_right _ List.mem_cons_self))
  have hc := hi.congruent s hs (inFile_memsz (hi.filesz s hs) ha)
  have hst := hd s hs t hts
  obtain ⟨h1, _⟩ := ha
  obtain ⟨h2, _⟩ := ht
  refine congrArg disk ?_
  omega

/-! ## `bootmain` -/

theorem readseg_page (h : readseg disk n elfhdr (sectsize * 8) 0 ram = some ram') : HeaderPage disk ram' := by
  have hr := readseg_eq (s := ⟨0, elfhdr, 0, sectsize * 8⟩) (by decide) h
  intro i hi
  have ha : (elfhdr + i).toNat = 0x10000 + i.toNat := by
    rw [BitVec.toNat_add, show elfhdr.toNat = 0x10000 from rfl, Nat.mod_eq_of_lt (by omega)]
  have hpa : elfhdr.toNat = 0x10000 := rfl
  have hsz : (sectsize * 8).toNat = 4096 := rfl
  have hoff : (0 : Word).toNat = 0 := rfl
  have hc : Proghdr.Covers ⟨0, elfhdr, 0, sectsize * 8⟩ (elfhdr + i) := by
    unfold Proghdr.Covers
    rw [ha, hpa, hsz]
    omega
  rw [hr, load, if_pos hc, Proghdr.brings, ha, hpa, hoff, file]
  refine congrArg disk ?_
  omega

def phAt (disk : Disk) (k : Nat) : Word := elfhdr + ((elf (file disk) 0).phoff + BitVec.ofNat 32 (32 * k))

theorem phAt_toNat (hi : Image disk) {k : Nat} (hk : k ≤ (elf (file disk) 0).phnum.toNat) :
    (phAt disk k).toNat = 0x10000 + ((elf (file disk) 0).phoff.toNat + 32 * k) := by
  have := hi.headers
  have hin : ((elf (file disk) 0).phoff + BitVec.ofNat 32 (32 * k)).toNat = (elf (file disk) 0).phoff.toNat + 32 * k := by
    rw [BitVec.toNat_add, BitVec.toNat_ofNat, Nat.mod_eq_of_lt (show 32 * k < 2 ^ 32 by omega), Nat.mod_eq_of_lt (by omega)]
  rw [phAt, BitVec.toNat_add, hin, show elfhdr.toNat = 0x10000 from rfl, Nat.mod_eq_of_lt (by omega)]

theorem phAt_lt_iff (hi : Image disk) {k : Nat} (hk : k ≤ (elf (file disk) 0).phnum.toNat) :
    phAt disk k < phAt disk (elf (file disk) 0).phnum.toNat ↔ k < (elf (file disk) 0).phnum.toNat := by
  rw [BitVec.lt_def, phAt_toNat hi hk, phAt_toNat hi (Nat.le_refl _)]
  omega

theorem phAt_succ (k : Nat) : phAt disk k + 32 = phAt disk (k + 1) := by
  rw [phAt, phAt, Nat.mul_succ, BitVec.ofNat_add, BitVec.add_assoc, BitVec.add_assoc]
  rfl

theorem segments_drop {k : Nat} (hk : k < (elf (file disk) 0).phnum.toNat) :
    (segments disk).drop k =
      proghdr (file disk) ((elf (file disk) 0).phoff + BitVec.ofNat 32 (32 * k)) :: (segments disk).drop (k + 1) := by
  have hlen : k < ((List.range (elf (file disk) 0).phnum.toNat).map fun k =>
      proghdr (file disk) ((elf (file disk) 0).phoff + BitVec.ofNat 32 (32 * k))).length := by
    rw [List.length_map, List.length_range]
    exact hk
  rw [segments, List.drop_eq_getElem_cons hlen, List.getElem_map, List.getElem_range]

theorem proghdr_phAt (hi : Image disk) (h : HeaderPage disk ram) {k : Nat} (hk : k < (elf (file disk) 0).phnum.toNat) :
    proghdr ram (phAt disk k) = proghdr (file disk) ((elf (file disk) 0).phoff + BitVec.ofNat 32 (32 * k)) := by
  have hh := hi.headers
  refine proghdr_page h ?_
  rw [BitVec.toNat_add, BitVec.toNat_ofNat, Nat.mod_eq_of_lt (show 32 * k < 2 ^ 32 by omega), Nat.mod_eq_of_lt (by omega)]
  omega

theorem mem_drop_safe (hi : Image disk) (he : EmptySafe disk) {k : Nat} {s : Proghdr} (hs : s ∈ (segments disk).drop k) : s.Safe :=
  segment_safe hi he (List.mem_of_mem_drop hs)

theorem loadLoop_eq (hi : Image disk) (he : EmptySafe disk) {m k : Nat} (hk : k ≤ (elf (file disk) 0).phnum.toNat)
    (hp : HeaderPage disk ram)
    (h : loadLoop disk n m (phAt disk k) (phAt disk (elf (file disk) 0).phnum.toNat) ram = some ram') :
    ram' = ((segments disk).drop k).foldl (load disk) ram := by
  induction m generalizing k ram with
  | zero => cases h
  | succ m ih =>
    rw [loadLoop] at h
    rcases Nat.lt_or_ge k (elf (file disk) 0).phnum.toNat with hlt | hge
    · have hseg := segments_drop hlt
      rw [if_pos ((phAt_lt_iff hi hk).mpr hlt), proghdr_phAt hi hp hlt, phAt_succ] at h
      generalize proghdr (file disk) ((elf (file disk) 0).phoff + BitVec.ofNat 32 (32 * k)) = s at hseg h
      have hs : s.Safe := mem_drop_safe hi he (k := k) (by rw [hseg]; exact List.mem_cons_self)
      obtain ⟨r, hr, h⟩ := Option.bind_eq_some_iff.mp h
      obtain rfl := readseg_eq hs.1 hr
      rw [hseg, List.foldl_cons]
      exact ih hlt (load_page hs hp) h
    · rw [if_neg (fun hlt => absurd ((phAt_lt_iff hi hk).mp hlt) (by omega)), Option.some.injEq] at h
      have hlen : (segments disk).length ≤ k := by
        rw [segments, List.length_map, List.length_range]
        exact hge
      rw [List.drop_eq_nil_of_le hlen, ← h]
      rfl

theorem loadLoop_ends (hi : Image disk) (he : EmptySafe disk)
    (hend : ∀ s ∈ segments disk, (s.pa + s.memsz).toNat ≤ 512 * (2 ^ 23 - 1)) (hn : 2 ^ 23 < n) {m k : Nat}
    (hk : k ≤ (elf (file disk) 0).phnum.toNat) (hm : (elf (file disk) 0).phnum.toNat < m + k) (hp : HeaderPage disk ram) :
    ∃ ram', loadLoop disk n m (phAt disk k) (phAt disk (elf (file disk) 0).phnum.toNat) ram = some ram' := by
  induction m generalizing k ram with
  | zero => omega
  | succ m ih =>
    rw [loadLoop]
    rcases Nat.lt_or_ge k (elf (file disk) 0).phnum.toNat with hlt | hge
    · have hseg := segments_drop hlt
      rw [if_pos ((phAt_lt_iff hi hk).mpr hlt), proghdr_phAt hi hp hlt, phAt_succ]
      generalize proghdr (file disk) ((elf (file disk) 0).phoff + BitVec.ofNat 32 (32 * k)) = s at hseg
      have hmem : s ∈ (segments disk).drop k := by
        rw [hseg]
        exact List.mem_cons_self
      have hs := mem_drop_safe hi he hmem
      obtain ⟨r, hr⟩ : ∃ r, readseg disk n s.pa s.memsz s.offset ram = some r :=
        readseg_ends (hend s (List.mem_of_mem_drop hmem)) hn s.offset
      dsimp only
      rw [hr, Option.bind_some]
      obtain rfl := readseg_eq hs.1 hr
      exact ih hlt (by omega) (load_page hs hp)
    · rw [if_neg fun hlt => absurd ((phAt_lt_iff hi hk).mp hlt) (by omega)]
      exact ⟨ram, rfl⟩

theorem bounds_page (hp : HeaderPage disk ram) :
    elfhdr + (elf ram elfhdr).phoff = phAt disk 0 ∧
      elfhdr + (elf ram elfhdr).phoff + (elf ram elfhdr).phnum.setWidth 32 * 32 = phAt disk (elf (file disk) 0).phnum.toNat := by
  have hmul : (elf (file disk) 0).phnum.setWidth 32 * 32 = BitVec.ofNat 32 (32 * (elf (file disk) 0).phnum.toNat) := by
    rw [Nat.mul_comm, BitVec.ofNat_mul]
    refine congrArg (· * (32 : Word)) (BitVec.eq_of_toNat_eq ?_)
    rw [BitVec.toNat_setWidth, BitVec.toNat_ofNat]
  rw [elf_page hp, phAt, phAt, hmul, BitVec.add_assoc]
  exact ⟨by rw [Nat.mul_zero, BitVec.add_zero], rfl⟩

theorem bootmain_eq (hi : Image disk) (he : EmptySafe disk) {out : Outcome} (h : bootmain disk n ram = some out) :
    ∃ page, HeaderPage disk page ∧ out = .jump (elf (file disk) 0).entry ((segments disk).foldl (load disk) page) := by
  rw [bootmain, Option.bind_eq_some_iff] at h
  obtain ⟨page, hr, h⟩ := h
  have hp := readseg_page hr
  obtain ⟨hb, hb'⟩ := bounds_page hp
  refine ⟨page, hp, ?_⟩
  rw [if_neg (by rw [elf_page hp]; exact not_not.mpr hi.magic)] at h
  dsimp only at h
  rw [hb', hb, Option.map_eq_some_iff] at h
  obtain ⟨r, hl, rfl⟩ := h
  obtain rfl := loadLoop_eq hi he (Nat.zero_le _) hp hl
  rw [List.drop_zero]
  rw [elf_page (load_all_page (fun s hs => segment_safe hi he hs) hp)]

theorem bootmain_ends (hi : Image disk) (he : EmptySafe disk)
    (hend : ∀ s ∈ segments disk, (s.pa + s.memsz).toNat ≤ 512 * (2 ^ 23 - 1)) (ram : Ram) :
    ∃ n out, bootmain disk n ram = some out := by
  obtain ⟨page, hr⟩ : ∃ page, readseg disk (2 ^ 23 + 1) elfhdr (sectsize * 8) 0 ram = some page :=
    readseg_ends (by decide) (by omega) 0
  have hp := readseg_page hr
  obtain ⟨hb, hb'⟩ := bounds_page hp
  have hnum := (elf (file disk) 0).phnum.isLt
  obtain ⟨r, hl⟩ := loadLoop_ends hi he hend (n := 2 ^ 23 + 1) (m := 2 ^ 23 + 1) (by omega) (Nat.zero_le _) (by omega) hp
  refine ⟨2 ^ 23 + 1, .jump (elf r elfhdr).entry r, ?_⟩
  rw [bootmain, hr, Option.bind_some, if_neg (by rw [elf_page hp]; exact not_not.mpr hi.magic)]
  dsimp only
  rw [hb', hb, hl, Option.map_some]

end

/-- **`bootmain`**: it jumps to the image's entry point unless a segment ends in the last sector below
4 GB, and then every segment is loaded just when the segments that share sectors agree. -/
theorem bootmain_loads_iff (disk : Disk) (hi : Image disk) (he : EmptySafe disk) (ram : Ram) :
    ((∀ s ∈ segments disk, (s.pa + s.memsz).toNat ≤ 512 * (2 ^ 23 - 1)) → ∃ n out, bootmain disk n ram = some out) ∧
    ∀ n out, bootmain disk n ram = some out →
      ∃ ram', out = .jump (elf (file disk) 0).entry ram' ∧ (Loaded disk ram' ↔ Agree disk) := by
  refine ⟨fun hend => bootmain_ends hi he hend ram, fun n out h => ?_⟩
  obtain ⟨page, _, rfl⟩ := bootmain_eq hi he h
  exact ⟨_, rfl, loaded_iff_agree hi⟩

/-! ## Two segments in one sector -/

def le32 (n : Word) : List Byte := [n.setWidth 8, (n >>> 8).setWidth 8, (n >>> 16).setWidth 8, (n >>> 24).setWidth 8]

def phBytes (offset pa : Word) : List Byte :=
  le32 1 ++ le32 offset ++ le32 pa ++ le32 pa ++ le32 0x100 ++ le32 0x100 ++ le32 0 ++ le32 0

def headerBytes (offset : Word) : List Byte :=
  le32 elfMagic ++ List.replicate 20 0 ++ le32 0x100000 ++ le32 52 ++ List.replicate 12 0 ++ [2, 0] ++ List.replicate 6 0 ++
    phBytes 0x1000 0x100000 ++ phBytes offset 0x100100

def smallDisk (offset : Word) : Disk := fun k =>
  (headerBytes offset).getD (k - 512) (if 512 + 0x1000 ≤ k ∧ k < 512 + 0x1100 then 1 else 0)

theorem segments_near : segments (smallDisk 0x1100) =
    [⟨0x1000, 0x100000, 0x100, 0x100⟩, ⟨0x1100, 0x100100, 0x100, 0x100⟩] := rfl

theorem image_near : Image (smallDisk 0x1100) := by
  constructor
  · rfl
  · decide
  all_goals
    rw [segments_near]
    decide

theorem bootmain_loads_near : ∃ n entry ram', bootmain (smallDisk 0x1100) n (fun _ => 0) = some (.jump entry ram') ∧
    Loaded (smallDisk 0x1100) ram' := by
  have he : EmptySafe (smallDisk 0x1100) := by
    unfold EmptySafe
    rw [segments_near]
    decide
  obtain ⟨hends, hrun⟩ := bootmain_loads_iff (smallDisk 0x1100) image_near he fun _ => 0
  obtain ⟨n, out, h⟩ := hends (by rw [segments_near]; decide)
  obtain ⟨ram', rfl, hl⟩ := hrun n out h
  exact ⟨n, _, ram', h, hl.mpr (agree_of_distance image_near (by rw [segments_near]; decide))⟩

theorem segments_far : segments (smallDisk 0x2100) =
    [⟨0x1000, 0x100000, 0x100, 0x100⟩, ⟨0x2100, 0x100100, 0x100, 0x100⟩] := rfl

theorem image_far : Image (smallDisk 0x2100) := by
  constructor
  · rfl
  · decide
  all_goals
    rw [segments_far]
    decide

/-- Reading the second segment puts the wrong bytes over the first. -/
theorem bootmain_overwrites : ¬ ∀ (disk : Disk) (n : Nat) (ram ram' : Ram) (entry : Word), Image disk →
    bootmain disk n ram = some (.jump entry ram') → Loaded disk ram' := by
  intro h
  have he : EmptySafe (smallDisk 0x2100) := by
    unfold EmptySafe
    rw [segments_far]
    decide
  obtain ⟨n, out, hb⟩ := bootmain_ends image_far he (by rw [segments_far]; decide) fun _ => 0
  obtain ⟨page, _, rfl⟩ := bootmain_eq image_far he hb
  have hagree := (loaded_iff_agree image_far).mp (h _ n _ _ _ image_far hb)
  have hbyte := hagree [] [] [] _ _ 0x100000 segments_far (by decide) (by decide) (fun _ hu => absurd hu List.not_mem_nil)
  exact absurd hbyte (by decide)

end Jos.Boot
