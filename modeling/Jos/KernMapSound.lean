import Jos.KernMap
import Jos.Runs

/-!
# The kernel part of the address space

After the three maps of `mem_init` every address above `KERNBASE`, in the kernel
stack and in the window at `UPAGES` translates to the physical address it is
meant for, with the permissions it is meant to have, and the rest is unmapped
but for the page tables themselves at `UVPT`, which user mode cannot write.
-/

namespace Jos

/-! ## Addresses in a region -/

theorem pteAddr_or {a f : Word} (ha : a.toNat % 4096 = 0) (hf : f.toNat < 4096) : pteAddr (a ||| f) = a := by
  rw [pteAddr_eq_page2pa, pgnum_or_flags ha hf, page2pa_pgnum ha]

theorem region_addr {base va pa perm : Word} (hb : base.toNat % 4096 = 0) (hpa : pa.toNat % 4096 = 0)
    (hle : base ≤ va) (hp : perm.toNat < 4096) :
    pteAddr (page2pa (pgnum pa + (pgnum va - pgnum base)) ||| pteP ||| perm) + pgoff va = pa + (va - base) := by
  rw [BitVec.or_assoc, pteAddr_or (page2pa_aligned _) (or_flags_lt (by decide) hp)]
  rw [BitVec.le_def] at hle
  apply BitVec.eq_of_toNat_eq
  rw [BitVec.toNat_add, BitVec.toNat_add, BitVec.toNat_sub, page2pa_toNat, pgoff_toNat]
  simp only [pgnum_eq]
  omega

theorem region_flags (q : Nat) {perm f : Word} (hf : f.toNat < 4096) :
    (page2pa q ||| pteP ||| perm) &&& f = (pteP ||| perm) &&& f := by
  rw [BitVec.or_assoc, or_flags_and (page2pa_aligned q) hf]

/-! ## The map of `mem_init` -/

/-- What `memlayout.h` says of the addresses above `UTOP`, and nothing below. -/
structure KernMapped (D : Nat) (pagesVa bootstack : Word) (m : Mem) : Prop where
  window : ∀ va, kernbase ≤ va → ∃ w, pte m D va = some w ∧ pteAddr w + pgoff va = va - kernbase ∧
    w &&& pteW ≠ 0 ∧ w &&& pteU = 0
  stack : ∀ va, kstacktop - kstksize ≤ va → va < kstacktop → ∃ w, pte m D va = some w ∧
    pteAddr w + pgoff va = (bootstack - kernbase) + (va - (kstacktop - kstksize)) ∧ w &&& pteW ≠ 0 ∧ w &&& pteU = 0
  upages : ∀ va, upages ≤ va → va < upages + ptsize → userReadable m D va ∧ ∃ w, pte m D va = some w ∧
    pteAddr w + pgoff va = (pagesVa - kernbase) + (va - upages) ∧ w &&& pteU ≠ 0 ∧ w &&& pteW = 0
  uvpt : ∀ va, uvpt ≤ va → va < ulim → ¬ userWritable m D va
  unmapped : ∀ va, va < Jos.upages ∨ (ulim ≤ va ∧ va < kstacktop - kstksize) → pte m D va = none

namespace MapStart

variable {D : Nat} {s k : Kern} {free free' new : List Nat} {va : Word}

theorem pte_none (h : MapStart D s free) (hva : pdx va ≠ pdx Jos.uvpt) : pte s.mem D va = none :=
  Jos.pte_none (h.target_none (pdx_mapIx hva))

theorem pte_maps (h : MapStart D s free) (m : Maps {D} mapIx D (kernEntries s) s k free free' new)
    (hva : pdx va ≠ pdx Jos.uvpt) : pte k.mem D va = kernEntries s (pgnum va) := by
  rw [m.pte va (pdx_mapIx hva), h.pte_none hva]
  cases kernEntries s (pgnum va) <;> rfl

theorem dir_user (h : MapStart D s free) (m : Maps {D} mapIx D (kernEntries s) s k free free' new) {w : Word}
    (hw : kernEntries s (pgnum va) = some w) (hva : pdx va ≠ pdx Jos.uvpt) : k.mem D (pdx va) &&& pteU ≠ 0 := by
  have hm := m.dir_made _ _ hw
  rw [pgnum_div] at hm
  rcases m.dir (pdx va) with hd | ⟨_, _, T, _, hd⟩
  · rw [hd, h.target_none (pdx_mapIx hva)] at hm
    exact absurd rfl hm
  · rw [hd, or_flags_and (page2pa_aligned T) (by decide)]
    decide

theorem entry_region (h : MapStart D s free) (m : Maps {D} mapIx D (kernEntries s) s k free free' new)
    {base pa perm : Word} (hb : base.toNat % 4096 = 0) (hpa : pa.toNat % 4096 = 0) (hle : base ≤ va)
    (hp : perm.toNat < 4096) (hva : pdx va ≠ pdx Jos.uvpt)
    (he : kernEntries s (pgnum va) = some (page2pa (pgnum pa + (pgnum va - pgnum base)) ||| pteP ||| perm)) :
    ∃ w, pte k.mem D va = some w ∧ pteAddr w + pgoff va = pa + (va - base) ∧
      ∀ f : Word, f.toNat < 4096 → w &&& f = (pteP ||| perm) &&& f :=
  ⟨_, (h.pte_maps m hva).trans he, region_addr hb hpa hle hp, fun _ hf => region_flags _ hf⟩

/-- **The map of `mem_init`** for any number of pages, and any place of `pages` and of the stack. -/
theorem kernMapped (h : MapStart D s free) (hp : s.pagesVa.toNat % 4096 = 0) (hb : s.bootstack.toNat % 4096 = 0)
    (m : Maps {D} mapIx D (kernEntries s) s k free free' new) : KernMapped D s.pagesVa s.bootstack k.mem := by
  have hsub : ∀ a : Word, a.toNat % 4096 = 0 → (a - kernbase).toNat % 4096 = 0 := fun a ha => by
    rw [BitVec.toNat_sub, kernbase_toNat]; omega
  have hu : pdx Jos.uvpt = 957 := rfl
  have hs : (kstacktop - kstksize).toNat = 4026499072 := rfl
  have ht : kstacktop.toNat = 4026531840 := rfl
  constructor
  · intro va hle
    have hn := hle
    rw [BitVec.le_def, kernbase_toNat] at hn
    have hg := pgnum_eq va
    have hd := pdx_eq va
    have hlt := pgnum_lt va
    obtain ⟨w, hw, ha, hf⟩ := h.entry_region m (by decide) (by decide) hle (by decide) (by omega)
      (kernEntries_window s (by omega) (by omega))
    refine ⟨w, hw, ?_, ?_, ?_⟩
    · rw [ha, show (0 : Word) = 0#32 from rfl, BitVec.zero_add]
    · rw [hf _ (by decide)]; decide
    · rw [hf _ (by decide)]; decide
  · intro va hle hlt
    have hn := hle
    rw [BitVec.le_def, hs] at hn
    rw [BitVec.lt_def, ht] at hlt
    have hg := pgnum_eq va
    have hd := pdx_eq va
    obtain ⟨w, hw, ha, hf⟩ := h.entry_region m (by decide) (hsub _ hb) hle (by decide) (by omega)
      (kernEntries_stack s (by omega) (by omega))
    refine ⟨w, hw, ha, ?_, ?_⟩
    · rw [hf _ (by decide)]; decide
    · rw [hf _ (by decide)]; decide
  · intro va hle hlt
    have hn := hle
    rw [BitVec.le_def, upages_toNat] at hn
    rw [BitVec.lt_def, show (Jos.upages + ptsize).toNat = 4013948928 from rfl] at hlt
    have hg := pgnum_eq va
    have hd := pdx_eq va
    have he := kernEntries_upages s (j := pgnum va) (by omega) (by omega)
    obtain ⟨w, hw, ha, hf⟩ := h.entry_region m (by decide) (hsub _ hp) hle (by decide) (by omega) he
    have hU : w &&& pteU ≠ 0 := by rw [hf _ (by decide)]; decide
    refine ⟨⟨h.dir_user m he (by omega), w, hw, hU⟩, w, hw, ha, hU, ?_⟩
    rw [hf _ (by decide)]; decide
  · intro va hle hlt
    rw [BitVec.le_def, uvpt_toNat] at hle
    rw [BitVec.lt_def, ulim_toNat] at hlt
    have hd := pdx_eq va
    have hi : pdx va = pdx Jos.uvpt := by omega
    rintro ⟨_, hW, _⟩
    -- the entry for `UVPT` is out of reach of the maps, and has no `PTE_W`
    have hk := (m.dir (pdx va)).resolve_right fun e => (mem_mapIx.mp e.1).1 hi
    rw [hk, hi, h.uvpt, BitVec.or_assoc, or_flags_and (page2pa_aligned D) (by decide)] at hW
    exact hW (by decide)
  · intro va hva
    have hg := pgnum_eq va
    have hd := pdx_eq va
    have hout : va.toNat < 4009754624 ∨ (4018143232 ≤ va.toNat ∧ va.toNat < 4026499072) := by
      rcases hva with hva | ⟨h1, h2⟩
      · rw [BitVec.lt_def, upages_toNat] at hva
        exact Or.inl hva
      · rw [BitVec.le_def, ulim_toNat] at h1
        rw [BitVec.lt_def, hs] at h2
        exact Or.inr ⟨h1, h2⟩
    rw [h.pte_maps m (by omega), kernEntries_none s (by omega)]

end MapStart

def smallKern : Kern := smallBoot.write 398 (pdx uvpt) (page2pa 398 ||| pteU ||| pteP)

theorem smallKern_npages : smallKern.npages = 512 := by
  rw [smallKern, Kern.write_npages, smallBoot_npages]

theorem smallKern_start : MapStart 398 smallKern (initFree smallEnd smallMachine.npages) := by
  have h := smallMachine_boot ∅
  have hl := h.loop
  refine ⟨?_, ?_, ?_, ?_, by decide, ?_, ?_, ?_⟩
  · rw [smallKern_npages]; decide
  · rw [smallKern, Kern.write_kernPgdir, hl.kernPgdir]
    apply BitVec.eq_of_toNat_eq
    rw [kva_toNat (by decide)]
    rfl
  · rw [smallKern, Kern.write_link, Kern.write_pageFreeList]
    exact hl.chain
  · intro p hp
    rw [smallKern_npages]
    exact (mem_initFree.mp hp).1
  · rw [mem_initFree]
    exact fun hm => hm.2 (h.dir_reserved (Finset.mem_singleton_self 398))
  · rw [smallKern, Kern.write_mem, Mem.set_self]
  · intro i hi hne
    have he : (398, i) ≠ (398, pdx uvpt) := fun e => hne (Prod.mk.inj e).2
    rw [smallKern, Kern.write_mem, Mem.set_of_ne _ he, hl.mem]
    rfl

theorem smallKern_pagesVa : smallKern.pagesVa = 0xF018F000 := by
  rw [smallKern, Kern.write_pagesVa, (smallMachine_boot ∅).loop.pagesVa]
  rfl

theorem smallKern_bootstack : smallKern.bootstack = 0xF0110000 := by
  rw [smallKern, Kern.write_bootstack, (smallMachine_boot ∅).loop.bootstack]
  rfl

theorem smallKern_eq : smallKern = smallBoot.write 398 (pdx uvpt) (page2pa 398 ||| pteU ||| pteP) := by rw [smallKern]

attribute [irreducible] smallKern

theorem smallKern_maps : ∃ k free' new, smallKern.memInitMap = .ok k ∧
    Maps {398} mapIx 398 (kernEntries smallKern) smallKern k (initFree smallEnd smallMachine.npages) free' new := by
  have hp := smallKern_pagesVa
  have hb := smallKern_bootstack
  rcases smallKern_start.maps (by rw [hp]; decide) (by rw [hb]; decide) with ⟨e, _, h66 | h | h⟩ | h
  · have : 110 ≤ (initFree smallEnd 511).length := smallBoot_length 110 (Nat.le_refl _)
    rw [smallBoot_head, List.length_cons] at h66
    omega
  · rw [hp] at h; exact absurd h (by decide)
  · rw [hb] at h; exact absurd h (by decide)
  · exact h

end Jos
