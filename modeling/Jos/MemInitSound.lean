import Jos.CheckSound
import Jos.BootFrame
import Jos.IsolationSound

/-!
# `mem_init` up to the end of its maps

The self-tests pass on every machine that has a page above what `boot_alloc` gave out, and
on the others `mem_init` stops in the first of them. What the maps have changed is
`kern_pgdir` and pages of the free list: the processor still finds `entry_pgdir`, and
`kern_pgdir` maps the kernel's first 4 MB to the same physical addresses.
-/

namespace Jos

namespace Check

open Traced IntrusiveList

variable {D : Nat} {s k t : Kern} {ff : Word}

/-- What the linker and the BIOS give: the kernel from 1 MB on, the stack in it, and enough memory. -/
structure Linked (s : Kern) : Prop where
  npages_ge : 160 ≤ s.npages
  npages_le : s.npages ≤ 65536
  nextfree : s.nextfree = 0
  kend_ge : kernbase + extphysmem ≤ s.kend
  kend_lt : s.kend < kernbase + 0x300000
  bootstack_ge : ¬ s.bootstack < kernbase
  bootstack_aligned : s.bootstack.toNat % 4096 = 0

theorem start_firstFree (h : paddr (k.bootAlloc 0).1 = .ok ff) : (k.bootAlloc 0).1.toNat = 4026531840 + ff.toNat := by
  unfold paddr at h
  split at h
  · cases h
  · rename_i hge
    rw [Except.ok.injEq] at h
    rw [BitVec.lt_def, kernbase_toNat] at hge
    rw [← h, BitVec.toNat_sub, kernbase_toNat]
    have := (k.bootAlloc 0).1.isLt
    omega

theorem firstFree_lt (h : paddr (k.bootAlloc 0).1 = .ok ff) {n : Nat} (hn : n < 65536) :
    (k.bootAlloc 0).1 < kva n ↔ ff.toNat < n * 4096 := by
  rw [BitVec.lt_def, start_firstFree h, kva_toNat hn]
  omega

theorem memInit_fails (hb : Booted D ff s k) (hn : k.npages ≤ 65536) (h160 : 160 ≤ k.npages)
    (hff : ¬ ff.toNat < (k.npages - 1) * 4096) : memInit.forget k = .error (.assertion "nfree_extmem > 0") := by
  obtain ⟨t₀, ht₀⟩ := pageInit_ok hb
  obtain ⟨_, hr, _, hp, hx⟩ := pageInit_list hb hn h160 ht₀
  have hlist := checkPageFreeList_result hr (fun p hm => (hp p hm).1) (initFree_low h160)
  rw [if_neg fun e => hff (hx.mp e)] at hlist
  unfold memInit
  rw [forget_bind, forget_step, ht₀, stopped_ok, stop_ok_bind, stop_ok_bind, forget_bind, hlist]
  rfl

theorem memInit_cases (h : Linked s) : ∃ D ff k t₀, s.memInitAlloc = .ok k ∧ Booted D ff s k ∧ Laid D s k ∧
    k.pageInit = .ok t₀ ∧ Kern.InitLoop ff k k.npages t₀ ∧ if (k.bootAlloc 0).1 < kva (s.npages - 1) then
      ∃ t w l free new, memInit.forget k = .ok ((), t) ∧ Prepared D (initFree ff k.npages) t₀ w t l free new
    else memInit.forget k = .error (.assertion "nfree_extmem > 0") := by
  obtain ⟨D, ff, k, hk, hb⟩ := memInitAlloc_booted h.npages_le h.nextfree h.kend_ge h.kend_lt
  have hd := memInitAlloc_laid hk hb h.nextfree h.kend_ge h.kend_lt
  have hn := hb.npages
  have hle := h.npages_le
  have hge := h.npages_ge
  obtain ⟨t₀, ht₀⟩ := pageInit_ok hb
  obtain ⟨hl, _⟩ := pageInit_list hb (hn ▸ hle) (hn ▸ hge) ht₀
  refine ⟨D, ff, k, t₀, hk, hb, hd, ht₀, hl, ?_⟩
  by_cases hff : (k.bootAlloc 0).1 < kva (s.npages - 1)
  · rw [if_pos hff]
    rw [firstFree_lt hb.firstFree (by omega), ← hn] at hff
    obtain ⟨_, t, hrun, t₀', w, l, free, new, ht₀', hp⟩ := memInit_run hb hd (hn ▸ hle) (hn ▸ hge)
      (hd.bootstack ▸ h.bootstack_aligned) (hd.bootstack ▸ h.bootstack_ge) hff
    rw [ht₀, Except.ok.injEq] at ht₀'
    subst ht₀'
    exact ⟨t, w, l, free, new, hrun, hp⟩
  · rw [if_neg hff]
    rw [firstFree_lt hb.firstFree (by omega), ← hn] at hff
    exact memInit_fails hb (hn ▸ hle) (hn ▸ hge) hff

/-- The tables that the maps make are the only pages missing from the free list. -/
theorem Prepared.free {l₀ l free new : List Nat} {t₀ w : Kern} (h : Prepared D l₀ t₀ w t l free new) :
    Chain t.link t.pageFreeList free ∧ free = l.drop 66 ∧ free ⊆ l₀ := by
  have hf := h.start.maps_free h.maps
  refine ⟨h.maps.wf.chain, hf, fun p hp => h.restored.perm.mem_iff.mp ?_⟩
  rw [hf] at hp
  exact List.mem_of_mem_drop hp

section
variable {l₀ l free new : List Nat} {t₀ w : Kern}

theorem Prepared.mapped (h : Prepared D l₀ t₀ w t l free new) (hi : Kern.InitLoop ff k k.npages t₀) (hd : Laid D s k)
    (hs : Linked s) : KernMapped D k.pagesVa s.bootstack t.mem := by
  have hpv : w.pagesVa = k.pagesVa := h.restored.pagesVa.trans hi.pagesVa
  have hbs : w.bootstack = s.bootstack := (h.restored.bootstack.trans hi.bootstack).trans hd.bootstack
  rw [← hpv, ← hbs]
  exact h.start.kernMapped (by rw [hpv, hd.pagesVa_aligned]) (by rw [hbs, hs.bootstack_aligned]) h.maps

theorem Prepared.link {q : Nat} (h : Prepared D (initFree ff k.npages) t₀ w t l free new)
    (hi : Kern.InitLoop ff k k.npages t₀) (hq : q ∉ l) : w.link q = none := by
  have hq' : q ∉ initFree ff k.npages := fun hm => hq (h.restored.perm.mem_iff.mpr hm)
  rw [h.restored.link q hq', hi.link_none q hq']

theorem Prepared.mem_frame {q : Nat} (h : Prepared D (initFree ff k.npages) t₀ w t l free new)
    (hi : Kern.InitLoop ff k k.npages t₀) (hd : Laid D s k) (hqD : q ≠ D) (hq : q ∉ initFree ff k.npages) : t.mem q = s.mem q := by
  have hql : q ∉ l := fun hm => hq (h.restored.perm.mem_iff.mp hm)
  rw [(h.start.frame (fun _ => h.link hi) h.map).1 q hqD hql, h.restored.mem q hq, hi.mem, hd.mem q hqD]

end

/-- **The self-tests of `mem_init` pass** exactly where there is a page above what `boot_alloc` gave out. Then
the kernel part of the address space is mapped, 66 pages of the free list have become page tables, all others are back,
and the memory of no page but these and `kern_pgdir` has changed. -/
theorem memInit_passes (h : Linked s) : ∃ k D t₀, s.memInitAlloc = .ok k ∧ k.kernPgdir = kva D ∧ k.pageInit = .ok t₀ ∧
    if (k.bootAlloc 0).1 < kva (s.npages - 1) then
      ∃ t, memInit.forget k = .ok ((), t) ∧ KernMapped D k.pagesVa s.bootstack t.mem ∧
        (∀ q, q ≠ D → ¬ t₀.onFree q → t.mem q = s.mem q) ∧
        ∃ l l', Chain t₀.link t₀.pageFreeList l ∧ Chain t.link t.pageFreeList l' ∧ l' ⊆ l ∧ l'.length + 66 = l.length
    else memInit.forget k = .error (.assertion "nfree_extmem > 0") := by
  obtain ⟨D, ff, k, t₀, hk, hb, hd, ht₀, hi, hc⟩ := memInit_cases h
  have hn := hb.npages
  refine ⟨k, D, t₀, hk, hb.kernPgdir, ht₀, ?_⟩
  by_cases hff : (k.bootAlloc 0).1 < kva (s.npages - 1)
  · rw [if_pos hff] at hc ⊢
    obtain ⟨t, w, l, free, new, hrun, hp⟩ := hc
    obtain ⟨hl, hf, hsub⟩ := hp.free
    refine ⟨t, hrun, hp.mapped hi hd h, fun q hqD hq => hp.mem_frame hi hd hqD fun hm => hq (hi.chain.linked_iff.mpr hm),
      initFree ff k.npages, free, hi.chain, hl, hsub, ?_⟩
    have hlen := hp.restored.perm.length_eq
    obtain ⟨_, _, h159, _⟩ := pageInit_list hb (hn ▸ h.npages_le) (hn ▸ h.npages_ge) ht₀
    have hsum := (dealt_perm (initFree ff k.npages)).length_eq
    rw [List.length_append] at hsum
    rw [hf, List.length_drop]
    omega
  · rwa [if_neg hff] at hc ⊢

/-- 8 MB of memory before `mem_init`, with the tables of `kern/entrypgdir.c` in the kernel's image. -/
def entryMachine : Kern where
  npages := 2048
  npagesBasemem := 160
  kernPgdir := 0
  pagesVa := 0
  pages := fun _ => ⟨none, 0⟩
  pageFreeList := none
  nextfree := 0
  kend := 0xF018DF14
  bootstack := 0xF0110000
  cr3 := 0x00118000
  mem := fun q i => if q = 280 then entryPgdir 281 i else if q = 281 then entryPgtable i else 0
  log := []

theorem entryMachine_linked : Linked entryMachine :=
  ⟨by decide, by decide, rfl, by decide, by decide, by decide, by decide⟩

theorem memInit_passes_small : ∃ k D t₀, entryMachine.memInitAlloc = .ok k ∧ k.kernPgdir = kva D ∧ k.pageInit = .ok t₀ ∧
    if (k.bootAlloc 0).1 < kva (entryMachine.npages - 1) then
      ∃ t, memInit.forget k = .ok ((), t) ∧ KernMapped D k.pagesVa entryMachine.bootstack t.mem ∧
        (∀ q, q ≠ D → ¬ t₀.onFree q → t.mem q = entryMachine.mem q) ∧
        ∃ l l', Chain t₀.link t₀.pageFreeList l ∧ Chain t.link t.pageFreeList l' ∧ l' ⊆ l ∧ l'.length + 66 = l.length
    else memInit.forget k = .error (.assertion "nfree_extmem > 0") :=
  memInit_passes entryMachine_linked

/-! ## The switch to `kern_pgdir` -/

theorem memInit_prepared (h : Linked s) (hk : s.memInitAlloc = .ok k) (ht : memInit.forget k = .ok ((), t)) :
    ∃ D ff t₀ w l free new, Booted D ff s k ∧ Laid D s k ∧ Kern.InitLoop ff k k.npages t₀ ∧
      Prepared D (initFree ff k.npages) t₀ w t l free new := by
  obtain ⟨D, ff, k', t₀, hk', hb, hd, _, hi, hc⟩ := memInit_cases h
  rw [hk, Except.ok.injEq] at hk'
  subst hk'
  by_cases hff : (k.bootAlloc 0).1 < kva (s.npages - 1)
  · rw [if_pos hff] at hc
    obtain ⟨t', w, l, free, new, hrun, hp⟩ := hc
    rw [ht, Except.ok.injEq, Prod.mk.injEq] at hrun
    obtain ⟨_, rfl⟩ := hrun
    exact ⟨D, ff, t₀, w, l, free, new, hb, hd, hi, hp⟩
  · rw [if_neg hff, ht] at hc
    cases hc

def InKernel (s : Kern) (q : Nat) : Prop := 256 ≤ q ∧ 4026531840 + q * 4096 < s.kend.toNat

theorem InKernel.reserved {q : Nat} (h : InKernel s q) (hs : Linked s) (hb : Booted D ff s k) (hd : Laid D s k) :
    q ≠ D ∧ q ∉ initFree ff k.npages := by
  have hce : pageCeil s.kend.toNat = (s.kend.toNat + 4095) / 4096 * 4096 := rfl
  have hdir := hd.dir
  have hff := hb.dir_used
  have hn := hb.npages
  have hle := hs.npages_le
  obtain ⟨h1, h2⟩ := h
  refine ⟨by omega, fun hm => ?_⟩
  obtain ⟨hlt, hr⟩ := mem_initFree.mp hm
  rw [reserved_iff (by omega)] at hr
  omega

theorem EntryTables.low {m : Mem} {E T : Nat} (h : EntryTables m E T) {va : Word} (hva : va < ptsize) :
    pte m E va = some (entryPgtable (ptx va)) := by
  have hlt := h.lt
  have hd : pdx va = 0 := by
    rw [BitVec.lt_def, ptsize_toNat] at hva
    rw [pdx_eq]
    omega
  have he : m E (pdx va) = page2pa T ||| pteP := by
    apply BitVec.eq_of_toNat_eq
    rw [h.dir _ (pdx_lt va), hd, or_flags_toNat (page2pa_aligned T) (by decide)]
    show (kva T - kernbase + pteP).toNat = _
    rw [kva_sub, BitVec.toNat_add, page2pa_toNat, pteP_toNat]
    omega
  have hT : target (m E (pdx va)) = some T := by
    rw [he, target_or (page2pa_aligned T) (by decide) (by decide), pgnum_page2pa (by omega)]
  have hx := ptx_lt va
  have hal : (BitVec.ofNat 32 (ptx va * 4096)).toNat % 4096 = 0 := by
    rw [BitVec.toNat_ofNat]
    omega
  have hw : target (m T (ptx va)) ≠ none := by
    rw [h.table _ hx, entryPgtable, BitVec.or_assoc, target_or hal (by decide) (by decide)]
    simp
  obtain ⟨U, hU⟩ := Option.ne_none_iff_exists'.mp hw
  rw [pte_eq hT, present_of_target hU, h.table _ hx]

theorem pteAddr_of_offset {y va b : Word} (hle : b ≤ va) (h : pteAddr y + pgoff va = va - b) :
    pteAddr y = page2pa (pgnum (va - b)) := by
  have hs : (va - b).toNat = va.toNat - b.toNat := BitVec.toNat_sub_of_le hle
  have hsum := congrArg BitVec.toNat h
  have hlt := y.isLt
  rw [BitVec.toNat_add, pteAddr_toNat, pgoff_toNat, hs] at hsum
  rw [BitVec.le_def] at hle
  apply BitVec.eq_of_toNat_eq
  rw [page2pa_toNat, pgnum_eq, pteAddr_toNat, hs]
  omega

theorem entryMachine_tables : EntryTables entryMachine.mem 280 281 :=
  ⟨by decide, fun _ _ => rfl, fun _ _ => rfl⟩

/-- The first 4 MB hold the kernel and all that `boot_alloc` gives out. -/
theorem entryMachine_memInit : ∃ k t, entryMachine.memInitAlloc = .ok k ∧ memInit.forget k = .ok ((), t) := by
  have h := entryMachine_linked
  obtain ⟨D, ff, k, hk, hb⟩ := memInitAlloc_booted h.npages_le h.nextfree h.kend_ge h.kend_lt
  have hd := memInitAlloc_laid hk hb h.nextfree h.kend_ge h.kend_lt
  have hn : k.npages = 2048 := hb.npages
  have hff := hb.used_low
  obtain ⟨_, t, ht, _⟩ := memInit_run hb hd (by omega) (by omega) (hd.bootstack ▸ h.bootstack_aligned)
    (hd.bootstack ▸ h.bootstack_ge) (by omega)
  exact ⟨k, t, hk, ht⟩

end Check

end Jos
