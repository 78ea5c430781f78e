import Jos.Runs

/-!
# Reserved pages are not handed out

Page 0, the pages of the IO hole and the pages from `EXTPHYSMEM` up to
`PADDR(boot_alloc(0))` start with a count of one and off the free list, and no
safe step gives their reference away, so `page_alloc` never returns one.

`page_remove` at an unmapped address whose page table exists is not safe:
`page_lookup` does not test `PTE_P`, so the zero entry is taken for a mapping of
page 0, which loses its reference and goes on the free list.
-/

namespace Jos

open IntrusiveList

def ReservedPage (firstFree : Word) (p : Nat) : Prop :=
  p = 0 ∨ (iophysmem ≤ page2pa p ∧ page2pa p < extphysmem) ∨ (extphysmem ≤ page2pa p ∧ page2pa p < firstFree)

/-- The memory in use ends above the IO hole, or the machine ends below the part of the hole
above it: true of any kernel linked at 1 MB. -/
def HoleBelow (npages : Nat) (firstFree : Word) : Prop :=
  ∀ p < npages, iophysmem ≤ page2pa p → page2pa p < extphysmem → page2pa p ≤ firstFree

theorem ofNat_mul_pgsize (p : Nat) : BitVec.ofNat 32 p * pgsize = page2pa p := by
  apply BitVec.eq_of_toNat_eq
  rw [page2pa_toNat, BitVec.toNat_mul, BitVec.toNat_ofNat, pgsize_toNat]
  omega

theorem HoleBelow.reserved {n p : Nat} {ff : Word} (h : HoleBelow n ff) (hp : p < n) (hr : ReservedPage ff p) :
    reserved ff p := by
  unfold Jos.reserved
  rw [ofNat_mul_pgsize]
  rcases hr with h0 | ⟨h1, h2⟩ | ⟨h1, h2⟩
  · exact Or.inl h0
  · exact Or.inr ⟨h1, h p hp h1 h2⟩
  · refine Or.inr ⟨?_, ?_⟩
    · simp only [BitVec.le_def, ge_iff_le, iophysmem_toNat, extphysmem_toNat] at h1 ⊢; omega
    · simp only [BitVec.le_def, BitVec.lt_def] at h2 ⊢; omega

theorem Inv.alloc_free {dirs ix : Finset Nat} {held : Nat → Nat} {s k : Kern} {free : List Nat} {f : Word} {p : Nat}
    (h : Inv dirs ix held s free) (ha : s.pageAlloc f = .ok (some p, k)) : p ∈ free := by
  cases free with
  | nil => rw [h.alloc_nil] at ha; cases ha
  | cons q t =>
    rw [h.alloc_cons, Except.ok.injEq, Prod.mk.injEq, Option.some.injEq] at ha
    rw [← ha.1]
    exact List.mem_cons_self

/-- **`page_alloc` returns no reserved page**, in any state that safe steps lead to. -/
theorem alloc_not_reserved {s₀ s k : Kern} {ff flags : Word} {dirs : Finset Nat} {c : Conf} {p : Nat}
    (hb : Boot userIx s₀ s ff dirs) (hh : HoleBelow s₀.npages ff)
    (hr : Reach (fun c op => op.Valid dirs c ∧ op.Safe c) ⟨dirs, s⟩ c)
    (ha : c.kern.pageAlloc flags = .ok (some p, k)) : ¬ ReservedPage ff p := by
  intro hp
  have hown : ∀ D ∈ dirs, 0 < bootRefs ff D := fun D hD => by rw [bootRefs, if_pos (hb.dir_reserved hD)]; decide
  obtain ⟨free, h, hn⟩ := run_inv (fun _ hi => mem_userIx.mpr hi)
    (fun i hi => by have := mem_userIx.mp hi; rw [npdentries]; omega) hown (fun _ _ ho => ho) hb.inv hr
  have hf := h.alloc_free ha
  have hpn : p < s₀.npages := by rw [← hb.loop.npages, ← hn]; exact h.free_lt p hf
  have h1 := (h.free_refs hf).1
  rw [bootRefs, if_pos (hh.reserved hpn hp)] at h1
  cases h1

/-! ## `page_remove` at an unmapped address -/

namespace Kern

variable {s : Kern} {D T : Nat} {va : Word}

/-- Where the page table of `va` exists and its entry is zero, `page_remove` drops a
reference of page 0. -/
theorem pageRemove_unmapped (hD : D < 65536) (ht : target (s.mem D (pdx va)) = some T) (hn : T < s.npages)
    (hT : T < 65536) (hz : s.mem T (ptx va) = 0) (hl : s.ref 0 - 1 = 0 → s.link 0 = none) :
    s.pageRemove (kva D) va = .ok (((s.dropRef 0).write T (ptx va) 0).invlpg va) := by
  have hg : pgnum (s.mem T (ptx va)) = 0 := by rw [hz]; rfl
  exact pageRemove_table hD ht hn hT hg (by omega) (pageDecref_eq hl)

theorem dropRef_last {p : Nat} (h : s.ref p = 1) : (s.dropRef p).pageFreeList = some p := by
  rw [dropRef, h, if_pos (by decide), push_pageFreeList]

end Kern

theorem Inv.walk_remove {dirs ix : Finset Nat} {held : Nat → Nat} {s : Kern} {T D : Nat} {t : List Nat} {va : Word}
    (h : Inv dirs ix held s (T :: t)) (hD : D ∈ dirs) (hi : pdx va ∈ ix)
    (ho : target (s.mem D (pdx va)) = none) (h0 : 0 ∉ T :: t) (hp : 0 < s.npages) (hr : s.ref 0 = 1) :
    ∃ s' s'', s.pgdirWalk (kva D) va true = .ok (some (entry (kva T) (ptx va)), s') ∧
      s'.pageRemove (kva D) va = .ok s'' ∧ s''.pageFreeList = some 0 := by
  have hTn := h.free_lt T List.mem_cons_self
  have := h.npages_le
  have hw : WalkTo D va s (T :: t) T (s.addTable D T va) t := Or.inr ⟨ho, rfl, rfl⟩
  obtain ⟨hs, ht, hn⟩ := h.walkTo_inv hD hi hw
  have hT := table_of_dir hD hi ht
  have hne : T ≠ D := fun e => h.dir_free D hD (e ▸ List.mem_cons_self)
  have hz : (s.addTable D T va).mem T (ptx va) = 0 := by
    exact Kern.addTable_entry hne.symm (ptx_lt va)
  have hl := hs.link_none 0 (hn ▸ hp) (Wf.walkTo_free hw h0)
  have hwalk := Kern.pgdirWalk_create (h.dir_lt D hD) ho h.head hTn (by omega)
  have hrem := Kern.pageRemove_unmapped (h.dir_lt D hD) ht (hs.table_lt T hT) (hs.table_lt' hT) hz fun _ => hl
  have hlast : ((s.addTable D T va).dropRef 0).pageFreeList = some 0 :=
    Kern.dropRef_last (by rw [Wf.walkTo_ref hw h0, hr])
  refine ⟨_, _, hwalk, hrem, ?_⟩
  rw [Kern.invlpg_pageFreeList, Kern.write_pageFreeList]
  exact hlast

theorem smallMachine_hole : HoleBelow smallMachine.npages smallEnd := by
  intro p _ _ h
  rw [BitVec.lt_def, extphysmem_toNat] at h
  rw [BitVec.le_def, show smallEnd.toNat = 1638400 from rfl]
  omega

/-- There page 511 is taken, mapped and removed, and `page_alloc` returns it again. -/
theorem alloc_not_reserved_small : ∃ k₁ k₂ k₃ k₄, RoundTrip ⟨{398}, smallBoot⟩ 398 511 0 pteW k₁ k₂ k₃ ∧
    k₃.pageAlloc 0 = .ok (some 511, k₄) ∧ ¬ ReservedPage smallEnd 511 := by
  obtain ⟨k₁, k₂, k₃, hrt, _, _, h₃, _⟩ := smallBoot_roundTrip userIx pteW (mem_userIx.mpr (by decide)) (by decide)
  have hr := (hrt.reach (fun c op => op.Valid {398} c ∧ op.Safe c) fun _ _ ho =>
    ⟨ho.1.mono (Finset.empty_subset _), Op.safe_of ho.2.1 ho.2.2⟩).2
  have ha := h₃.alloc_cons 0
  exact ⟨k₁, k₂, k₃, _, hrt, ha, alloc_not_reserved (smallMachine_boot userIx) smallMachine_hole hr ha⟩

/-- On that machine, a page table made by `pgdir_walk` and one `page_remove` at its unmapped
address let `page_alloc` return page 0. -/
theorem remove_unmapped_frees_zero : Boot userIx smallMachine smallBoot smallEnd {398} ∧
    HoleBelow smallMachine.npages smallEnd ∧
    ∃ c k, Reach (fun c op => op.Valid {398} c) ⟨{398}, smallBoot⟩ c ∧
      c.kern.pageAlloc 0 = .ok (some 0, k) ∧ ReservedPage smallEnd 0 := by
  refine ⟨smallMachine_boot _, smallMachine_hole, ?_⟩
  have hl := (smallMachine_boot userIx).loop
  have hD : 398 ∈ ({398} : Finset Nat) := Finset.mem_singleton_self 398
  have hi : pdx 0 ∈ userIx := mem_userIx.mpr (by decide)
  have hlt : (0 : Word) < utop := by decide
  have ho : target (smallBoot.mem 398 (pdx 0)) = none := by rw [hl.mem]; rfl
  have h0 : 0 ∉ 511 :: initFree smallEnd 511 := by
    rw [← smallBoot_head, mem_initFree]; exact fun hm => hm.2 (Or.inl rfl)
  have hr : smallBoot.ref 0 = 1 := by rw [hl.ref, if_pos ⟨by decide, Or.inl rfl⟩]
  obtain ⟨s, s', hw, hrem, hf⟩ := (smallBoot_inv _).walk_remove hD hi ho h0 (by rw [smallBoot_npages]; decide) hr
  refine ⟨⟨{398}, s'⟩, _, ?_, Kern.pageAlloc_zero hf, Or.inl rfl⟩
  have h1 : Step (fun c op => op.Valid {398} c) ⟨{398}, smallBoot⟩ ⟨{398}, s⟩ :=
    .mk (.walk 398 0 true) ⟨hD, hlt⟩ (Op.exec_walk hw)
  have h2 : Step (fun c op => op.Valid {398} c) ⟨{398}, s⟩ ⟨{398}, s'⟩ :=
    .mk (.remove 398 0) ⟨hD, hlt⟩ (by rw [Op.exec, hrem]; rfl)
  exact (Relation.ReflTransGen.single h1).tail h2

end Jos
