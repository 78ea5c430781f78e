import Jos.Runs

/-!
# `page_lookup`, `page_remove` and the translation

`page_lookup` answers NULL only where the page table is missing. Where the table
is there and the entry is not present, it answers the page of an empty entry,
and `page_remove` drops a reference of that page. Everywhere else both agree
with what `check_va2pa` finds.
-/

namespace Jos

open IntrusiveList

/-- `page_lookup` finds the page that `check_va2pa` finds, or NULL where that finds none. -/
def LookupAgrees (s : Kern) (D : Nat) (va : Word) : Prop :=
  ∃ (r : Option (Nat × Word)) (pa : Word), s.pageLookup (kva D) va = .ok (r, s) ∧ s.checkVa2pa (kva D) va = .ok pa ∧
    (r = none ↔ pa = ~~~0) ∧ (pa ≠ ~~~0 → r.map Prod.fst = some (pa / pgsize).toNat)

/-- `page_remove` changes nothing where no page is mapped; where `q` is, it clears the entry,
drops a reference of `q`, and frees `q` if that was the last. -/
def RemoveAgrees (s : Kern) (D : Nat) (va : Word) : Prop :=
  ∃ s', s.pageRemove (kva D) va = .ok s' ∧
    match mapped s.mem D va with
    | none => s'.mem = s.mem ∧ s'.ref = s.ref ∧ s'.link = s.link ∧ s'.pageFreeList = s.pageFreeList
    | some q => ∃ T, target (s.mem D (pdx va)) = some T ∧ s'.mem = s.mem.set T (ptx va) 0 ∧
        s'.ref = Function.update s.ref q (s.ref q - 1) ∧
        (s'.ref q = 0 → s'.link = Function.update s.link q s.pageFreeList ∧ s'.pageFreeList = some q) ∧
        (s'.ref q ≠ 0 → s'.link = s.link ∧ s'.pageFreeList = s.pageFreeList)

theorem pteAddr_ne (w : Word) : pteAddr w ≠ ~~~0 := by
  intro h
  have := congrArg BitVec.toNat h
  rw [pteAddr_toNat, show (~~~(0 : Word)).toNat = 4294967295 from rfl] at this
  omega

theorem pteAddr_div (w : Word) : (pteAddr w / pgsize).toNat = pgnum w := by
  rw [BitVec.toNat_udiv, pteAddr_toNat, pgsize_toNat, pgnum_eq]
  omega

section
variable {dirs ix : Finset Nat} {held : Nat → Nat} {s : Kern} {free : List Nat} {D T q : Nat} {va : Word}

/-! ## No page table -/

theorem lookup_absent (hD : D < 65536) (ht : target (s.mem D (pdx va)) = none) : LookupAgrees s D va := by
  refine ⟨none, ~~~0, Kern.pageLookup_absent hD ht, Kern.checkVa2pa_absent hD ht, ?_, fun h => absurd rfl h⟩
  exact iff_of_true rfl rfl

theorem remove_absent (hD : D < 65536) (ht : target (s.mem D (pdx va)) = none) : RemoveAgrees s D va := by
  refine ⟨s, Kern.pageRemove_absent hD ht, ?_⟩
  have hm : mapped s.mem D va = none := by
    rw [mapped, ht]
    rfl
  rw [hm]
  exact ⟨rfl, rfl, rfl, rfl⟩

/-! ## A present entry -/

section
variable (hD : D < 65536) (ht : target (s.mem D (pdx va)) = some T) (hn : T < s.npages) (hT : T < 65536)
include hD ht hn hT

theorem lookup_mapped (hq : target (s.mem T (ptx va)) = some q) (hqn : q < s.npages) : LookupAgrees s D va := by
  have hg := (target_eq_some.mp hq).2
  have hc := Kern.checkVa2pa_table hD ht hn hT
  rw [if_neg (by rw [hq]; exact Option.some_ne_none q)] at hc
  refine ⟨_, _, Kern.pageLookup_table hD ht hn hT hg hqn, hc, ?_, fun _ => ?_⟩
  · exact iff_of_false (Option.some_ne_none _) (pteAddr_ne _)
  · rw [Option.map_some, pteAddr_div, hg]

theorem remove_mapped (hq : target (s.mem T (ptx va)) = some q) (hqn : q < s.npages)
    (hl : s.ref q - 1 = 0 → s.link q = none) : RemoveAgrees s D va := by
  refine ⟨_, Kern.pageRemove_table hD ht hn hT (target_eq_some.mp hq).2 hqn (Kern.pageDecref_eq hl), ?_⟩
  have hm : mapped s.mem D va = some q := mapped_eq_some.mpr ⟨T, ht, hq⟩
  rw [hm]
  refine ⟨T, ht, ?_, ?_, fun h0 => ?_, fun h0 => ?_⟩
  · rw [Kern.invlpg_mem, Kern.write_mem, Kern.dropRef_mem]
  · rw [Kern.invlpg_ref, Kern.write_ref, Kern.dropRef_ref]
  · rw [Kern.invlpg_ref, Kern.write_ref, Kern.dropRef_ref, Function.update_self] at h0
    rw [Kern.invlpg_link, Kern.write_link, Kern.invlpg_pageFreeList, Kern.write_pageFreeList, Kern.dropRef, if_pos h0]
    rw [Kern.push_link, Kern.setRef_link, Kern.setRef_pageFreeList]
    exact ⟨rfl, rfl⟩
  · rw [Kern.invlpg_ref, Kern.write_ref, Kern.dropRef_ref, Function.update_self] at h0
    rw [Kern.invlpg_link, Kern.write_link, Kern.invlpg_pageFreeList, Kern.write_pageFreeList, Kern.dropRef, if_neg h0]
    exact ⟨Kern.setRef_link s q _, rfl⟩

/-! ## A table with no entry there -/

theorem lookup_empty (hz : target (s.mem T (ptx va)) = none) : ¬ LookupAgrees s D va := by
  rintro ⟨r, pa, hl, hc, hiff, _⟩
  rw [Kern.checkVa2pa_table hD ht hn hT, if_pos hz, Except.ok.injEq] at hc
  have hr := hiff.mpr hc.symm
  subst hr
  simp only [Kern.pageLookup, Kern.pgdirWalk_present hD ht hn, ok_bind, Kern.load_entry s hT (ptx_lt va)] at hl
  obtain ⟨pp, _, hl⟩ := bind_eq_ok.mp hl
  rw [pure_ok, Except.ok.injEq, Prod.mk.injEq] at hl
  cases hl.1

end

theorem agrees_iff (h : Inv dirs ix held s free) (hD : D ∈ dirs) (hi : pdx va ∈ ix) :
    LookupAgrees s D va ∧ RemoveAgrees s D va ↔ Op.Removable s D va := by
  have hDl := h.dir_lt D hD
  rw [Op.Removable]
  cases ht : target (s.mem D (pdx va)) with
  | none => exact iff_of_true ⟨lookup_absent hDl ht, remove_absent hDl ht⟩ (Or.inl rfl)
  | some T =>
    have hT := table_of_dir hD hi ht
    have hTn := h.table_lt T hT
    have hTl := h.table_lt' hT
    rw [mapped_eq ht]
    cases hq : target (s.mem T (ptx va)) with
    | none =>
      refine iff_of_false (fun ha => lookup_empty hDl ht hTn hTl hq ha.1) (fun hr => ?_)
      rcases hr with hr | hr
      · cases hr
      · exact hr rfl
    | some q =>
      have hqn := h.entry_lt T hT _ (ptx_lt va) q hq
      have hqf := h.entry_free hT (ptx_lt va) hq
      refine iff_of_true ⟨lookup_mapped hDl ht hTn hTl hq hqn, ?_⟩ (Or.inr (Option.some_ne_none q))
      exact remove_mapped hDl ht hTn hTl hq hqn fun _ => h.link_none q hqn hqf

end

/-- **Lookup and removal agree with the translation** exactly at addresses whose page table is
missing or whose entry is present, in every state that runs keeping to such removals reach. -/
theorem lookup_agrees_iff {s₀ s : Kern} {ff : Word} {dirs : Finset Nat} {c : Conf} {D : Nat} {va : Word}
    (hb : Boot userIx s₀ s ff dirs) (hr : Reach (fun c op => op.Valid dirs c ∧ op.Safe c) ⟨dirs, s⟩ c)
    (hD : D ∈ c.dirs) (hva : va < utop) :
    LookupAgrees c.kern D va ∧ RemoveAgrees c.kern D va ↔ Op.Removable c.kern D va := by
  have hown : ∀ D ∈ dirs, 0 < bootRefs ff D := fun D hD => by
    rw [bootRefs, if_pos (hb.dir_reserved hD)]
    decide
  have hle : ∀ i ∈ userIx, i < npdentries := fun i hi => by
    have := mem_userIx.mp hi
    rw [npdentries]
    omega
  obtain ⟨free, h, _⟩ := run_inv (fun _ hi => mem_userIx.mpr hi) hle hown (fun _ _ ho => ho) hb.inv hr
  exact agrees_iff h hD (mem_userIx.mpr (pdx_of_lt_utop hva))

theorem lookup_agrees_small : ∃ k₁ k₂ k₃, RoundTrip ⟨{398}, smallBoot⟩ 398 511 0 pteW k₁ k₂ k₃ ∧
    LookupAgrees k₂ 398 0 ∧ RemoveAgrees k₂ 398 0 := by
  obtain ⟨k₁, k₂, k₃, hrt, _, _, _, hp, _⟩ := smallBoot_roundTrip userIx pteW (mem_userIx.mpr (by decide)) (by decide)
  have hr := (hrt.reach (fun c op => op.Valid {398} c ∧ op.Safe c) fun _ _ ho =>
    ⟨ho.1.mono (Finset.empty_subset _), Op.safe_of ho.2.1 ho.2.2⟩).1
  have hm : mapped k₂.mem 398 0 ≠ none := by
    rw [Ne, mapped_eq_none, hp]
    exact Option.some_ne_none _
  exact ⟨k₁, k₂, k₃, hrt, (lookup_agrees_iff (smallMachine_boot userIx) hr (Finset.mem_singleton_self 398) (by decide)).mpr
    (Or.inr hm)⟩

/-- After `pgdir_walk(kern_pgdir, 0, 1)` on that machine, `page_lookup` finds a page at address 0
and `check_va2pa` finds none. -/
theorem lookup_disagrees : ∃ c : Conf, Reach (fun c op => op.Valid {398} c ∧ op.Safe c) ⟨{398}, smallBoot⟩ c ∧
    398 ∈ c.dirs ∧ (∃ x, c.kern.pageLookup (kva 398) 0 = .ok (some x, c.kern)) ∧
    c.kern.checkVa2pa (kva 398) 0 = .ok (~~~0) ∧
    ¬ (LookupAgrees c.kern 398 0 ∧ RemoveAgrees c.kern 398 0) := by
  have h := smallBoot_inv userIx
  have hD : 398 ∈ ({398} : Finset Nat) := Finset.mem_singleton_self 398
  have hi : pdx 0 ∈ userIx := mem_userIx.mpr (by decide)
  have hn : 0 < smallBoot.npages := by
    rw [smallBoot_npages]
    decide
  have ho : target (smallBoot.mem 398 (pdx 0)) = none := by
    rw [(smallMachine_boot userIx).loop.mem]
    rfl
  have hT := h.free_lt 511 List.mem_cons_self
  have hw : WalkTo 398 0 smallBoot (511 :: initFree smallEnd 511) 511 (smallBoot.addTable 398 511 0)
      (initFree smallEnd 511) := Or.inr ⟨ho, rfl, rfl⟩
  obtain ⟨h', ht, hn'⟩ := h.walkTo_inv hD hi hw
  have hz : (smallBoot.addTable 398 511 0).mem 511 (ptx 0) = 0 := by
    exact Kern.addTable_entry (by decide) (ptx_lt 0)
  have hz' : target ((smallBoot.addTable 398 511 0).mem 511 (ptx 0)) = none := by rw [hz, target_zero]
  have hg : pgnum ((smallBoot.addTable 398 511 0).mem 511 (ptx 0)) = 0 := by
    rw [hz]
    rfl
  have hTn : 511 < (smallBoot.addTable 398 511 0).npages := by
    rw [hn']
    exact hT
  have hl := Kern.pageLookup_table (by decide) ht hTn (by decide) hg (by rw [hn']; exact hn)
  have hc := Kern.checkVa2pa_table (by decide) ht hTn (by decide)
  rw [if_pos hz'] at hc
  have hstep : Step (fun c op => op.Valid {398} c ∧ op.Safe c) ⟨{398}, smallBoot⟩
      ⟨{398}, smallBoot.addTable 398 511 0⟩ := by
    refine .mk (.walk 398 0 true) ⟨⟨hD, by decide⟩, trivial⟩ ?_
    rw [Op.exec, Kern.pgdirWalk_create (by decide) ho h.head hT (by decide)]
    rfl
  exact ⟨⟨{398}, smallBoot.addTable 398 511 0⟩, .single hstep, hD, ⟨_, hl⟩, hc,
    fun ha => lookup_empty (by decide) ht hTn (by decide) hz' ha.1⟩

end Jos
