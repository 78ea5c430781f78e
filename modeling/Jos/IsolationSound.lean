import Jos.KernMapSound

/-!
# What user mode sees of physical memory

`mem_init` maps `PTSIZE` bytes at `UPAGES`, user-readable, while the array
`pages` fills at most 128 pages of them. The rest of the window shows whatever
physical memory follows the array, and that is where the free pages are: on the
machine with 2 MB, user mode reads pages that `page_alloc` hands out later.
-/

namespace Jos

open IntrusiveList

def UserReaches (m : Mem) (D p : Nat) : Prop :=
  ∃ va w, m D (pdx va) &&& pteU ≠ 0 ∧ pte m D va = some w ∧ w &&& pteU ≠ 0 ∧ pgnum w = p

/-- No page that `page_alloc` can hand out is seen by user mode. -/
def FreeHidden (D : Nat) (k : Kern) : Prop := ∀ p, k.onFree p → ¬ UserReaches k.mem D p

def OnlyPages (D : Nat) (k : Kern) (pagesVa : Word) (npages : Nat) : Prop :=
  ∀ va, upages ≤ va → va < upages + ptsize → ∀ w, pte k.mem D va = some w → w &&& pteU ≠ 0 →
    pgnum (pagesVa - kernbase) ≤ pgnum w ∧ (pteAddr w).toNat < (pagesVa - kernbase).toNat + npages * 8

theorem pagesVa_window {s k : Kern} (h : s.memInitMap = .ok k) : ¬ s.pagesVa < kernbase := by
  intro hlt
  have hp : paddr s.pagesVa = .error (.paddr s.pagesVa) := if_pos hlt
  simp only [Kern.memInitMap, hp, error_bind, reduceCtorEq] at h

theorem pgnum_pagesVa {a : Word} (h : ¬ a < kernbase) : pgnum (a - kernbase) < 65536 := by
  have := a.isLt
  rw [BitVec.lt_def, kernbase_toNat] at h
  rw [pgnum_eq, BitVec.toNat_sub, kernbase_toNat]
  omega

theorem pgnum_region {q : Nat} (perm : Word) (hq : q < 1048576) (hp : perm.toNat < 4096) :
    pgnum (page2pa q ||| pteP ||| perm) = q := by
  rw [BitVec.or_assoc, pgnum_or_flags (page2pa_aligned q) (or_flags_lt (by decide) hp), pgnum_page2pa hq]

namespace MapStart

variable {D p : Nat} {s k : Kern} {free free' new : List Nat}

theorem maps_free (h : MapStart D s free) (m : Maps {D} mapIx D (kernEntries s) s k free free' new) :
    free' = free.drop 66 := by
  have hR : ∀ j w, kernEntries s j = some w → j / 1024 ∈ kernTables := fun j w hj => by
    have hr : ¬ (j < 978944 ∨ (979968 ≤ j ∧ j < 983032) ∨ 1048576 ≤ j) := fun hn => by
      rw [kernEntries_none s hn] at hj
      cases hj
    exact mem_kernTables.mpr (by omega)
  have hmade : ∀ i ∈ kernTables, ¬ target (k.mem D i) = none := fun i hi => by
    rcases mem_kernTables.mp hi with rfl | ⟨h1, h2⟩
    · exact m.dir_made _ _ (kernEntries_upages s (j := 978944) (by decide) (by decide))
    · by_cases h9 : i = 959
      · subst h9
        exact m.dir_made _ _ (kernEntries_stack s (j := 983032) (by decide) (by decide))
      · have := m.dir_made _ _ (kernEntries_window s (j := i * 1024) (by omega) (by omega))
        rwa [Nat.mul_div_cancel _ (by decide)] at this
  have hk : Jos.need k.mem D kernTables = 0 := by
    rw [Jos.need, Finset.card_eq_zero, Finset.filter_eq_empty_iff]
    exact hmade
  have hc := m.count kernTables hR
  rw [h.need, hk, Nat.zero_add] at hc
  rw [m.took, hc, List.drop_left]

theorem uvpt_not_free (h : MapStart D s free) (m : Maps {D} mapIx D (kernEntries s) s k free free' new)
    {va w : Word} (hva : pdx va = pdx Jos.uvpt) (hw : pte k.mem D va = some w) : pgnum w ∉ free' := by
  intro hf
  have hD : D < 1048576 := Nat.lt_trans h.dir_lt (by decide)
  have hn := h.chain.nodup
  have hf' : pgnum w ∈ free := by rw [m.took]; exact List.mem_append_right _ hf
  have hself : k.mem D (pdx Jos.uvpt) = page2pa D ||| pteU ||| pteP := by
    rw [(m.dir (pdx Jos.uvpt)).resolve_right fun e => (mem_mapIx.mp e.1).1 rfl, h.uvpt]
  have ht : target (k.mem D (pdx va)) = some D := by
    rw [hva, hself, target_pte hD (by decide)]
  rw [pte_eq ht] at hw
  by_cases hi : ptx va = pdx Jos.uvpt
  · rw [hi, hself, present_of_target (target_pte hD (by decide)), Option.some.injEq] at hw
    rw [← hw, BitVec.or_assoc, pgnum_or_flags (page2pa_aligned D) (by decide), pgnum_page2pa hD] at hf'
    exact h.dir_free hf'
  · rcases m.dir (ptx va) with hd | ⟨_, _, T, hT, hd⟩
    · rw [hd, h.zero _ (ptx_lt va) hi, present_zero] at hw
      cases hw
    · have hTn : T < 1048576 := by
        have := h.free_lt T (by rw [m.took]; exact List.mem_append_left _ hT)
        have := h.npages_le
        omega
      rw [hd, present_of_target (target_table hTn), Option.some.injEq] at hw
      rw [← hw, pgnum_or_flags (page2pa_aligned T) (by decide), pgnum_page2pa hTn] at hf
      rw [m.took] at hn
      exact (List.nodup_append.mp hn).2.2 T hT T hf rfl

theorem userReaches_iff (h : MapStart D s free) (m : Maps {D} mapIx D (kernEntries s) s k free free' new)
    (hq : pgnum (s.pagesVa - kernbase) < 65536) (hp : p ∈ free') :
    UserReaches k.mem D p ↔ pgnum (s.pagesVa - kernbase) ≤ p ∧ p < pgnum (s.pagesVa - kernbase) + 1024 := by
  have hu : pdx Jos.uvpt = 957 := rfl
  constructor
  · rintro ⟨va, w, _, hw, hU, rfl⟩
    have hva : pdx va ≠ pdx Jos.uvpt := fun e => h.uvpt_not_free m e hw hp
    rw [h.pte_maps m hva] at hw
    have hlt := pgnum_lt va
    by_cases hin : 978944 ≤ pgnum va ∧ pgnum va < 979968
    · rw [kernEntries_upages s hin.1 hin.2, Option.some.injEq] at hw
      have hq : pgnum (s.pagesVa - kernbase) + (pgnum va - pgnum upages) < 1048576 := by
        rw [show pgnum upages = 978944 from rfl]
        omega
      have hg := pgnum_region (pteU ||| pteP) hq (by decide)
      rw [← hw, hg, show pgnum upages = 978944 from rfl]
      omega
    · by_cases hs : 983032 ≤ pgnum va ∧ pgnum va < 983040
      · rw [kernEntries_stack s hs.1 hs.2, Option.some.injEq] at hw
        rw [← hw, region_flags _ (by decide)] at hU
        exact absurd (by decide) hU
      · by_cases hk : 983040 ≤ pgnum va
        · rw [kernEntries_window s hk hlt, Option.some.injEq] at hw
          rw [← hw, region_flags _ (by decide)] at hU
          exact absurd (by decide) hU
        · rw [kernEntries_none s (by omega)] at hw
          cases hw
  · rintro ⟨h1, h2⟩
    have hlt : 978944 + (p - pgnum (s.pagesVa - kernbase)) < 1048576 := by omega
    have hg := pgnum_page2pa hlt
    have hd : pdx (page2pa (978944 + (p - pgnum (s.pagesVa - kernbase)))) ≠ pdx Jos.uvpt := by
      rw [pdx_page2pa hlt]; omega
    have he := kernEntries_upages s (j := pgnum (page2pa (978944 + (p - pgnum (s.pagesVa - kernbase)))))
      (by omega) (by omega)
    refine ⟨_, _, h.dir_user m he hd, (h.pte_maps m hd).trans he, ?_, ?_⟩
    · rw [region_flags _ (by decide)]; decide
    · rw [hg, show pgnum upages = 978944 from rfl, pgnum_region _ (by omega) (by decide)]
      omega

end MapStart

/-- **User mode sees more than `pages`**, whatever the machine, and it sees no free page exactly when
the page tables of `mem_init` take every free page from the window at `UPAGES`. -/
theorem not_isolated {D : Nat} {s k : Kern} {free : List Nat} (h : MapStart D s free)
    (hp : s.pagesVa.toNat % 4096 = 0) (hb : s.bootstack.toNat % 4096 = 0) (hk : s.memInitMap = .ok k) :
    ¬ (FreeHidden D k ∧ OnlyPages D k s.pagesVa s.npages) ∧
    (FreeHidden D k ↔ ∀ p ∈ free.drop 66,
      ¬ (pgnum (s.pagesVa - kernbase) ≤ p ∧ p < pgnum (s.pagesVa - kernbase) + 1024)) := by
  have hq := pgnum_pagesVa (pagesVa_window hk)
  rcases h.maps hp hb with ⟨e, he, _⟩ | ⟨k', free', new, he, m⟩
  · rw [he] at hk; cases hk
  rw [he, Except.ok.injEq] at hk
  subst hk
  constructor
  · -- the last page of the window lies beyond the array of any machine
    rintro ⟨_, ho⟩
    have hlast : upages ≤ (0xEF3FF000 : Word) ∧ (0xEF3FF000 : Word) < upages + ptsize := by decide
    obtain ⟨_, w, hw, ha, hU, _⟩ := (h.kernMapped hp hb m).upages 0xEF3FF000 hlast.1 hlast.2
    have hlt := (ho 0xEF3FF000 hlast.1 hlast.2 w hw hU).2
    have hn := h.npages_le
    rw [pgnum_eq] at hq
    have hsum := congrArg BitVec.toNat ha
    rw [BitVec.toNat_add, BitVec.toNat_add, show (pgoff 0xEF3FF000).toNat = 0 from rfl,
      show ((0xEF3FF000 : Word) - upages).toNat = 4190208 from rfl] at hsum
    omega
  · rw [← h.maps_free m]
    have hf : ∀ p, k'.onFree p ↔ p ∈ free' := fun p => m.wf.chain.linked_iff
    constructor
    · intro hh p hpf
      rw [← h.userReaches_iff m hq hpf]
      exact hh p ((hf p).mpr hpf)
    · intro hh p hpf
      rw [hf] at hpf
      rw [h.userReaches_iff m hq hpf]
      exact hh p hpf

theorem smallBoot_drop (n : Nat) (hn : n ≤ 66) : (initFree smallEnd (446 + n)).drop n = initFree smallEnd 446 := by
  induction n with
  | zero => rfl
  | succ n ih =>
    have hr : ¬ reserved smallEnd (446 + n) := not_reserved_above (by omega) (by omega)
    rw [← Nat.add_assoc, initFree_succ, if_neg hr, List.drop_succ_cons]
    exact ih (by omega)

theorem not_isolated_small : ∃ k, smallKern.memInitMap = .ok k ∧
    ¬ (FreeHidden 398 k ∧ OnlyPages 398 k smallKern.pagesVa smallKern.npages) := by
  obtain ⟨k, free', new, hk, _⟩ := smallKern_maps
  exact ⟨k, hk, (not_isolated smallKern_start (by rw [smallKern_pagesVa]; decide)
    (by rw [smallKern_bootstack]; decide) hk).1⟩

/-- On the small machine page 401 is free and user mode reads it at `UPAGES` + 2 pages. -/
theorem free_page_visible : ∃ k, smallKern.memInitMap = .ok k ∧ k.onFree 401 ∧ UserReaches k.mem 398 401 := by
  obtain ⟨k, free', new, hk, m⟩ := smallKern_maps
  have hf : 401 ∈ free' := by
    rw [smallKern_start.maps_free m, show smallMachine.npages = 446 + 66 from rfl, smallBoot_drop 66 (by decide),
      mem_initFree]
    exact ⟨by decide, not_reserved_above (by decide) (by decide)⟩
  refine ⟨k, hk, m.wf.chain.linked_iff.mpr hf, ?_⟩
  rw [smallKern_start.userReaches_iff m (by rw [smallKern_pagesVa]; decide) hf, smallKern_pagesVa]
  decide

end Jos
