import Jos.BootMap

/-!
# The three maps of `mem_init`

`mem_init` maps the array `pages` at `UPAGES`, the kernel stack below `KSTACKTOP`
and physical memory at `KERNBASE` in a directory that holds only its entry for
`UVPT`. Together they need 66 page tables: one, one, and 64.
-/

namespace Jos

open IntrusiveList

def mapIx : Finset Nat := (Finset.range npdentries).erase (pdx uvpt)

theorem mem_mapIx {i : Nat} : i ∈ mapIx ↔ i ≠ pdx uvpt ∧ i < 1024 := by
  rw [mapIx, Finset.mem_erase, Finset.mem_range]; rfl

theorem pdx_mapIx {va : Word} (h : pdx va ≠ pdx uvpt) : pdx va ∈ mapIx := mem_mapIx.mpr ⟨h, pdx_lt va⟩

def kernTables : Finset Nat := insert 956 (Finset.Ico 959 1024)

theorem mem_kernTables {i : Nat} : i ∈ kernTables ↔ i = 956 ∨ (959 ≤ i ∧ i < 1024) := by
  rw [kernTables, Finset.mem_insert, Finset.mem_Ico]

theorem kernTables_card : kernTables.card = 66 := by
  rw [kernTables, Finset.card_insert_of_notMem (by rw [Finset.mem_Ico]; omega), Nat.card_Ico]

attribute [irreducible] mapIx kernTables

/-- Before the maps: `kern_pgdir` is page `D`, zero but for its entry for `UVPT`. -/
structure MapStart (D : Nat) (s : Kern) (free : List Nat) : Prop where
  npages_le : s.npages ≤ 65536
  kernPgdir : s.kernPgdir = kva D
  chain : Chain s.link s.pageFreeList free
  free_lt : ∀ p ∈ free, p < s.npages
  dir_lt : D < 65536
  dir_free : D ∉ free
  uvpt : s.mem D (pdx uvpt) = page2pa D ||| pteU ||| pteP
  zero : ∀ i < npdentries, i ≠ pdx Jos.uvpt → s.mem D i = 0

def kernEntries (s : Kern) : Nat → Option Word := fun j =>
  region 983040 65536 0 (pteW ||| pteP) j <|>
    (region 983032 8 (pgnum (s.bootstack - kernbase)) (pteW ||| pteP) j <|>
      region 978944 1024 (pgnum (s.pagesVa - kernbase)) (pteU ||| pteP) j)

section
variable (s : Kern) {j : Nat}

theorem kernEntries_window (h1 : 983040 ≤ j) (h2 : j < 1048576) : kernEntries s j =
    some (page2pa (pgnum 0 + (j - pgnum kernbase)) ||| pteP ||| (pteW ||| pteP)) := by
  rw [kernEntries, region_in h1 (by omega)]; rfl

theorem kernEntries_stack (h1 : 983032 ≤ j) (h2 : j < 983040) : kernEntries s j =
    some (page2pa (pgnum (s.bootstack - kernbase) + (j - pgnum (kstacktop - kstksize))) ||| pteP |||
      (pteW ||| pteP)) := by
  rw [kernEntries, region_out (by omega), region_in h1 (by omega)]; rfl

theorem kernEntries_upages (h1 : 978944 ≤ j) (h2 : j < 979968) : kernEntries s j =
    some (page2pa (pgnum (s.pagesVa - kernbase) + (j - pgnum upages)) ||| pteP ||| (pteU ||| pteP)) := by
  rw [kernEntries, region_out (by omega), region_out (by omega), region_in h1 (by omega)]; rfl

theorem kernEntries_none (h : j < 978944 ∨ (979968 ≤ j ∧ j < 983032) ∨ 1048576 ≤ j) : kernEntries s j = none := by
  rw [kernEntries, region_out (by omega), region_out (by omega), region_out (by omega)]; rfl

end

namespace MapStart

variable {D : Nat} {s k : Kern} {free : List Nat}

theorem target_none (h : MapStart D s free) {i : Nat} (hi : i ∈ mapIx) : target (s.mem D i) = none := by
  obtain ⟨hne, hlt⟩ := mem_mapIx.mp hi
  rw [h.zero i hlt hne, target_zero]

theorem wf (h : MapStart D s free) : Wf {D} mapIx s free := by
  have ht : tables s.mem {D} mapIx = ∅ := by
    ext T
    rw [mem_tables]
    refine iff_of_false ?_ (Finset.notMem_empty T)
    rintro ⟨E, hE, i, hi, ht⟩
    rw [Finset.mem_singleton.mp hE, h.target_none hi] at ht
    cases ht
  refine ⟨h.npages_le, h.chain, h.free_lt, fun E hE => ?_, fun E hE => ?_, ?_, ?_, ?_, ?_⟩
  · rw [Finset.mem_singleton.mp hE]; exact h.dir_lt
  · rw [Finset.mem_singleton.mp hE]; exact h.dir_free
  · rw [ht]; intro T hT; cases hT
  · rw [ht]; intro T hT; cases hT
  · rw [ht]; intro T hT; cases hT
  · intro E hE E' hE' i hi i' hi' T h1 _
    rw [Finset.mem_singleton.mp hE, h.target_none hi] at h1
    cases h1

theorem need (h : MapStart D s free) : need s.mem D kernTables = 66 := by
  rw [Jos.need, Finset.filter_true_of_mem, kernTables_card]
  intro i hi
  have hi' := mem_kernTables.mp hi
  exact h.target_none (mem_mapIx.mpr ⟨by rw [show pdx Jos.uvpt = 957 from rfl]; omega, by omega⟩)

theorem mem_dirs : D ∈ ({D} : Finset Nat) := Finset.mem_singleton_self D

theorem maps (h : MapStart D s free) (hp : s.pagesVa.toNat % 4096 = 0) (hb : s.bootstack.toNat % 4096 = 0) :
    (∃ e, s.memInitMap = .error e ∧ (free.length < 66 ∨ s.pagesVa < kernbase ∨ s.bootstack < kernbase)) ∨
    ∃ k free' new, s.memInitMap = .ok k ∧ Maps {D} mapIx D (kernEntries s) s k free free' new := by
  have hsub : ∀ a : Word, a.toNat % 4096 = 0 → (a - kernbase).toNat % 4096 = 0 := fun a ha => by
    rw [BitVec.toNat_sub, kernbase_toNat]; omega
  have hu : pdx Jos.uvpt = 957 := rfl
  by_cases hpk : s.pagesVa < kernbase
  · have hp1 : paddr s.pagesVa = .error (.paddr s.pagesVa) := if_pos hpk
    exact Or.inl ⟨.paddr s.pagesVa, by simp only [Kern.memInitMap, hp1, error_bind], Or.inr (Or.inl hpk)⟩
  have hp1 : paddr s.pagesVa = .ok (s.pagesVa - kernbase) := if_neg hpk
  simp only [Kern.memInitMap, hp1, ok_bind, h.kernPgdir]
  have r1 := bootMapRegion_maps upages ptsize _ (pteU ||| pteP) h.wf mem_dirs (by decide)
    (by decide) (hsub _ hp)
  rw [show pgnum upages = 978944 from rfl, show (ptsize.toNat + 4095) / 4096 = 1024 from rfl] at r1
  rcases r1 (by decide) fun j h1 h2 => mem_mapIx.mpr ⟨by omega, by omega⟩ with ⟨he, hlt⟩ | ⟨s₁, f₁, n₁, he, m₁⟩
  · refine Or.inl ⟨_, by rw [he, error_bind], Or.inl ?_⟩
    rw [← h.need]
    exact hlt kernTables fun j h1 h2 => mem_kernTables.mpr (by omega)
  have c1 := m₁.count kernTables fun j w hj => by
    have := region_range hj
    exact mem_kernTables.mpr (by omega)
  by_cases hbk : s.bootstack < kernbase
  · have hp2 : paddr s.bootstack = .error (.paddr s.bootstack) := if_pos hbk
    exact Or.inl ⟨.paddr s.bootstack, by simp only [he, ok_bind, m₁.bootstack, hp2, error_bind],
      Or.inr (Or.inr hbk)⟩
  have hp2 : paddr s.bootstack = .ok (s.bootstack - kernbase) := if_neg hbk
  simp only [he, ok_bind, m₁.bootstack, hp2, m₁.kernPgdir, h.kernPgdir]
  have r2 := bootMapRegion_maps (kstacktop - kstksize) kstksize _ (pteW ||| pteP) m₁.wf mem_dirs
    (by decide) (by decide) (hsub _ hb)
  rw [show pgnum (kstacktop - kstksize) = 983032 from rfl, show (kstksize.toNat + 4095) / 4096 = 8 from rfl] at r2
  rcases r2 (by decide) fun j h1 h2 => mem_mapIx.mpr ⟨by omega, by omega⟩ with ⟨he, hlt⟩ | ⟨s₂, f₂, n₂, he, m₂⟩
  · refine Or.inl ⟨_, by rw [he, error_bind], Or.inl ?_⟩
    have := hlt kernTables fun j h1 h2 => mem_kernTables.mpr (by omega)
    rw [← h.need, c1, m₁.took, List.length_append]
    omega
  have m₁₂ := m₁.trans h.chain.nodup m₂
  have c2 := m₂.count kernTables fun j w hj => by
    have := region_range hj
    exact mem_kernTables.mpr (by omega)
  simp only [he, ok_bind, m₂.kernPgdir, m₁.kernPgdir, h.kernPgdir]
  have r3 := bootMapRegion_maps kernbase (0xffffffff - kernbase) 0 (pteW ||| pteP)
    m₂.wf mem_dirs (by decide) (by decide) (by decide)
  rw [show pgnum kernbase = 983040 from rfl, show ((0xffffffff - kernbase).toNat + 4095) / 4096 = 65536 from rfl,
    show pgnum 0 = 0 from rfl] at r3
  rcases r3 (by decide) fun j h1 h2 => mem_mapIx.mpr ⟨by omega, by omega⟩ with ⟨he, hlt⟩ | ⟨s₃, f₃, n₃, he, m₃⟩
  · refine Or.inl ⟨_, he, Or.inl ?_⟩
    have := hlt kernTables fun j h1 h2 => mem_kernTables.mpr (by omega)
    rw [← h.need, c1, m₁.took, m₂.took, List.length_append, List.length_append]
    omega
  · exact Or.inr ⟨s₃, f₃, _, he, m₁₂.trans h.chain.nodup m₃⟩

end MapStart

end Jos
