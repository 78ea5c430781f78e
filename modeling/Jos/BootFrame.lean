import Jos.KernMapSound

/-!
# What the maps of `mem_init` write

The three maps write `kern_pgdir` and pages of the free list, and nothing else.
-/

namespace Jos

open IntrusiveList

variable {D T : Nat} {s₀ s t : Kern} {free free' : List Nat} {va pa w perm : Word} {P : Nat → Prop} {n : Nat}

/-- The free pages and the tables of `D` are pages `P`, memory outside of them and of `D` is still that of `s₀`, and only
free pages are linked. -/
structure Within (D : Nat) (P : Nat → Prop) (s₀ s : Kern) (free : List Nat) : Prop where
  wf : Wf {D} mapIx s free
  kernPgdir : s.kernPgdir = kva D
  pagesVa : s.pagesVa = s₀.pagesVa
  pages : ∀ p ∈ free, P p
  table : ∀ T ∈ tables s.mem {D} mapIx, P T
  mem : ∀ q, q ≠ D → ¬ P q → s.mem q = s₀.mem q
  link : ∀ q ∉ free, s.link q = none

namespace Within

theorem dir (_ : Within D P s₀ s free) : D ∈ ({D} : Finset Nat) := Finset.mem_singleton_self D

theorem walk (h : Within D P s₀ s free) (hi : pdx va ∈ mapIx) (hw : WalkTo D va s free T t free') :
    Within D P s₀ t free' ∧ T ∈ tables t.mem {D} mapIx := by
  obtain ⟨hwf, ht, _⟩ := h.wf.walkTo_wf h.dir hi hw
  refine ⟨?_, table_of_dir h.dir hi ht⟩
  rcases hw with ⟨_, rfl, rfl⟩ | ⟨ho, rfl, rfl⟩
  · exact h
  · have hT := h.pages T List.mem_cons_self
    refine ⟨hwf, h.kernPgdir, h.pagesVa, fun p hp => h.pages p (List.mem_cons_of_mem T hp), fun U hU => ?_, fun q hqD hq => ?_, fun q hq => ?_⟩
    · rw [h.wf.tables_addTable h.dir hi ho, Finset.mem_insert] at hU
      rcases hU with rfl | hU
      · exact hT
      · exact h.table U hU
    · rw [← h.mem q hqD hq]
      funext j
      simp only [Kern.addTable, Kern.write_mem, Kern.setRef_mem, Kern.clear_mem, Kern.pop_mem]
      rw [Mem.set_of_page_ne _ hqD, Mem.clear_of_ne _ fun e : q = T => hq (e ▸ hT)]
    · rw [Kern.addTable, Kern.write_link, Kern.setRef_link, Kern.clear_link, Kern.pop_link]
      by_cases hqT : q = T
      · rw [hqT, Function.update_self]
      · rw [Function.update_of_ne hqT]
        exact h.link q fun hm => (List.mem_cons.mp hm).elim hqT hq

theorem write (h : Within D P s₀ s free) (hT : T ∈ tables s.mem {D} mapIx) (j : Nat) (v : Word) :
    Within D P s₀ (s.write T j v) free := by
  have hd := fun i => h.wf.write_dir_eq hT j v h.dir i
  refine ⟨h.wf.write_entry hT j v, h.kernPgdir, h.pagesVa, h.pages, fun U hU => ?_, fun q hqD hq => ?_, h.link⟩
  · rw [tables_congr fun E hE i _ => by rw [Finset.mem_singleton.mp hE, hd]] at hU
    exact h.table U hU
  · rw [← h.mem q hqD hq]
    funext k
    exact Mem.set_of_page_ne _ (fun e : q = T => hq (e ▸ h.table T hT)) v k

theorem loop (h : Within D P s₀ s free) (hi : ∀ k < n, pdx (va + BitVec.ofNat 32 (k * 4096)) ∈ mapIx)
    (ht : Kern.bootMapLoop (kva D) perm n s va pa = .ok t) : ∃ free', Within D P s₀ t free' := by
  induction n generalizing s free va pa with
  | zero =>
    cases ht
    exact ⟨free, h⟩
  | succ n ih =>
    have h0 : pdx va ∈ mapIx := by simpa using hi 0 (Nat.succ_pos n)
    rcases h.wf.walk_create h.dir h0 with ⟨_, _, he⟩ | ⟨T, u, free₁, hw, he⟩
    · simp [Kern.bootMapLoop, he] at ht
    · obtain ⟨hu, hT⟩ := h.walk h0 hw
      have hst := Kern.store_entry u (hu.wf.table_lt' hT) (ptx_lt va) (pa ||| pteP ||| perm)
      simp only [Kern.bootMapLoop, he, ok_bind, hst] at ht
      refine ih (hu.write hT _ _) (fun k hk => ?_) ht
      have := hi (k + 1) (by omega)
      rwa [Nat.add_mul, Nat.add_comm, Nat.one_mul, BitVec.ofNat_add, ← BitVec.add_assoc] at this

theorem region (h : Within D P s₀ s free) {size : Word} (hn : (size.toNat + 4095) / 4096 = n)
    (hv : va.toNat + n * 4096 ≤ 4294967296) (hi : ∀ k < n, (va.toNat + k * 4096) / 4194304 ≠ 957)
    (ht : s.bootMapRegion (kva D) va size pa perm = .ok t) : ∃ free', Within D P s₀ t free' := by
  unfold Kern.bootMapRegion at ht
  dsimp only at ht
  rw [numpage_toNat, hn] at ht
  refine h.loop (fun k hk => pdx_mapIx ?_) ht
  have := hi k hk
  rwa [pdx_eq, BitVec.toNat_add, BitVec.toNat_ofNat, Nat.mod_eq_of_lt (by omega : k * 4096 < 2 ^ 32),
    Nat.mod_eq_of_lt (by omega)]

end Within

/-- **The maps of `mem_init`** write only `kern_pgdir` and free pages, leave no page linked that is not free, and
`pages` where it is. -/
theorem MapStart.frame (h : MapStart D s free) (hl : ∀ q ∉ free, s.link q = none) (ht : s.memInitMap = .ok t) :
    (∀ q, q ≠ D → q ∉ free → t.mem q = s.mem q) ∧ t.pagesVa = s.pagesVa ∧
      ∃ free', Chain t.link t.pageFreeList free' ∧ ∀ q ∉ free', t.link q = none := by
  have hw : Within D (· ∈ free) s s free := by
    refine ⟨h.wf, h.kernPgdir, rfl, fun _ hp => hp, fun T hT => ?_, fun _ _ _ => rfl, hl⟩
    obtain ⟨E, hE, i, hi, hx⟩ := mem_tables.mp hT
    rw [Finset.mem_singleton.mp hE, h.target_none hi] at hx
    cases hx
  unfold Kern.memInitMap at ht
  obtain ⟨pa, _, ht⟩ := bind_eq_ok.mp ht
  rw [hw.kernPgdir] at ht
  obtain ⟨s₁, h1, ht⟩ := bind_eq_ok.mp ht
  obtain ⟨f₁, hw₁⟩ := hw.region (n := 1024) (by decide) (by decide) (by rw [upages_toNat]; omega) h1
  obtain ⟨pa', _, ht⟩ := bind_eq_ok.mp ht
  rw [hw₁.kernPgdir] at ht
  obtain ⟨s₂, h2, ht⟩ := bind_eq_ok.mp ht
  obtain ⟨f₂, hw₂⟩ := hw₁.region (n := 8) (by decide) (by decide)
    (by rw [show (kstacktop - kstksize).toNat = 4026499072 from rfl]; omega) h2
  rw [hw₂.kernPgdir] at ht
  obtain ⟨f₃, hw₃⟩ := hw₂.region (n := 65536) (by decide) (by decide) (by rw [kernbase_toNat]; omega) ht
  exact ⟨hw₃.mem, hw₃.pagesVa, f₃, hw₃.wf.chain, hw₃.link⟩

end Jos
