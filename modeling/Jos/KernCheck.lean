import Jos.MemInitSound
import Jos.Env

/-!
# The test of the kernel's map

`check_kern_pgdir`, which `mem_init` calls after its maps. It reads
`kern_pgdir` and changes nothing. The window at `UENVS` is tested as well, although
nothing has mapped it and `envs` is still null.
-/

namespace Jos

namespace Check

open Traced

def sizeofEnv : Word := 96

/-- `for (i = 0; i < n; i += PGSIZE)`, for a multiple `n` of `PGSIZE`. -/
def eachPage (n : Word) (f : Word → Checked Unit) : Checked Unit :=
  forM (List.range (pgnum n)) fun j => f (BitVec.ofNat 32 j * pgsize)

def checkPagesArray (pgdir : Word) : Checked Unit := do
  let s ← get
  let n := roundup (BitVec.ofNat 32 s.npages * sizeofPageInfo) pgsize
  eachPage n fun i => do
    let pa ← read fun s => paddr s.pagesVa
    assertVa2pa pgdir (upages + i) (pa + i) "check_va2pa(pgdir, UPAGES + i) == PADDR(pages) + i"

def checkEnvsArray (pgdir envs : Word) : Checked Unit :=
  let n := roundup (BitVec.ofNat 32 nenv * sizeofEnv) pgsize
  eachPage n fun i => do
    let pa ← read fun _ => paddr envs
    assertVa2pa pgdir (uenvs + i) (pa + i) "check_va2pa(pgdir, UENVS + i) == PADDR(envs) + i"

def checkPhysMem (pgdir : Word) : Checked Unit := do
  let s ← get
  eachPage (BitVec.ofNat 32 s.npages * pgsize) fun i =>
    assertVa2pa pgdir (kernbase + i) i "check_va2pa(pgdir, KERNBASE + i) == i"

def checkKernStack (pgdir : Word) : Checked Unit := do
  eachPage kstksize fun i => do
    let pa ← read fun s => paddr s.bootstack
    assertVa2pa pgdir (kstacktop - kstksize + i) (pa + i)
      "check_va2pa(pgdir, KSTACKTOP - KSTKSIZE + i) == PADDR(bootstack) + i"
  assertVa2pa pgdir (kstacktop - ptsize) (~~~0) "check_va2pa(pgdir, KSTACKTOP - PTSIZE) == ~0"

def checkPde (pgdir : Word) (i : Nat) : Checked Unit := do
  let pde ← load (entry pgdir i)
  if i = pdx uvpt ∨ i = pdx (kstacktop - 1) ∨ i = pdx upages ∨ i = pdx uenvs then
    assert (pde &&& pteP ≠ 0) "pgdir[i] & PTE_P"
  else if i ≥ pdx kernbase then
    assert (pde &&& pteP ≠ 0) "pgdir[i] & PTE_P"
    assert (pde &&& pteW ≠ 0) "pgdir[i] & PTE_W"
  else assert (pde = 0) "pgdir[i] == 0"

/-- `check_kern_pgdir`, with the global `envs`. -/
def checkKernPgdir (envs : Word) : Checked Unit := do
  let s ← get
  let pgdir := s.kernPgdir
  checkPagesArray pgdir
  checkEnvsArray pgdir envs
  checkPhysMem pgdir
  checkKernStack pgdir
  forM (List.range npdentries) (checkPde pgdir)

/-! ## Loops that change nothing -/

section
variable {t : Kern} {n : Word} {f : Word → Checked Unit}

theorem eachPage_returns (h : ∀ j < pgnum n, Returns (f (BitVec.ofNat 32 j * pgsize)) t fun _ u => u = t) :
    Returns (eachPage n f) t fun _ u => u = t := by
  unfold eachPage
  refine (Returns.forM (I := fun l u => (∀ j ∈ l, j < pgnum n) ∧ u = t) ?_ ⟨fun j hj => List.mem_range.mp hj, rfl⟩).mono
    fun _ _ hu => hu.2
  rintro j l u ⟨hl, rfl⟩
  exact (h j (hl j List.mem_cons_self)).mono fun _ _ hu => ⟨fun i hi => hl i (List.mem_cons_of_mem j hi), hu⟩

theorem eachPage_error {e : Stop} (hn : 0 < pgnum n) (h : (f 0).forget t = .error e) : (eachPage n f).forget t = .error e := by
  obtain ⟨m, hm⟩ := Nat.exists_eq_add_of_lt hn
  unfold eachPage
  rw [hm, Nat.zero_add, List.range_succ_eq_map, List.forM_cons, forget_bind,
    show BitVec.ofNat 32 0 * pgsize = 0 from rfl, h]
  rfl

theorem assertVa2pa_returns {pgdir va a : Word} {x : String} (h : t.checkVa2pa pgdir va = .ok a) :
    Returns (assertVa2pa pgdir va a x) t fun _ u => u = t := by
  unfold assertVa2pa
  apply (Returns.of_forget (Q := fun r u => r = a ∧ u = t) (by rw [forget_checkVa2pa, h]; rfl) ⟨rfl, rfl⟩).bind
  rintro _ _ ⟨rfl, rfl⟩
  exact returns_assert rfl rfl

theorem assertVa2pa_error {pgdir va a b : Word} {x : String} (h : t.checkVa2pa pgdir va = .ok b) (hne : b ≠ a) :
    (assertVa2pa pgdir va a x).forget t = .error (.assertion x) := by
  unfold assertVa2pa
  rw [forget_bind, forget_checkVa2pa, h]
  unfold assert require
  rw [stopped_ok, stop_ok_bind, stop_ok_bind, if_neg hne]
  rfl

end

/-! ## Mapped regions -/

section
variable {D j n : Nat} {t : Kern} {free : List Nat} {base pa : Word}

theorem page_toNat (hn : base.toNat + n * 4096 ≤ 4294967296) (hj : j < n) :
    (base + BitVec.ofNat 32 j * pgsize).toNat = base.toNat + j * 4096 := by
  rw [BitVec.toNat_add, BitVec.toNat_mul, BitVec.toNat_ofNat, pgsize_toNat]
  omega

theorem va2pa_region (h : Wf {D} mapIx t free) (hb : base.toNat % 4096 = 0) (hn : base.toNat + n * 4096 ≤ 4294967296)
    (hu : ∀ j < n, (base.toNat + j * 4096) / 4194304 ≠ 957)
    (hp : ∀ va, base ≤ va → va.toNat < base.toNat + n * 4096 →
      ∃ w, pte t.mem D va = some w ∧ pteAddr w + pgoff va = pa + (va - base)) (hj : j < n) :
    t.checkVa2pa (kva D) (base + BitVec.ofNat 32 j * pgsize) = .ok (pa + BitVec.ofNat 32 j * pgsize) := by
  have hva := page_toNat hn hj
  have h0 : pgoff (base + BitVec.ofNat 32 j * pgsize) = 0#32 := by
    apply BitVec.eq_of_toNat_eq
    rw [pgoff_toNat, hva]
    show _ = 0
    omega
  have hi : pdx (base + BitVec.ofNat 32 j * pgsize) ∈ mapIx := by
    refine pdx_mapIx ?_
    rw [pdx_eq, hva]
    exact hu j hj
  obtain ⟨w, hw, ha⟩ := hp (base + BitVec.ofNat 32 j * pgsize) (by rw [BitVec.le_def, hva]; omega) (by omega)
  rw [h0, BitVec.add_zero, BitVec.add_comm base, BitVec.add_sub_cancel] at ha
  rw [h.checkVa2pa_eq (Finset.mem_singleton_self D) hi, hw, Option.elim_some, ha]

end

theorem minus_one_ne {a : Word} (h : ¬ a < kernbase) : (~~~0 : Word) ≠ a - kernbase + 0 := by
  intro he
  have hv := congrArg BitVec.toNat he
  have hlt := a.isLt
  have h1 : (~~~0 : Word).toNat = 4294967295 := by decide
  rw [BitVec.lt_def, kernbase_toNat] at h
  rw [h1, show (0 : Word) = 0#32 from rfl, BitVec.add_zero, BitVec.toNat_sub, kernbase_toNat] at hv
  omega

/-! ## The tests after the maps -/

section
variable {D : Nat} {t : Kern} {free : List Nat} (h : Wf {D} mapIx t free) (hm : KernMapped D t.pagesVa t.bootstack t.mem)
  (hn : t.npages ≤ 65536)
include h hm

include hn in
theorem checkPagesArray_returns (hp : ¬ t.pagesVa < kernbase) : Returns (checkPagesArray (kva D)) t fun _ u => u = t := by
  have hu : upages.toNat = 4009754624 := upages_toNat
  have hsize : (BitVec.ofNat 32 t.npages * sizeofPageInfo).toNat = t.npages * 8 := by
    rw [BitVec.toNat_mul, BitVec.toNat_ofNat, show sizeofPageInfo.toNat = 8 from rfl]
    omega
  have hle : pgnum (roundup (BitVec.ofNat 32 t.npages * sizeofPageInfo) pgsize) ≤ 1024 := by
    rw [pgnum_eq, roundup_pageCeil, hsize, pageCeil]
    omega
  unfold checkPagesArray
  apply (Returns.get (Q := fun r u => t = r ∧ t = u) ⟨rfl, rfl⟩).bind
  rintro _ _ ⟨rfl, rfl⟩
  apply eachPage_returns
  intro j hj
  apply (returns_read (if_neg hp) (Q := fun r u => t.pagesVa - kernbase = r ∧ t = u) ⟨rfl, rfl⟩).bind
  rintro _ _ ⟨rfl, rfl⟩
  apply assertVa2pa_returns
  refine va2pa_region (n := 1024) h (by omega) (by omega) (fun j _ => by omega) (fun va h1 h2 => ?_) (by omega)
  obtain ⟨w, hw, ha, _⟩ := (hm.upages va h1 (by
    rw [BitVec.lt_def, show (upages + ptsize).toNat = 4013948928 from rfl]; omega)).2
  exact ⟨w, hw, ha⟩

include hn in
theorem checkPhysMem_returns : Returns (checkPhysMem (kva D)) t fun _ u => u = t := by
  have hk : kernbase.toNat = 4026531840 := kernbase_toNat
  have hle : pgnum (BitVec.ofNat 32 t.npages * pgsize) ≤ 65536 := by
    rw [pgnum_eq, BitVec.toNat_mul, BitVec.toNat_ofNat, pgsize_toNat]
    omega
  unfold checkPhysMem
  apply (Returns.get (Q := fun r u => t = r ∧ t = u) ⟨rfl, rfl⟩).bind
  rintro _ _ ⟨rfl, rfl⟩
  apply eachPage_returns
  intro j hj
  apply assertVa2pa_returns
  have hr : t.checkVa2pa (kva D) (kernbase + BitVec.ofNat 32 j * pgsize) = .ok (0#32 + BitVec.ofNat 32 j * pgsize) := by
    refine va2pa_region (n := 65536) h (by omega) (by omega) (fun j _ => by omega) (fun va h1 _ => ?_) (by omega)
    obtain ⟨w, hw, ha, _⟩ := hm.window va h1
    exact ⟨w, hw, by rw [ha, BitVec.zero_add]⟩
  rwa [BitVec.zero_add] at hr

theorem checkKernStack_returns (hb : ¬ t.bootstack < kernbase) : Returns (checkKernStack (kva D)) t fun _ u => u = t := by
  have hs : (kstacktop - kstksize).toNat = 4026499072 := rfl
  have hg : (kstacktop - ptsize).toNat = 4022337536 := rfl
  unfold checkKernStack
  refine (eachPage_returns (t := t) fun j hj => ?_).bind fun _ u hu => ?_
  · apply (returns_read (if_neg hb) (Q := fun r u => t.bootstack - kernbase = r ∧ t = u) ⟨rfl, rfl⟩).bind
    rintro _ _ ⟨rfl, rfl⟩
    apply assertVa2pa_returns
    refine va2pa_region (n := 8) h (by omega) (by omega) (fun j _ => by omega) (fun va h1 h2 => ?_) hj
    obtain ⟨w, hw, ha, _⟩ := hm.stack va h1 (by rw [BitVec.lt_def, show kstacktop.toNat = 4026531840 from rfl]; omega)
    exact ⟨w, hw, ha⟩
  · rw [hu]
    apply assertVa2pa_returns
    rw [h.checkVa2pa_eq (Finset.mem_singleton_self D) (pdx_mapIx (by decide)), hm.unmapped _ (Or.inr (by decide)),
      Option.elim_none]

theorem checkEnvsArray_error (envs : Word) : (checkEnvsArray (kva D) envs).forget t = .error (if envs < kernbase then
    .panic (.paddr envs) else .assertion "check_va2pa(pgdir, UENVS + i) == PADDR(envs) + i") := by
  unfold checkEnvsArray
  apply eachPage_error (by decide)
  by_cases he : envs < kernbase
  · rw [if_pos he, forget_bind, forget_read, show paddr envs = .error (.paddr envs) from if_pos he,
      stopped_error]
    rfl
  · rw [if_neg he, forget_bind, forget_read, show paddr envs = .ok (envs - kernbase) from if_neg he,
      stopped_ok, stop_ok_bind, stop_ok_bind]
    refine assertVa2pa_error (b := ~~~0) ?_ (minus_one_ne he)
    rw [h.checkVa2pa_eq (Finset.mem_singleton_self D) (pdx_mapIx (by decide)), hm.unmapped _ (Or.inl (by decide)),
      Option.elim_none]

end

/-! ## After the maps of `mem_init` -/

section
variable {D i : Nat} {t₀ w t : Kern} {l₀ l free new : List Nat}

theorem Prepared.pde (h : Prepared D l₀ t₀ w t l free new) (hi : i < 1024) :
    if i = 957 then t.mem D i = page2pa D ||| (pteU ||| pteP)
    else if i = 956 ∨ i = 959 ∨ 960 ≤ i then ∃ T, t.mem D i = page2pa T ||| tableFlags
    else t.mem D i = 0 := by
  have hz : i ≠ 957 → w.mem D i = 0 := fun hu => h.start.zero i (by rw [npdentries]; exact hi) hu
  by_cases hu : i = 957
  · subst hu
    rw [if_pos rfl, (h.maps.dir 957).resolve_right fun e => (mem_mapIx.mp e.1).1 rfl, ← BitVec.or_assoc]
    exact h.start.uvpt
  · rw [if_neg hu]
    split
    · rename_i hm
      -- one entry of the table is enough
      obtain ⟨j, x, hj, hx⟩ : ∃ j x, j / 1024 = i ∧ kernEntries w j = some x := by
        rcases hm with rfl | rfl | hm
        · exact ⟨978944, _, by decide, kernEntries_upages w (by decide) (by decide)⟩
        · exact ⟨983032, _, by decide, kernEntries_stack w (by decide) (by decide)⟩
        · exact ⟨i * 1024, _, by omega, kernEntries_window w (by omega) (by omega)⟩
      have ht := h.maps.dir_made j x hx
      rw [hj] at ht
      rcases h.maps.dir i with hd | ⟨_, _, T, _, hd⟩
      · rw [hd, hz hu, target_zero] at ht
        exact absurd rfl ht
      · exact ⟨T, hd⟩
    · rename_i hm
      rw [h.maps.dir_none i fun j hj => kernEntries_none w (by omega), hz hu]

theorem forget_assert {c : Prop} [Decidable c] {x : String} {s : Kern} (hc : ¬ c) :
    (assert c x).forget s = .error (.assertion x) := by
  unfold assert require
  rw [if_neg hc]
  rfl

theorem Prepared.checkPde (h : Prepared D l₀ t₀ w t l free new) (hi : i < 1024) : (checkPde (kva D) i).forget t =
    if i = pdx uenvs then .error (.assertion "pgdir[i] & PTE_P") else .ok ((), t) := by
  have hl := Kern.load_entry t h.start.dir_lt hi
  have hp := h.pde hi
  have hT : ∀ T : Nat, ∀ f : Word, f.toNat < 4096 → (page2pa T ||| tableFlags) &&& f = tableFlags &&& f :=
    fun T f hf => or_flags_and (page2pa_aligned T) hf
  unfold Check.checkPde
  rw [forget_bind, forget_load, hl, stopped_ok, stop_ok_bind, stop_ok_bind, show pdx uvpt = 957 from rfl,
    show pdx (kstacktop - 1) = 959 from rfl, show pdx upages = 956 from rfl, show pdx uenvs = 955 from rfl,
    show pdx kernbase = 960 from rfl]
  dsimp only
  by_cases he : i = 955
  · subst he
    rw [if_neg (by decide), if_neg (by decide)] at hp
    rw [if_pos (by decide), if_pos rfl, forget_assert (by rw [hp]; decide)]
  · rw [if_neg he]
    suffices hr : Returns (if i = 957 ∨ i = 959 ∨ i = 956 ∨ i = 955 then
        assert (t.mem D i &&& pteP ≠ 0) "pgdir[i] & PTE_P"
      else if i ≥ 960 then do
        assert (t.mem D i &&& pteP ≠ 0) "pgdir[i] & PTE_P"
        assert (t.mem D i &&& pteW ≠ 0) "pgdir[i] & PTE_W"
      else assert (t.mem D i = 0) "pgdir[i] == 0") t fun _ u => u = t by
      obtain ⟨_, u, hu, rfl⟩ := hr
      exact hu
    by_cases h957 : i = 957
    · rw [if_pos h957] at hp
      rw [if_pos (Or.inl h957), hp]
      exact returns_assert (by rw [or_flags_and (page2pa_aligned D) (by decide)]; decide) rfl
    · rw [if_neg h957] at hp
      by_cases hs : i = 956 ∨ i = 959 ∨ 960 ≤ i
      · rw [if_pos hs] at hp
        obtain ⟨T, hp⟩ := hp
        rw [hp]
        split
        · exact returns_assert (by rw [hT T _ (by decide)]; decide) rfl
        · rw [if_pos (by omega)]
          refine assert_then (by rw [hT T _ (by decide)]; decide) ?_
          exact returns_assert (by rw [hT T _ (by decide)]; decide) rfl
      · rw [if_neg hs] at hp
        rw [if_neg (by omega), if_neg (by omega)]
        exact returns_assert hp rfl

theorem Prepared.checkKernPgdir {envs : Word} (h : Prepared D l₀ t₀ w t l free new)
    (hm : KernMapped D t.pagesVa t.bootstack t.mem) (hp : ¬ t.pagesVa < kernbase) :
    (checkKernPgdir envs).forget t = .error (if envs < kernbase then .panic (.paddr envs) else
      .assertion "check_va2pa(pgdir, UENVS + i) == PADDR(envs) + i") := by
  have hwf := h.maps.wf
  obtain ⟨_, u, hpages, rfl⟩ := checkPagesArray_returns hwf hm (h.maps.npages ▸ h.start.npages_le) hp
  unfold Check.checkKernPgdir
  rw [forget_bind, forget_get, stop_ok_bind, forget_bind, h.maps.kernPgdir.trans h.start.kernPgdir, hpages, stop_ok_bind,
    forget_bind, checkEnvsArray_error hwf hm]
  rfl

end

section
variable {s k t : Kern} (h : Linked s)
include h

theorem memInit_mapped (hk : s.memInitAlloc = .ok k) (ht : memInit.forget k = .ok ((), t)) :
    ∃ D l₀ t₀ w l free new, Prepared D l₀ t₀ w t l free new ∧ KernMapped D t.pagesVa t.bootstack t.mem ∧
      ¬ t.pagesVa < kernbase ∧ ¬ t.bootstack < kernbase := by
  obtain ⟨D, ff, t₀, w, l, free, new, _, hd, hi, hp⟩ := memInit_prepared h hk ht
  have hpv : t.pagesVa = k.pagesVa :=
    ((hp.start.frame (fun _ => hp.link hi) hp.map).2.1.trans hp.restored.pagesVa).trans hi.pagesVa
  have hbs : t.bootstack = s.bootstack :=
    ((hp.maps.bootstack.trans hp.restored.bootstack).trans hi.bootstack).trans hd.bootstack
  refine ⟨D, _, t₀, w, l, free, new, hp, ?_, ?_, ?_⟩
  · rw [hpv, hbs]
    exact hp.mapped hi hd h
  · rw [hpv]
    exact hd.pagesVa_ge
  · rw [hbs]
    exact h.bootstack_ge

/-- **`check_kern_pgdir`** after the maps: the window at `UENVS` is missing, so that the test of the array `envs` stops
`mem_init`, in `PADDR` as long as `envs` is below `KERNBASE`; all other tests pass. -/
theorem checkKernPgdir_result (hk : s.memInitAlloc = .ok k) (ht : memInit.forget k = .ok ((), t)) (envs : Word) :
    (checkKernPgdir envs).forget t = .error (if envs < kernbase then .panic (.paddr envs) else
      .assertion "check_va2pa(pgdir, UENVS + i) == PADDR(envs) + i") ∧
    (checkPagesArray t.kernPgdir).forget t = .ok ((), t) ∧ (checkPhysMem t.kernPgdir).forget t = .ok ((), t) ∧
    (checkKernStack t.kernPgdir).forget t = .ok ((), t) ∧
    ∀ i < npdentries, (checkPde t.kernPgdir i).forget t =
      if i = pdx uenvs then .error (.assertion "pgdir[i] & PTE_P") else .ok ((), t) := by
  obtain ⟨D, _, _, _, _, _, _, hp, hm, hpv, hbs⟩ := memInit_mapped h hk ht
  have hwf := hp.maps.wf
  have hn : t.npages ≤ 65536 := hp.maps.npages ▸ hp.start.npages_le
  have hret : ∀ {y : Checked Unit}, Returns y t (fun _ u => u = t) → y.forget t = .ok ((), t) := by
    rintro y ⟨_, u, hu, rfl⟩
    exact hu
  rw [show t.kernPgdir = kva D from hp.maps.kernPgdir.trans hp.start.kernPgdir]
  exact ⟨hp.checkKernPgdir hm hpv, hret (checkPagesArray_returns hwf hm hn hpv), hret (checkPhysMem_returns hwf hm hn),
    hret (checkKernStack_returns hwf hm hbs), fun i hi => hp.checkPde hi⟩

omit h in
theorem checkKernPgdir_small : ∃ k t, entryMachine.memInitAlloc = .ok k ∧ memInit.forget k = .ok ((), t) ∧
    (checkKernPgdir 0).forget t = .error (.panic (.paddr 0)) := by
  obtain ⟨k, t, hk, ht⟩ := entryMachine_memInit
  exact ⟨k, t, hk, ht, (checkKernPgdir_result entryMachine_linked hk ht 0).1⟩

/-- With `envs` null, as nothing sets it, `mem_init` never comes to `lcr3`. -/
theorem memInit_stops : ∃ k, s.memInitAlloc = .ok k ∧ (memInit >>= fun _ => checkKernPgdir 0).forget k =
    .error (if (k.bootAlloc 0).1 < kva (s.npages - 1) then .panic (.paddr 0) else .assertion "nfree_extmem > 0") := by
  obtain ⟨D, ff, k, t₀, hk, _, _, _, _, hc⟩ := memInit_cases h
  refine ⟨k, hk, ?_⟩
  split
  · rename_i hff
    rw [if_pos hff] at hc
    obtain ⟨t, _, _, _, _, hrun, _⟩ := hc
    obtain ⟨D, _, _, _, _, _, _, hp, hm, hpv, _⟩ := memInit_mapped h hk hrun
    rw [forget_bind, hrun, stop_ok_bind, hp.checkKernPgdir hm hpv, if_pos (by decide)]
  · rename_i hff
    rw [if_neg hff] at hc
    rw [forget_bind, hc]
    rfl

end

end Check

end Jos
