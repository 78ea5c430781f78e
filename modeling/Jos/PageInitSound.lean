import Jos.Runs
import Jos.WindowSound

/-!
# Which pages `page_init` frees

`page_init` takes the fixed address of the IO hole for the end of base memory and
keeps back the page at `PADDR(boot_alloc(0))`. The pages it frees are those that
its comment lists only for some machines: `free_usable_iff` and `usable_free_iff`
say for which.
-/

namespace Jos

open IntrusiveList

theorem reserved_iff {ff : Word} {i : Nat} (hi : i < 65536) :
    reserved ff i ↔ i = 0 ∨ (160 ≤ i ∧ i * 4096 ≤ ff.toNat) := by
  unfold reserved
  simp only [ge_iff_le, BitVec.le_def, BitVec.toNat_mul, BitVec.toNat_ofNat, pgsize_toNat, iophysmem_toNat]
  rw [show i % 2 ^ 32 * 4096 % 2 ^ 32 = i * 4096 by omega]
  omega

section
variable {s t : Kern} {ff : Word} (hn : s.npages ≤ 65536) (hz : ∀ p, s.pages p = ⟨none, 0⟩)
  (hi : s.pageInit = .ok t) (hf : paddr (s.bootAlloc 0).1 = .ok ff)
include hz hi hf

theorem pageInit_loop : Kern.InitLoop ff s s.npages t := by
  obtain ⟨ff', hf', hl⟩ := Kern.pageInit_spec hz hi
  rw [hf, Except.ok.injEq] at hf'
  exact hf' ▸ hl

include hn

theorem pageInit_onFree {i : Nat} : t.onFree i ↔ i < s.npages ∧ i ≠ 0 ∧ (i < 160 ∨ ff.toNat < i * 4096) := by
  have hl := pageInit_loop hz hi hf
  rw [Kern.onFree, hl.chain.linked_iff, mem_initFree]
  constructor
  · rintro ⟨hlt, hr⟩
    rw [reserved_iff (by omega)] at hr
    omega
  · rintro ⟨hlt, hr⟩
    rw [reserved_iff (by omega)]
    omega

/-- **Only usable memory is free** after `page_init` just when base memory reaches up to the IO hole
(or to the end of memory), or the memory in use ends within base memory. -/
theorem free_usable_iff : (∀ i, t.onFree i → i < s.npages ∧
      ((1 ≤ i ∧ i < s.npagesBasemem) ∨ ff.toNat ≤ i * 4096)) ↔
    min 160 s.npages ≤ max 1 s.npagesBasemem ∨ ff.toNat ≤ max 1 s.npagesBasemem * 4096 := by
  constructor
  · intro h
    -- the first page above base memory decides
    by_cases hm : min 160 s.npages ≤ max 1 s.npagesBasemem
    · exact Or.inl hm
    · have := (h (max 1 s.npagesBasemem) ((pageInit_onFree hn hz hi hf).mpr (by omega))).2
      exact Or.inr (by omega)
  · intro h i hfree
    have := (pageInit_onFree hn hz hi hf).mp hfree
    omega

end

theorem free_usable_small : (∀ i, smallBoot.onFree i → i < 512 ∧ ((1 ≤ i ∧ i < 160) ∨ smallEnd.toNat ≤ i * 4096)) ↔
    min 160 512 ≤ max 1 160 ∨ smallEnd.toNat ≤ max 1 160 * 4096 :=
  free_usable_iff (s := smallMachine) (by decide) (fun _ => rfl) smallMachine_init smallMachine_end

/-- With 636 KB of base memory page 159 is free. -/
theorem pageInit_frees_unusable : ¬ ∀ (s t : Kern) (ff : Word), s.npages ≤ 65536 → (∀ p, s.pages p = ⟨none, 0⟩) →
    s.pageInit = .ok t → paddr (s.bootAlloc 0).1 = .ok ff →
    ∀ i, t.onFree i → i < s.npages ∧ ((1 ≤ i ∧ i < s.npagesBasemem) ∨ ff.toNat ≤ i * 4096) := by
  intro h
  obtain ⟨t, ht⟩ := Kern.pageInit_ok (s := { smallMachine with npagesBasemem := 159 }) rfl (by decide) (by decide)
  have hff : paddr (Kern.bootAlloc { smallMachine with npagesBasemem := 159 } 0).1 = .ok smallEnd := rfl
  have hfree : t.onFree 159 :=
    (pageInit_onFree (show (512 : Nat) ≤ 65536 by decide) (fun _ => rfl) ht hff).mpr (by decide)
  have := (h _ t smallEnd (show (512 : Nat) ≤ 65536 by decide) (fun _ => rfl) ht hff 159 hfree).2
  exact absurd this (by decide)

/-! ## The pages it keeps back -/

/-- Usable memory as the comment lists it: base memory below the IO hole, and from `firstFree` on. -/
def UsablePage (s : Kern) (firstFree : Word) (i : Nat) : Prop :=
  (1 ≤ i ∧ i < s.npagesBasemem ∧ i * 4096 < iophysmem.toNat) ∨ firstFree.toNat ≤ i * 4096

instance (s : Kern) (firstFree : Word) (i : Nat) : Decidable (UsablePage s firstFree i) := by
  unfold UsablePage; infer_instance

/-- **All usable memory is free**, each page once and with a count of zero, just when there is no page at
`PADDR(boot_alloc(0))` above the IO hole: the test of `page_init` includes that page. -/
theorem usable_free_iff {s t : Kern} {ff : Word} (hn : s.npages ≤ 65536) (hz : ∀ p, s.pages p = ⟨none, 0⟩)
    (hi : s.pageInit = .ok t) (hf : paddr (s.bootAlloc 0).1 = .ok ff) (ha : ff.toNat % 4096 = 0) :
    (∃ free, Chain t.link t.pageFreeList free ∧
      ∀ i < s.npages, UsablePage s ff i → free.count i = 1 ∧ t.ref i = 0) ↔
    (s.npages = 0 ∨ 0 < ff) ∧ (ff < iophysmem ∨ s.npages * 4096 ≤ ff.toNat) := by
  have hl := pageInit_loop hz hi hf
  have hfree := fun i => @pageInit_onFree s t ff hn hz hi hf i
  simp only [BitVec.lt_def, iophysmem_toNat, show (0 : Word).toNat = 0 from rfl]
  constructor
  · intro ⟨free, hc, hu⟩
    have hon : ∀ i < s.npages, UsablePage s ff i → i ≠ 0 ∧ (i < 160 ∨ ff.toNat < i * 4096) := fun i hin hui => by
      have hm : i ∈ free := List.count_pos_iff.mp (by rw [(hu i hin hui).1]; exact Nat.one_pos)
      exact ((hfree i).mp (hc.linked_iff.mpr hm)).2
    constructor
    · by_contra h
      have := (hon 0 (by omega) (Or.inr (by omega))).1
      omega
    · by_contra h
      have := (hon (ff.toNat / 4096) (by omega) (Or.inr (by omega))).2
      omega
  · intro ⟨h0, h1⟩
    refine ⟨_, hl.chain, fun i hin hui => ?_⟩
    have hr : ¬ reserved ff i := by
      rw [reserved_iff (by omega)]
      unfold UsablePage at hui
      rw [iophysmem_toNat] at hui
      omega
    refine ⟨List.count_eq_one_of_mem (initFree_nodup ff s.npages) (mem_initFree.mpr ⟨hin, hr⟩), ?_⟩
    rw [hl.ref i, if_neg fun h => hr h.2]

theorem usable_free_small : (∃ free, Chain smallBoot.link smallBoot.pageFreeList free ∧
      ∀ i < 512, UsablePage smallMachine smallEnd i → free.count i = 1 ∧ smallBoot.ref i = 0) ↔
    ((512 : Nat) = 0 ∨ 0 < smallEnd) ∧ (smallEnd < iophysmem ∨ 512 * 4096 ≤ smallEnd.toNat) :=
  usable_free_iff (s := smallMachine) (by decide) (fun _ => rfl) smallMachine_init smallMachine_end (by decide)

/-- Page 400, the first one behind the memory in use, is lost. -/
theorem pageInit_leaks : ¬ ∀ (s t : Kern) (ff : Word), s.npages ≤ 65536 → (∀ p, s.pages p = ⟨none, 0⟩) →
    s.pageInit = .ok t → paddr (s.bootAlloc 0).1 = .ok ff → ff.toNat % 4096 = 0 →
    ∃ free, Chain t.link t.pageFreeList free ∧
      ∀ i < s.npages, UsablePage s ff i → free.count i = 1 ∧ t.ref i = 0 := by
  intro h
  obtain ⟨free, hc, hu⟩ := h smallMachine smallBoot smallEnd (by decide) (fun _ => rfl) smallMachine_init
    smallMachine_end (by decide)
  have hm : 400 ∈ free := List.count_pos_iff.mp (by rw [(hu 400 (by decide) (by decide)).1]; exact Nat.one_pos)
  have hf : smallBoot.onFree 400 := hc.linked_iff.mpr hm
  rw [pageInit_onFree (s := smallMachine) (by decide) (fun _ => rfl) smallMachine_init smallMachine_end] at hf
  exact absurd hf (by decide)

end Jos
