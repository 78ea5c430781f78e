import Jos.Pmap
import Jos.Lib.IntrusiveList
import Mathlib.Data.List.Range

/-!
# What `page_init` leaves

`page_init` puts the pages that `reserved` does not hold back on the free list,
the last one first, and gives the others a count of one. `firstFree` is
`PADDR(boot_alloc(0))`.
-/

namespace Jos

open IntrusiveList

def reserved (firstFree : Word) (i : Nat) : Prop :=
  i = 0 ∨ (BitVec.ofNat 32 i * pgsize ≥ iophysmem ∧ BitVec.ofNat 32 i * pgsize ≤ firstFree)

instance (firstFree : Word) (i : Nat) : Decidable (reserved firstFree i) := by
  unfold reserved; infer_instance

/-- The free list that `page_init` builds from the first `n` pages. -/
def initFree (firstFree : Word) (n : Nat) : List Nat :=
  ((List.range n).filter fun i => ¬ reserved firstFree i).reverse

theorem mem_initFree {ff : Word} {n p : Nat} : p ∈ initFree ff n ↔ p < n ∧ ¬ reserved ff p := by
  simp [initFree]

theorem initFree_zero (ff : Word) : initFree ff 0 = [] := rfl

theorem initFree_succ (ff : Word) (n : Nat) :
    initFree ff (n + 1) = if reserved ff n then initFree ff n else n :: initFree ff n := by
  rw [initFree, List.range_succ, List.filter_append, List.reverse_append]
  by_cases h : reserved ff n <;> simp [h, initFree]

theorem initFree_nodup (ff : Word) (n : Nat) : (initFree ff n).Nodup :=
  List.nodup_reverse.mpr (List.nodup_range.filter _)

theorem initFree_getLast {ff : Word} {n : Nat} (hn : 1 < n) (h : ¬ reserved ff 1) :
    (initFree ff n).getLast? = some 1 := by
  rw [initFree, List.getLast?_reverse, List.head?_filter, List.find?_range_eq_some]
  refine ⟨by simp [h], List.mem_range.mpr hn, fun j hj => ?_⟩
  have : reserved ff j := Or.inl (by omega)
  simp [this]

attribute [irreducible] initFree

namespace Kern

variable {s : Kern} {ff : Word} {n p : Nat}

theorem pageInitStep_eq (ff : Word) (s : Kern) (i : Nat) : pageInitStep ff s i =
    if reserved ff i then s.setRef i 1
    else { (s.setRef i 0).setLink i s.pageFreeList with pageFreeList := some i } := by
  unfold pageInitStep reserved
  by_cases h0 : i = 0
  · simp [h0]
  · simp [h0]

structure InitLoop (ff : Word) (s : Kern) (n : Nat) (t : Kern) : Prop where
  npages : t.npages = s.npages
  mem : t.mem = s.mem
  log : t.log = s.log
  kernPgdir : t.kernPgdir = s.kernPgdir
  pagesVa : t.pagesVa = s.pagesVa
  bootstack : t.bootstack = s.bootstack
  chain : Chain t.link t.pageFreeList (initFree ff n)
  ref : ∀ p, t.ref p = if p < n ∧ reserved ff p then 1 else 0
  link_none : ∀ p, p ∉ initFree ff n → t.link p = none

theorem initLoop_step {t : Kern} (h : InitLoop ff s n t) : InitLoop ff s (n + 1) (pageInitStep ff t n) := by
  rw [pageInitStep_eq]
  have hn : n ∉ initFree ff n := fun hm => by have := (mem_initFree.mp hm).1; omega
  by_cases hr : reserved ff n
  · rw [if_pos hr]
    refine ⟨h.npages, h.mem, h.log, h.kernPgdir, h.pagesVa, h.bootstack, ?_, fun p => ?_, fun p hp => ?_⟩
    · rw [initFree_succ, if_pos hr, setRef_link]; exact h.chain
    · rw [setRef_ref]
      by_cases hp : p = n
      · subst hp; simp [hr]
      · rw [Function.update_of_ne hp, h.ref p]
        simp only [show p < n + 1 ↔ p < n by omega]
    · rw [initFree_succ, if_pos hr] at hp
      rw [setRef_link]; exact h.link_none p hp
  · rw [if_neg hr]
    have hl : Kern.link { (t.setRef n 0).setLink n t.pageFreeList with pageFreeList := some n } =
        Function.update t.link n t.pageFreeList := by
      have := setLink_link (t.setRef n 0) n t.pageFreeList
      rw [setRef_link] at this; exact this
    have hf : Kern.ref { (t.setRef n 0).setLink n t.pageFreeList with pageFreeList := some n } =
        Function.update t.ref n 0 := by
      have := setLink_ref (t.setRef n 0) n t.pageFreeList
      rw [setRef_ref] at this; exact this
    refine ⟨h.npages, h.mem, h.log, h.kernPgdir, h.pagesVa, h.bootstack, ?_, fun p => ?_, fun p hp => ?_⟩
    · rw [hl, initFree_succ, if_neg hr]; exact h.chain.push hn
    · rw [hf]
      by_cases hp : p = n
      · subst hp; simp [hr]
      · rw [Function.update_of_ne hp, h.ref p]
        simp only [show p < n + 1 ↔ p < n by omega]
    · rw [initFree_succ, if_neg hr, List.mem_cons, not_or] at hp
      rw [hl, Function.update_of_ne hp.1]; exact h.link_none p hp.2

theorem initLoop (ff : Word) (hz : ∀ p, s.pages p = ⟨none, 0⟩) (hf : s.pageFreeList = none) (n : Nat) :
    InitLoop ff s n ((List.range n).foldl (pageInitStep ff) s) := by
  induction n with
  | zero =>
    exact ⟨rfl, rfl, rfl, rfl, rfl, rfl, by rw [initFree_zero]; exact hf, fun p => by simp [ref, hz p], fun p _ => by simp [link, hz p]⟩
  | succ n ih =>
    rw [List.range_succ, List.foldl_append, List.foldl_cons, List.foldl_nil]
    exact initLoop_step ih

/-- **`page_init`.** On zeroed descriptors it ends in the state `InitLoop` describes, with
`PADDR(boot_alloc(0))` as the end of the memory in use, or in the panic of `PADDR`. -/
theorem pageInit_spec {t : Kern} (hz : ∀ p, s.pages p = ⟨none, 0⟩) (h : s.pageInit = .ok t) :
    ∃ ff, paddr (s.bootAlloc 0).1 = .ok ff ∧ InitLoop ff s s.npages t := by
  unfold pageInit at h
  obtain ⟨ff, hp, h⟩ := bind_eq_ok.mp h
  refine ⟨ff, hp, ?_⟩
  rw [pure_ok, Except.ok.injEq] at h
  rw [← h]
  have hz' : ∀ p, (bootAlloc { s with pageFreeList := none } 0).2.pages p = ⟨none, 0⟩ := hz
  have hl := initLoop ff hz' rfl s.npages
  exact ⟨hl.npages, hl.mem, hl.log, hl.kernPgdir, hl.pagesVa, hl.bootstack, hl.chain, hl.ref, hl.link_none⟩

end Kern

/-! ## A machine -/

/-- 2 MB of memory, just after `mem_init` has placed `pages`: the kernel ends in page 397,
`kern_pgdir` is page 398 and the 512 descriptors fill page 399. -/
def smallMachine : Kern where
  npages := 512
  npagesBasemem := 160
  kernPgdir := 0xF018E000
  pagesVa := 0xF018F000
  pages := fun _ => ⟨none, 0⟩
  pageFreeList := none
  nextfree := 0xF0190000
  kend := 0xF018DF14
  bootstack := 0xF0110000
  cr3 := 0x00118000
  mem := fun _ _ => 0
  log := []

def smallEnd : Word := 0x00190000

def smallBoot : Kern := (List.range 512).foldl (Kern.pageInitStep smallEnd) smallMachine

theorem smallMachine_end : paddr (smallMachine.bootAlloc 0).1 = .ok smallEnd := rfl

theorem smallMachine_init : smallMachine.pageInit = .ok smallBoot := by
  have hb : ({ smallMachine with pageFreeList := none } : Kern).bootAlloc 0 = (0xF0190000, smallMachine) := rfl
  have hp : paddr 0xF0190000 = .ok smallEnd := rfl
  simp only [Kern.pageInit, hb, hp, ok_bind, pure_ok, smallBoot]
  rfl

-- Read through the lemma above only: the unifier must not run the loop.
attribute [irreducible] smallBoot

theorem not_reserved_above {p : Nat} (hlo : 400 < p) (hhi : p < 512) : ¬ reserved smallEnd p := by
  rintro (h | ⟨_, h⟩)
  · omega
  · rw [BitVec.le_def, BitVec.toNat_mul, BitVec.toNat_ofNat, pgsize_toNat, show smallEnd.toNat = 1638400 from rfl] at h
    omega

theorem smallBoot_free {p : Nat} (hlo : 400 < p) (hhi : p < 512) :
    initFree smallEnd (p + 1) = p :: initFree smallEnd p := by
  rw [initFree_succ, if_neg (not_reserved_above hlo hhi)]

theorem smallBoot_head : initFree smallEnd smallMachine.npages = 511 :: initFree smallEnd 511 :=
  smallBoot_free (by decide) (by decide)

theorem smallBoot_length (k : Nat) (hk : k ≤ 110) : k ≤ (initFree smallEnd (401 + k)).length := by
  induction k with
  | zero => exact Nat.zero_le _
  | succ k ih =>
    rw [← Nat.add_assoc, smallBoot_free (by omega) (by omega), List.length_cons]
    have := ih (by omega)
    omega

end Jos
