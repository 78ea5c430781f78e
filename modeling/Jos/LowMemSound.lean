import Jos.Stolen
import Jos.PageInitSound
import Jos.BootAllocSound
import Jos.KernMapSound
import Jos.RelinkSound

/-!
# `mem_init` stays below 4 MB until `lcr3`

The free list has its pages below 4 MB in front from the relinking of
`check_page_free_list` on (`Ready`). The tests that steal it put it back with the pages
below 4 MB still in front, and the maps take fewer pages than there are of these.
-/

namespace Jos

namespace Check

open Traced IntrusiveList

/-- The free list: the pages `low` are below 4 MB, and `kern_pgdir` is empty but for `UVPT`. -/
structure Ready (D : Nat) (low high : List Nat) (s : Kern) : Prop where
  npages_le : s.npages ≤ 65536
  kernPgdir : s.kernPgdir = kva D
  dir_low : D < 1024
  dir_pos : D ≠ 0
  dir_free : D ∉ low ++ high
  chain : Chain s.link s.pageFreeList (low ++ high)
  lowPages : ∀ p ∈ low, p < 1024
  lt : ∀ p ∈ low ++ high, p < s.npages
  null_free : 0 ∉ low ++ high
  zero : ∀ i < 1024, i ≠ pdx uvpt → s.mem D i = 0

variable {D p p0 p1 p2 q n : Nat} {low high rest l : List Nat} {s t : Kern}

theorem length_le_of_lt (hn : l.Nodup) (h : ∀ p ∈ l, p < n) : l.length ≤ n := by
  have hs : l ⊆ List.range n := fun p hp => List.mem_range.mpr (h p hp)
  simpa using (List.subperm_of_subset hn hs).length_le

namespace Ready

theorem length_le (h : Ready D low high s) : (low ++ high).length ≤ s.npages := length_le_of_lt h.chain.nodup h.lt

theorem head (h : Ready D low high s) : s.pageFreeList = (low ++ high).head? := h.chain.head

theorem frame (h : Ready D low high s) (hn : t.npages = s.npages) (hk : t.kernPgdir = s.kernPgdir) (hl : t.link = s.link)
    (hf : t.pageFreeList = s.pageFreeList) (hd : ∀ i, t.mem D i = s.mem D i) : Ready D low high t :=
  ⟨hn ▸ h.npages_le, hk.trans h.kernPgdir, h.dir_low, h.dir_pos, h.dir_free, by rw [hl, hf]; exact h.chain, h.lowPages,
    hn ▸ h.lt, h.null_free, fun i hi hu => by rw [hd]; exact h.zero i hi hu⟩

theorem pop (h : Ready D (p :: low) high s) : Ready D low high (s.pop p) := by
  have hn := List.nodup_cons.mp h.chain.nodup
  refine ⟨h.npages_le, h.kernPgdir, h.dir_low, h.dir_pos, fun hm => h.dir_free (List.mem_cons_of_mem p hm), ?_,
    fun q hq => h.lowPages q (List.mem_cons_of_mem p hq), fun q hq => h.lt q (List.mem_cons_of_mem p hq),
    fun hm => h.null_free (List.mem_cons_of_mem p hm), h.zero⟩
  rw [Kern.pop_link, Kern.pop_pageFreeList]
  exact h.chain.2.update hn.1 none

theorem countFree_fine (h : Ready D low high s) (n d : Int) : Fine (countFree n d) s fun _ t => t = s := by
  unfold countFree
  apply Ends.bind_run (get_run s) (by simp)
  rw [h.head]
  refine (fine_forFree (J := fun r _ t => t = s ∧ Chain s.link r.head? r) ?_ h.length_le ⟨rfl, h.head ▸ h.chain⟩).mono
    fun _ _ ht => ht.1
  intro p r x t ⟨ht, hc⟩
  subst ht
  exact Ends.pure ⟨⟨rfl, hc.2.head ▸ hc.2⟩, hc.2.head⟩

structure Took (D : Nat) (low high : List Nat) (p0 p1 p2 : Nat) (s t : Kern) : Prop where
  ready : Ready D low high t
  npages : t.npages = s.npages
  link₀ : t.link p0 = none
  link₁ : t.link p1 = none
  link₂ : t.link p2 = none
  other : ∀ q, q ≠ p0 → q ≠ p1 → q ≠ p2 → t.link q = s.link q

theorem allocated_fine (h : Ready D (p :: low) high s) (x : String) :
    Fine (allocated 0 x) s fun q t => q = p ∧ t = s.pop p := by
  unfold allocated
  apply Ends.bind_run (alloc_zero h.chain.1) (by simpa [low_alloc] using h.lowPages p List.mem_cons_self)
  exact Ends.pure ⟨rfl, rfl⟩

theorem pop_link_self (s : Kern) (p : Nat) : (s.pop p).link p = none := by rw [Kern.pop_link, Function.update_self]

theorem pop_link_ne (s : Kern) (h : q ≠ p) : (s.pop p).link q = s.link q := by rw [Kern.pop_link, Function.update_of_ne h]

theorem allocThree_fine (h : Ready D (p0 :: p1 :: p2 :: low) high s) :
    Fine allocThree s fun r t => r = (p0, p1, p2) ∧ Took D low high p0 p1 p2 s t := by
  unfold allocThree
  apply (h.allocated_fine _).bind
  rintro _ _ ⟨rfl, rfl⟩
  apply (h.pop.allocated_fine _).bind
  rintro _ _ ⟨rfl, rfl⟩
  apply (h.pop.pop.allocated_fine _).bind
  rintro _ _ ⟨rfl, rfl⟩
  apply fine_assert.bind
  rintro _ _ ⟨h10, rfl⟩
  apply fine_assert.bind
  rintro _ _ ⟨⟨h21, h20⟩, rfl⟩
  refine Ends.pure ⟨rfl, h.pop.pop.pop, rfl, ?_, ?_, pop_link_self _ _, fun q hq0 hq1 hq2 => ?_⟩
  · rw [pop_link_ne _ (Ne.symm h20), pop_link_ne _ (Ne.symm h10), pop_link_self]
  · rw [pop_link_ne _ (Ne.symm h21), pop_link_self]
  · rw [pop_link_ne _ hq2, pop_link_ne _ hq1, pop_link_ne _ hq0]

/-! ## Stealing the list and giving it back -/

def Usable (D : Nat) (free : List Nat) (t : Kern) (p : Nat) : Prop :=
  p < 1024 ∧ p < t.npages ∧ p ≠ D ∧ p ∉ free ∧ t.link p = none

def theft (h : Ready D low high t) {P : Finset Nat} (hP : ∀ p ∈ P, Usable D (low ++ high) t p) : Theft where
  npages := t.npages
  dir := D
  fl := t.pageFreeList
  rest := low ++ high
  pages := P
  npages_le := h.npages_le
  dir_low := h.dir_low
  dir_pages hm := (hP D hm).2.2.1 rfl
  low p hp := (hP p hp).1
  lt p hp := (hP p hp).2.1
  pages_rest p hp := (hP p hp).2.2.2.1

theorem stolen (h : Ready D low high t) {P : Finset Nat} (hP : ∀ p ∈ P, Usable D (low ++ high) t p)
    (h0 : 0 ∉ P → t.link 0 = none) : Stolen (h.theft hP) ∅ { t with pageFreeList := none } where
  npages := rfl
  kernPgdir := h.kernPgdir
  rest := h.chain
  head p hp := by cases hp
  link p hp q hq := by
    have := (hP p hp).2.2.2.2.symm.trans hq
    cases this
  zero i hi hu _ := h.zero i hi hu
  table i hi hu T hT := by
    have hz : target (t.mem D i) = some T := hT
    rw [h.zero i hi hu, target_zero] at hz
    cases hz
  null := Or.inl rfl
  idle := h0

theorem free_fine (s : Kern) (p : Nat) : Fine (pageFree p) s fun _ t => t = s.push p := by
  apply fine_step
  intro t ht
  unfold Kern.pageFree at ht
  split at ht
  · cases ht
    rfl
  · cases ht

theorem chain_push (hc : Chain s.link s.pageFreeList l) (hp : p ∉ l) : Chain (s.push p).link (s.push p).pageFreeList (p :: l) := by
  rw [Kern.push_link]
  exact hc.push hp

theorem push_kernPgdir (s : Kern) (p : Nat) : (s.push p).kernPgdir = s.kernPgdir := rfl

theorem push_link_ne (s : Kern) (h : q ≠ p) : (s.push p).link q = s.link q := by rw [Kern.push_link, Function.update_of_ne h]

theorem giveBack_fine (hr : Ready D low high t) {P : Finset Nat} (hP : ∀ p ∈ P, Usable D (low ++ high) t p)
    (h : Stolen (hr.theft hP) ∅ s) {x : Nat × Nat × Nat} (hx : (hr.theft hP).Three x)
    (h0 : x.1 ≠ 0 ∧ x.2.1 ≠ 0 ∧ x.2.2 ≠ 0) :
    Fine (freeThree x.1 x.2.1 x.2.2) { s with pageFreeList := t.pageFreeList } fun _ u =>
      Ready D (x.2.2 :: x.2.1 :: x.1 :: low) high u ∧ u.link 0 = s.link 0 := by
  obtain ⟨p0, p1, p2⟩ := x
  obtain ⟨m0, m1, m2, n10, n21, n20⟩ := hx
  dsimp only at m0 m1 m2 n10 n21 n20 h0 ⊢
  obtain ⟨z0, z1, z2⟩ := h0
  have hout := (hr.theft hP).pages_rest
  obtain ⟨v, hv⟩ : ∃ v, v = { s with pageFreeList := t.pageFreeList } := ⟨_, rfl⟩
  have hn : v.npages = t.npages := by
    rw [hv]
    exact h.npages
  have hk : v.kernPgdir = kva D := by
    rw [hv]
    exact h.kernPgdir
  have hm : v.mem = s.mem := by rw [hv]
  have hl : v.link = s.link := by rw [hv]; rfl
  have hc : Chain v.link v.pageFreeList (low ++ high) := by
    rw [hl, hv]
    exact h.rest
  rw [← hv]
  unfold freeThree
  apply (free_fine v p0).bind
  rintro _ _ rfl
  apply (free_fine _ p1).bind
  rintro _ _ rfl
  apply (free_fine _ p2).mono
  rintro _ _ rfl
  have hc0 := chain_push hc (hout p0 m0)
  have hc1 := chain_push hc0 (p := p1) fun hm => (List.mem_cons.mp hm).elim n10 (hout p1 m1)
  have hc2 := chain_push hc1 (p := p2) fun hm => (List.mem_cons.mp hm).elim n21 fun hm =>
    (List.mem_cons.mp hm).elim n20 (hout p2 m2)
  have hall : ∀ q ∈ p2 :: p1 :: p0 :: (low ++ high), q ∈ P ∨ q ∈ low ++ high := by
    intro q hq
    simp only [List.mem_cons] at hq
    rcases hq with rfl | rfl | rfl | hq
    · exact Or.inl m2
    · exact Or.inl m1
    · exact Or.inl m0
    · exact Or.inr hq
  refine ⟨⟨?_, ?_, hr.dir_low, hr.dir_pos, fun hm => ?_, hc2, fun q hq => ?_, fun q hq => ?_, fun hm => ?_,
    fun i hi hu => ?_⟩, ?_⟩
  · rw [Kern.push_npages, Kern.push_npages, Kern.push_npages, hn]
    exact hr.npages_le
  · rw [push_kernPgdir, push_kernPgdir, push_kernPgdir, hk]
  · rcases hall D hm with hm | hm
    · exact (hP D hm).2.2.1 rfl
    · exact hr.dir_free hm
  · simp only [List.mem_cons] at hq
    rcases hq with rfl | rfl | rfl | hq
    · exact (hP q m2).1
    · exact (hP q m1).1
    · exact (hP q m0).1
    · exact hr.lowPages q hq
  · rw [Kern.push_npages, Kern.push_npages, Kern.push_npages, hn]
    rcases hall q hq with hm | hm
    · exact (hP q hm).2.1
    · exact hr.lt q hm
  · simp only [List.cons_append, List.mem_cons] at hm
    rcases hm with hm | hm | hm | hm
    · exact z2 hm.symm
    · exact z1 hm.symm
    · exact z0 hm.symm
    · exact hr.null_free hm
  · rw [Kern.push_mem, Kern.push_mem, Kern.push_mem, hm]
    exact h.zero i hi hu (Finset.notMem_empty i)
  · rw [push_link_ne _ z2.symm, push_link_ne _ z1.symm, push_link_ne _ z0.symm, hl]

theorem Took.usable (h : Ready D (p0 :: p1 :: p2 :: low) high s) (ht : Took D low high p0 p1 p2 s t) {p : Nat}
    (hp : p = p0 ∨ p = p1 ∨ p = p2) : Usable D (low ++ high) t p ∧ p ≠ 0 := by
  have hn := h.chain.nodup
  simp only [List.cons_append, List.nodup_cons, List.mem_cons, not_or] at hn
  obtain ⟨⟨_, _, h0⟩, ⟨_, h1⟩, h2, _⟩ := hn
  have hm : p ∈ p0 :: p1 :: p2 :: (low ++ high) := by
    rcases hp with rfl | rfl | rfl
    · simp
    · simp
    · simp
  refine ⟨⟨?_, ht.npages ▸ h.lt p hm, fun e => h.dir_free (e ▸ hm), ?_, ?_⟩, fun e => h.null_free (e ▸ hm)⟩
  · rcases hp with rfl | rfl | rfl
    · exact h.lowPages p (by simp)
    · exact h.lowPages p (by simp)
    · exact h.lowPages p (by simp)
  · rcases hp with rfl | rfl | rfl
    · exact h0
    · exact h1
    · exact h2
  · rcases hp with rfl | rfl | rfl
    · exact ht.link₀
    · exact ht.link₁
    · exact ht.link₂

theorem Took.link_zero (h : Ready D (p0 :: p1 :: p2 :: low) high s) (ht : Took D low high p0 p1 p2 s t)
    (h0 : s.link 0 = none) : t.link 0 = none := by
  have hz : ∀ p, p = p0 ∨ p = p1 ∨ p = p2 → p ≠ 0 := fun p hp => (Took.usable h ht hp).2
  rw [ht.other 0 (hz p0 (by simp)).symm (hz p1 (by simp)).symm (hz p2 (by simp)).symm, h0]

/-- **`check_page_alloc`** keeps the pages below 4 MB in front. -/
theorem checkPageAlloc_fine (h : Ready D low high s) (h3 : 3 ≤ low.length) (h0 : s.link 0 = none) :
    Fine checkPageAlloc s fun _ t => t.link 0 = none ∧ ∃ low', low'.length = low.length ∧ Ready D low' high t := by
  match low, h3 with
  | p0 :: p1 :: p2 :: low, _ =>
  unfold checkPageAlloc
  apply Ends.bind_run (get_run s) (by simp)
  apply (safe_require (I := fun t => t = s) (by simp) s rfl).bind
  rintro _ _ ⟨_, rfl⟩
  apply (h.countFree_fine 0 1).bind
  rintro nfree _ rfl
  apply h.allocThree_fine.bind
  rintro _ t ⟨rfl, ht⟩
  dsimp only
  apply Ends.bind_run (get_run t) (by simp)
  apply fine_assert.bind
  rintro _ _ ⟨_, rfl⟩
  apply fine_assert.bind
  rintro _ _ ⟨_, rfl⟩
  apply fine_assert.bind
  rintro _ t ⟨_, rfl⟩
  have hP : ∀ p ∈ ({p0, p1, p2} : Finset Nat), Usable D (low ++ high) t p := fun p hp =>
    (Took.usable h ht (by simpa using hp)).1
  have hnull : ∀ p ∈ ({p0, p1, p2} : Finset Nat), p ≠ 0 := fun p hp => (Took.usable h ht (by simpa using hp)).2
  have hz : 0 ∉ ({p0, p1, p2} : Finset Nat) := fun hm => hnull 0 hm rfl
  apply Ends.bind_run (modify_run _ t) (by simp)
  have hst := stolen ht.ready hP fun _ => Took.link_zero h ht h0
  have m0 : p0 ∈ (ht.ready.theft hP).pages := show p0 ∈ ({p0, p1, p2} : Finset Nat) by simp
  have m1 : p1 ∈ (ht.ready.theft hP).pages := show p1 ∈ ({p0, p1, p2} : Finset Nat) by simp
  have m2 : p2 ∈ (ht.ready.theft hP).pages := show p2 ∈ ({p0, p1, p2} : Finset Nat) by simp
  apply (safe_checkStolen m0 m1 m2 _ hst).bind
  rintro ⟨q0, q1, q2⟩ u ⟨hq, hu⟩
  dsimp only
  apply Ends.bind_run (modify_run _ u) (by simp)
  apply (giveBack_fine ht.ready hP hu hq ⟨hnull _ hq.fst, hnull _ hq.snd, hnull _ hq.trd⟩).bind
  rintro _ v ⟨hv, hl⟩
  apply (hv.countFree_fine nfree (-1)).bind
  rintro _ _ rfl
  apply fine_assert.mono
  rintro _ _ ⟨_, rfl⟩
  exact ⟨hl.trans (hu.idle hz), q2 :: q1 :: q0 :: low, rfl, hv⟩

/-- **`check_page`** does so as well. -/
theorem checkPage_fine (h : Ready D low high s) (h3 : 3 ≤ low.length) (h0 : s.link 0 = none) :
    Fine checkPage s fun _ t => ∃ low', low'.length = low.length ∧ Ready D low' high t := by
  match low, h3 with
  | p0 :: p1 :: p2 :: low, _ =>
  unfold checkPage
  apply h.allocThree_fine.bind
  rintro _ t ⟨rfl, ht⟩
  dsimp only
  apply Ends.bind_run (get_run t) (by simp)
  apply Ends.bind_run (modify_run _ t) (by simp)
  have hP : ∀ p ∈ ({0, p0, p1, p2} : Finset Nat), Usable D (low ++ high) t p := by
    intro p hp
    rw [Finset.mem_insert] at hp
    rcases hp with rfl | hp
    · refine ⟨by decide, ?_, ht.ready.dir_pos.symm, ht.ready.null_free, Took.link_zero h ht h0⟩
      have := h.lt p0 (by simp)
      rw [ht.npages]
      omega
    · exact (Took.usable h ht (by simpa using hp)).1
  have hst := stolen ht.ready hP fun hm => absurd (by simp) hm
  have hz : 0 ∈ (ht.ready.theft hP).pages := show 0 ∈ ({0, p0, p1, p2} : Finset Nat) by simp
  have m0 : p0 ∈ (ht.ready.theft hP).pages := show p0 ∈ ({0, p0, p1, p2} : Finset Nat) by simp
  have m1 : p1 ∈ (ht.ready.theft hP).pages := show p1 ∈ ({0, p0, p1, p2} : Finset Nat) by simp
  have m2 : p2 ∈ (ht.ready.theft hP).pages := show p2 ∈ ({0, p0, p1, p2} : Finset Nat) by simp
  have hst := hst.mono (Finset.empty_subset {0, 1}) hz
  generalize ({ t with pageFreeList := none } : Kern) = u at hst ⊢
  rw [show t.kernPgdir = kva (ht.ready.theft hP).dir from ht.ready.kernPgdir]
  apply (safe_checkInsert hz m0 m1 m2 u hst).bind
  intro _ u ⟨_, hu⟩
  apply (safe_checkRemap hz m0 m1 m2 u hu).bind
  intro _ u ⟨_, hu⟩
  apply (safe_checkRemove hz m1 u hu).bind
  intro _ u ⟨_, hu⟩
  apply (safe_dirEntry (by decide) u hu).bind
  intro _ u ⟨_, hu⟩
  apply (safe_assert u hu).bind
  intro _ u ⟨_, hu⟩
  apply (erase_fine (by decide) hu).bind
  intro _ u hu
  rw [show ({0, 1} : Finset Nat).erase 0 = {1} from rfl] at hu
  apply (safe_assertRef u hu).bind
  intro _ u ⟨_, hu⟩
  apply Ends.bind_run (modify_run _ u) (by simp)
  apply (checkTables_fine hz m0 (hu.setRef p0 0)).bind
  intro _ u hu
  apply Ends.bind_run (modify_run _ u) (by simp)
  have hnd := h.chain.nodup
  simp only [List.cons_append, List.nodup_cons, List.mem_cons, not_or] at hnd
  obtain ⟨⟨n01, n02, _⟩, ⟨n12, _⟩, _⟩ := hnd
  have hnull : ∀ p, p = p0 ∨ p = p1 ∨ p = p2 → p ≠ 0 := fun p hp => (Took.usable h ht hp).2
  have hx : (ht.ready.theft hP).Three (p0, p1, p2) := ⟨m0, m1, m2, Ne.symm n01, Ne.symm n12, Ne.symm n02⟩
  exact (giveBack_fine ht.ready hP hu hx ⟨hnull p0 (by simp), hnull p1 (by simp), hnull p2 (by simp)⟩).mono
    fun _ v hv => ⟨p2 :: p1 :: p0 :: low, rfl, hv.1⟩

end Ready

/-! ## The relinking -/

structure Same (s t : Kern) : Prop where
  npages : t.npages = s.npages
  kernPgdir : t.kernPgdir = s.kernPgdir
  mem : t.mem = s.mem

theorem OnlyLinks.same (h : OnlyLinks s t) : Same s t := by
  rw [h.eq]
  exact ⟨rfl, rfl, rfl⟩

/-- **The relinking** leaves the pages below 4 MB in front, in their old order, and the others behind. -/
theorem relink_fine (h : Ready D [] l s) (pp1 pp2 : Option Nat) : Fine (relink 1 pp1 pp2) s fun _ t =>
    Ready D (dealt l false) (dealt l true) t ∧ t.link 0 = s.link 0 := by
  obtain ⟨t, hrun, hchain, ho, hf⟩ := relink_run h.chain pp1 pp2
  have hs := ho.same
  have hm : ∀ q ∈ dealt l false ++ dealt l true, q ∈ l := fun q hq => by
    rcases List.mem_append.mp hq with hq | hq
    · exact (List.mem_filter.mp hq).1
    · exact (List.mem_filter.mp hq).1
  refine .of_ok (relink_eq 1 pp1 pp2 s ▸ hrun s.npages h.length_le) (by simp) ⟨⟨?_, ?_, h.dir_low, h.dir_pos,
    fun hq => h.dir_free (hm D hq), hchain, fun q hq => ?_, fun q hq => ?_, fun hq => h.null_free (hm 0 hq),
    fun i hi hu => ?_⟩, hf 0 h.null_free⟩
  · exact hs.npages ▸ h.npages_le
  · exact hs.kernPgdir.trans h.kernPgdir
  · have hq' := List.mem_filter.mp hq
    have := h.lt q hq'.1
    have := h.npages_le
    exact (high4M_eq_false (by omega)).mp (by simpa using hq'.2)
  · exact hs.npages ▸ h.lt q (hm q hq)
  · rw [hs.mem]
    exact h.zero i hi hu

/-! ## `check_page_free_list` -/

structure Spared (D : Nat) (s t : Kern) : Prop where
  npages : t.npages = s.npages
  kernPgdir : t.kernPgdir = s.kernPgdir
  link : t.link = s.link
  pageFreeList : t.pageFreeList = s.pageFreeList
  dir : ∀ i, t.mem D i = s.mem D i

theorem bump_spared (D : Nat) (s : Kern) (n : Word) : Spared D s (s.bump n) where
  npages := by simp only [Kern.bump]
  kernPgdir := by simp only [Kern.bump]
  link := by
    funext q
    simp only [Kern.link, Kern.bump]
  pageFreeList := by simp only [Kern.bump]
  dir i := by simp only [Kern.bump]

theorem bootAlloc_run (s : Kern) (n : Word) :
    (lift fun s => .ok (s.bootAlloc n) : Checked Word).run s = ([], .ok (s.start, s.bump n)) := by
  rw [lift_run, Kern.bootAlloc_eq]

theorem Spared.trans {u : Kern} (h : Spared D s t) (h' : Spared D t u) : Spared D s u :=
  ⟨h'.npages.trans h.npages, h'.kernPgdir.trans h.kernPgdir, h'.link.trans h.link, h'.pageFreeList.trans h.pageFreeList,
    fun i => (h'.dir i).trans (h.dir i)⟩

theorem spoilFreePage_fine {x : Unit} (h : Spared D s t) (hp : p ≠ D) (hlt : p < 65536) :
    Fine (spoilFreePage 1 p x) t fun _ u => Spared D s u := by
  unfold spoilFreePage
  split
  · rename_i hd
    rw [pdx_page2pa (by omega)] at hd
    apply (safe_page2kva (I := fun u => u = t) t rfl).bind
    rintro _ _ ⟨rfl, rfl⟩
    refine .of_ok (memset_run hlt 0x97 128) (by simpa using low_kva (by omega)) ?_
    exact ⟨h.npages, h.kernPgdir, h.link, h.pageFreeList, fun i => (if_neg fun e => hp e.1.symm).trans (h.dir i)⟩
  · exact Ends.pure h

theorem checkFreePage_fine (a : Word) (p : Nat) (x : Int × Int) : Fine (checkFreePage a p x) s fun _ t => t = s := by
  unfold checkFreePage
  apply Ends.bind_run (get_run s) (by simp)
  apply fine_assert.bind
  rintro _ _ ⟨_, rfl⟩
  apply fine_assert.bind
  rintro _ _ ⟨_, rfl⟩
  apply fine_assert.bind
  rintro _ _ ⟨_, rfl⟩
  apply fine_assert.bind
  rintro _ _ ⟨_, rfl⟩
  apply fine_assert.bind
  rintro _ t ⟨_, rfl⟩
  split
  · exact Ends.pure rfl
  · apply (fine_read (Q := fun _ u => u = t) fun _ _ => rfl).bind
    rintro _ _ rfl
    apply fine_assert.bind
    rintro _ _ ⟨_, rfl⟩
    exact Ends.pure rfl

theorem Ready.spared (h : Ready D low high s) (ht : Spared D s t) : Ready D low high t :=
  h.frame ht.npages ht.kernPgdir ht.link ht.pageFreeList ht.dir

/-- **`check_page_free_list(1)`** -/
theorem checkPageFreeList_fine (h : Ready D [] l s) : Fine (checkPageFreeList true) s fun _ t =>
    Ready D (dealt l false) (dealt l true) t ∧ t.link 0 = s.link 0 := by
  unfold checkPageFreeList
  dsimp only
  apply Ends.bind_run (get_run s) (by simp)
  apply (safe_require (I := fun t => t = s) (by simp) s rfl).bind
  rintro _ _ ⟨_, rfl⟩
  rw [if_pos rfl]
  apply (relink_fine h none none).bind
  rintro _ t ⟨ht, h0⟩
  apply Ends.bind_run (get_run t) (by simp)
  rw [ht.head]
  have hc : Chain t.link (dealt l false ++ dealt l true).head? (dealt l false ++ dealt l true) := ht.head ▸ ht.chain
  apply (fine_forFree (J := fun r _ u => Spared D t u ∧ Chain t.link r.head? r ∧ ∀ q ∈ r, q ≠ D ∧ q < 65536) ?_
    ht.length_le ?_).bind
  · rintro _ u ⟨hu, _⟩
    apply Ends.bind_run (bootAlloc_run u 0) (by simp)
    have hu' := hu.trans (bump_spared D u 0)
    have hready := ht.spared hu'
    have hlink : (u.bump 0).link 0 = t.link 0 := congrFun hu'.link 0
    generalize u.bump 0 = v at hready hlink ⊢
    have hcv : Chain v.link (dealt l false ++ dealt l true).head? (dealt l false ++ dealt l true) :=
      hready.head ▸ hready.chain
    apply (fine_forFree (J := fun r _ w => w = v ∧ Chain v.link r.head? r) ?_ ht.length_le ⟨rfl, hcv⟩).bind
    · rintro ⟨nb, ne⟩ _ ⟨rfl, _⟩
      apply fine_assert.bind
      rintro _ _ ⟨_, rfl⟩
      apply fine_assert.mono
      rintro _ _ ⟨_, rfl⟩
      exact ⟨hready, hlink.trans h0⟩
    · rintro p r x _ ⟨rfl, hr⟩
      apply (checkFreePage_fine _ p x).mono
      rintro _ _ rfl
      exact ⟨⟨rfl, hr.2.head ▸ hr.2⟩, hr.2.head⟩
  · rintro p r x u ⟨hu, hr, hq⟩
    obtain ⟨hpD, hp⟩ := hq p List.mem_cons_self
    apply (spoilFreePage_fine hu hpD hp).mono
    rintro _ w hw
    exact ⟨⟨hw, hr.2.head ▸ hr.2, fun q hm => hq q (List.mem_cons_of_mem p hm)⟩, hw.link ▸ hr.2.head⟩
  · refine ⟨⟨rfl, rfl, rfl, rfl, fun _ => rfl⟩, hc, fun q hq => ⟨fun e => ht.dir_free (e ▸ hq), ?_⟩⟩
    exact Nat.lt_of_lt_of_le (ht.lt q hq) ht.npages_le

/-! ## The maps -/

/-- Between two steps of the maps: the pages in front of the free list are below 4 MB, and there are no fewer of
them than directory entries that still need a table. -/
structure Mapping (D : Nat) (s : Kern) : Prop where
  npages_le : s.npages ≤ 65536
  kernPgdir : s.kernPgdir = kva D
  dir_low : D < 1024
  table : ∀ i ∈ kernTables, ∀ T, target (s.mem D i) = some T → T < 1024 ∧ T < s.npages ∧ T ≠ D
  supply : ∃ low high, Chain s.link s.pageFreeList (low ++ high) ∧ D ∉ low ++ high ∧
    (∀ p ∈ low, p < 1024 ∧ p < s.npages) ∧ need s.mem D kernTables ≤ low.length

theorem Ready.mapping (h : Ready D low high s) (hl : 66 ≤ low.length) : Mapping D s := by
  have hz : ∀ i ∈ kernTables, target (s.mem D i) = none := fun i hi => by
    have hi' := mem_kernTables.mp hi
    rw [h.zero i (by omega) (by rw [show pdx uvpt = 957 from rfl]; omega), target_zero]
  refine ⟨h.npages_le, h.kernPgdir, h.dir_low, fun i hi T hT => ?_, low, high, h.chain, h.dir_free, fun p hp => ?_, ?_⟩
  · rw [hz i hi] at hT
    cases hT
  · exact ⟨h.lowPages p hp, h.lt p (List.mem_append_left high hp)⟩
  · refine Nat.le_trans (Finset.card_filter_le _ _) ?_
    rw [kernTables_card]
    exact hl

namespace Mapping

variable {T j : Nat} {v va perm : Word}

theorem write (h : Mapping D s) (hT : T ≠ D) : Mapping D (s.write T j v) := by
  have hd : ∀ i, (s.write T j v).mem D i = s.mem D i := fun i => Mem.set_of_page_ne _ hT.symm v i
  obtain ⟨low, high, hc, hD, hl, hn⟩ := h.supply
  refine ⟨h.npages_le, h.kernPgdir, h.dir_low, fun i hi U hU => ?_, low, high, hc, hD, hl, ?_⟩
  · rw [hd] at hU
    exact h.table i hi U hU
  · rw [need_congr hd]
    exact hn

theorem addTable (h : Mapping D s) (hi : pdx va ∈ kernTables) (ho : target (s.mem D (pdx va)) = none) :
    ∃ T, s.pageFreeList = some T ∧ T < 1024 ∧ T < s.npages ∧ T ≠ D ∧ Mapping D (s.addTable D T va) := by
  obtain ⟨low, high, hc, hD, hl, hn⟩ := h.supply
  have hpos : 0 < need s.mem D kernTables := Finset.card_pos.mpr ⟨pdx va, Finset.mem_filter.mpr ⟨hi, ho⟩⟩
  cases low with
  | nil => exact absurd hn (by simp; omega)
  | cons T low =>
    obtain ⟨hT, hTn⟩ := hl T List.mem_cons_self
    have hTD : T ≠ D := fun e => hD (e ▸ List.mem_cons_self)
    have hnd := List.nodup_cons.mp hc.nodup
    have ht : target (page2pa T ||| tableFlags) = some T := target_table (by omega)
    have hself : (s.addTable D T va).mem D (pdx va) = page2pa T ||| tableFlags := Mem.set_self ..
    have hother : ∀ i, i ≠ pdx va → (s.addTable D T va).mem D i = s.mem D i := fun i hne =>
      (Mem.set_of_index_ne _ hne _).trans (Mem.clear_of_ne _ hTD.symm i)
    have hneed : need s.mem D kernTables = need (s.addTable D T va).mem D kernTables + 1 :=
      need_set hi ho (by rw [hself, ht]; simp) hother
    refine ⟨T, hc.1, hT, hTn, hTD, h.npages_le, h.kernPgdir, h.dir_low, fun i hi' U hU => ?_, low, high, ?_, ?_, ?_, ?_⟩
    · by_cases hiv : i = pdx va
      · rw [hiv, hself, ht] at hU
        cases hU
        exact ⟨hT, hTn, hTD⟩
      · rw [hother i hiv] at hU
        exact h.table i hi' U hU
    · have hlink : (s.addTable D T va).link = Function.update s.link T none := by
        unfold Kern.addTable
        rw [Kern.write_link, Kern.setRef_link, Kern.clear_link, Kern.pop_link]
      rw [hlink]
      exact hc.2.update hnd.1 none
    · exact fun hm => hD (List.mem_cons_of_mem T hm)
    · exact fun p hp => hl p (List.mem_cons_of_mem T hp)
    · rw [List.length_cons] at hn
      omega

theorem walk_fine (h : Mapping D s) (hi : pdx va ∈ kernTables) : Fine (pgdirWalk (kva D) va true) s fun r t =>
    Mapping D t ∧ ∃ T, r = some (entry (kva T) (ptx va)) ∧ T < 1024 ∧ T ≠ D := by
  have hD := h.dir_low
  have hle : Event.Low (.access (entry (kva D) (pdx va))) := low_entry hD (pdx_lt va)
  cases ht : target (s.mem D (pdx va)) with
  | some T =>
    obtain ⟨hT, hn, hne⟩ := h.table _ hi T ht
    exact .of_ok (walk_present (by omega) ht hn) (by simpa using hle) ⟨h, T, rfl, hT, hne⟩
  | none =>
    obtain ⟨T, hf, hT, hn, hne, h'⟩ := h.addTable hi ht
    refine .of_ok (walk_create (by omega) ht hf hn (by omega)) ?_ ⟨h', T, rfl, hT, hne⟩
    simpa [low_alloc] using ⟨hle, low_kva hT, hT, hle⟩

theorem safe_bootMapLoop (n : Nat) (va pa : Word) (hi : ∀ k < n, pdx (va + BitVec.ofNat 32 (k * 4096)) ∈ kernTables) :
    Safe (Mapping D) (bootMapLoop (kva D) perm n va pa) fun _ => True := by
  induction n generalizing va pa with
  | zero => exact Keeps.pure trivial
  | succ n ih =>
    intro s h
    have h0 : pdx va ∈ kernTables := by simpa using hi 0 (Nat.succ_pos n)
    unfold bootMapLoop
    apply (h.walk_fine h0).bind
    rintro _ t ⟨ht, T, rfl, hT, hne⟩
    apply Ends.bind_run (store_run (by omega) (ptx_lt va)) (by simpa using low_entry hT (ptx_lt va))
    refine ih _ _ (fun k hk => ?_) _ (ht.write hne)
    have := hi (k + 1) (by omega)
    rwa [Nat.add_mul, Nat.add_comm, Nat.one_mul, BitVec.ofNat_add, ← BitVec.add_assoc] at this

theorem safe_bootMapRegion {D : Nat} (va size pa perm : Word) {n : Nat}
    (hn : (if size % pgsize ≠ 0 then size / pgsize + 1 else size / pgsize).toNat = n) (hv : va.toNat + n * 4096 ≤ 4294967296)
    (hi : ∀ k < n, (va.toNat + k * 4096) / 4194304 ∈ kernTables) :
    Safe (Mapping D) (bootMapRegion (kva D) va size pa perm) fun _ => True := by
  unfold bootMapRegion
  dsimp only
  rw [hn]
  apply safe_bootMapLoop
  intro k hk
  have := hi k hk
  rwa [pdx_eq, BitVec.toNat_add, BitVec.toNat_ofNat, Nat.mod_eq_of_lt (by omega : k * 4096 < 2 ^ 32),
    Nat.mod_eq_of_lt (by omega)]

end Mapping

theorem memInitMap_fine (h : Mapping D s) : Fine memInitMap s fun _ _ => True := by
  unfold memInitMap
  apply Ends.bind_run (get_run s) (by simp)
  apply (fine_read (Q := fun _ t => t = s) fun _ _ => rfl).bind
  rintro _ _ rfl
  rw [h.kernPgdir]
  apply (Mapping.safe_bootMapRegion _ _ _ _ (n := 1024) rfl (by decide) (fun k hk => ?_) _ h).bind
  · rintro _ t ⟨_, h⟩
    apply Ends.bind_run (get_run t) (by simp)
    apply (fine_read (Q := fun _ u => u = t) fun _ _ => rfl).bind
    rintro _ _ rfl
    rw [h.kernPgdir]
    apply (Mapping.safe_bootMapRegion _ _ _ _ (n := 8) rfl (by decide) (fun k hk => ?_) _ h).bind
    · rintro _ u ⟨_, h⟩
      apply Ends.bind_run (get_run u) (by simp)
      rw [h.kernPgdir]
      refine (Mapping.safe_bootMapRegion _ _ _ _ (n := 65536) rfl (by decide) (fun k hk => ?_) _ h).mono fun _ _ _ => trivial
      rw [kernbase_toNat, mem_kernTables]
      omega
    · rw [show (kstacktop - kstksize).toNat = 4026499072 from rfl, mem_kernTables]
      omega
  · rw [upages_toNat, mem_kernTables]
    omega

/-! ## From the start -/

/-- After `boot_alloc` has given out `kern_pgdir` and `pages`: the memory in use, from 1 MB on, ends below 4 MB. -/
structure Booted (D : Nat) (ff : Word) (s k : Kern) : Prop where
  npages : k.npages = s.npages
  kernPgdir : k.kernPgdir = kva D
  dir_ge : 256 ≤ D
  dir_used : D * 4096 ≤ ff.toNat
  pages : ∀ p, k.pages p = ⟨none, 0⟩
  firstFree : paddr (k.bootAlloc 0).1 = .ok ff
  used_low : ff.toNat < 4194304
  zero : ∀ i < 1024, i ≠ pdx uvpt → k.mem D i = 0

def withPgdir (s : Kern) (D : Nat) : Kern :=
  (({ s.bump pgsize with kernPgdir := kva D } : Kern).clear D).write D (pdx uvpt) (page2pa D ||| pteU ||| pteP)

theorem withPgdir_npages : (withPgdir s D).npages = s.npages := by
  unfold withPgdir
  rw [Kern.write_npages, Kern.clear_npages]
  simp only [Kern.bump]

theorem withPgdir_kernPgdir : (withPgdir s D).kernPgdir = kva D := by
  unfold withPgdir
  rw [Kern.write_kernPgdir, Kern.clear_kernPgdir]

theorem withPgdir_zero {i : Nat} (hi : i < 1024) (hu : i ≠ pdx uvpt) : (withPgdir s D).mem D i = 0 := by
  unfold withPgdir
  rw [Kern.write_mem, Mem.set_of_index_ne _ hu, Kern.clear_mem, Mem.clear_self _ hi]

theorem withPgdir_startsAt {a : Nat} (h : StartsAt (s.bump pgsize) a) : StartsAt (withPgdir s D) a := by
  apply h.congr
  · unfold withPgdir
    rw [Kern.write_nextfree, Kern.clear_nextfree]
  · unfold withPgdir
    rw [Kern.write_kend, Kern.clear_kend]

def withPages (s : Kern) (n : Word) : Kern := { s.bump n with pagesVa := s.start, pages := fun _ => ⟨none, 0⟩ }

theorem withPages_npages {n : Word} : (withPages s n).npages = s.npages := by
  simp only [withPages, Kern.bump]

theorem withPages_kernPgdir {n : Word} : (withPages s n).kernPgdir = s.kernPgdir := by
  simp only [withPages, Kern.bump]

theorem withPages_mem {n : Word} : (withPages s n).mem = s.mem := by
  simp only [withPages, Kern.bump]

theorem withPages_pages {n : Word} (p : Nat) : (withPages s n).pages p = ⟨none, 0⟩ := by
  simp only [withPages]

theorem withPages_startsAt {n : Word} {a : Nat} (h : StartsAt (s.bump n) a) : StartsAt (withPages s n) a := by
  apply h.congr
  · simp only [withPages]
  · simp only [withPages]

theorem memsetPages_ok (h : ¬ s.pagesVa < kernbase) : s.memsetPages = .ok { s with pages := fun _ => ⟨none, 0⟩ } :=
  if_neg fun e => h e.2

theorem memInitAlloc_eq (hs : s.start = kva D) (hD : D < 65536) (hp : ¬ (withPgdir s D).start < kernbase) :
    s.memInitAlloc = .ok (withPages (withPgdir s D) (BitVec.ofNat 32 s.npages * sizeofPageInfo)) := by
  obtain ⟨s1, hs1⟩ : ∃ s1, s1 = { s.bump pgsize with kernPgdir := kva D } := ⟨_, rfl⟩
  have hs2 : withPgdir s D = (s1.clear D).write D (pdx uvpt) (page2pa D ||| pteU ||| pteP) := by rw [hs1, withPgdir]
  have hk1 : (s1.clear D).kernPgdir = kva D := by rw [Kern.clear_kernPgdir, hs1]
  have e1 : s1.memset0 (kva D) = .ok (s1.clear D) := Kern.memset0_kva s1 hD
  have e2 : (s1.clear D).store (entry (kva D) (pdx uvpt)) (page2pa D ||| pteU ||| pteP) = .ok (withPgdir s D) := by
    rw [hs2]
    exact Kern.store_entry _ hD (by decide) _
  unfold Kern.memInitAlloc
  rw [Kern.bootAlloc_eq, hs]
  dsimp only
  rw [← hs1, e1, ok_bind, hk1, paddr_kva hD, ok_bind, e2, ok_bind, Kern.bootAlloc_eq, withPgdir_npages]
  unfold withPages
  generalize (withPgdir s D).start = v at hp ⊢
  generalize (withPgdir s D).bump _ = c
  exact memsetPages_ok hp

theorem memInitAlloc_booted (hn : s.npages ≤ 65536) (h0 : s.nextfree = 0) (hlo : kernbase + extphysmem ≤ s.kend)
    (hhi : s.kend < kernbase + 0x300000) : ∃ D ff k, s.memInitAlloc = .ok k ∧ Booted D ff s k := by
  rw [BitVec.le_def, show (kernbase + extphysmem).toNat = 4027580416 from rfl] at hlo
  rw [BitVec.lt_def, show (kernbase + 0x300000).toNat = 4029677568 from rfl] at hhi
  obtain ⟨D, hD⟩ : ∃ D, pageCeil s.kend.toNat = 4026531840 + D * 4096 :=
    ⟨(pageCeil s.kend.toNat - 4026531840) / 4096, by unfold pageCeil; omega⟩
  have hce : pageCeil s.kend.toNat = (s.kend.toNat + 4095) / 4096 * 4096 := rfl
  have hs : s.start = kva D := by
    apply BitVec.eq_of_toNat_eq
    rw [Kern.start, if_pos h0, roundup_pageCeil, kva_toNat (by omega), hD]
    omega
  have h1 : StartsAt s (4026531840 + D * 4096) := ⟨by rw [hs, kva_toNat (by omega)], by omega, by omega⟩
  have hb1 : pageCeil (4026531840 + D * 4096 + pgsize.toNat) = 4026531840 + (D + 1) * 4096 := by
    rw [pgsize_toNat]
    unfold pageCeil
    omega
  have h2 : StartsAt (withPgdir s D) (4026531840 + (D + 1) * 4096) := withPgdir_startsAt (hb1 ▸ h1.next (by omega))
  obtain ⟨n, hn'⟩ : ∃ n, n = BitVec.ofNat 32 s.npages * sizeofPageInfo := ⟨_, rfl⟩
  have hnn : n.toNat = s.npages * 8 := by
    rw [hn', BitVec.toNat_mul, BitVec.toNat_ofNat, show sizeofPageInfo.toNat = 8 from rfl]
    omega
  have hb2 : pageCeil (4026531840 + (D + 1) * 4096 + n.toNat) = (4026531840 + (D + 1) * 4096 + s.npages * 8 + 4095) / 4096 * 4096 := by
    rw [hnn, pageCeil]
  have h3 := withPages_startsAt (h2.next (n := n) (by omega))
  have hp : ¬ (withPgdir s D).start < kernbase := by
    rw [BitVec.lt_def, h2.start, kernbase_toNat]
    omega
  have hok := memInitAlloc_eq hs (by omega) hp
  rw [← hn'] at hok
  refine ⟨D, (withPages (withPgdir s D) n).start - kernbase, _, hok, withPages_npages.trans withPgdir_npages,
    withPages_kernPgdir.trans withPgdir_kernPgdir, by omega, ?_, withPages_pages, ?_, ?_, fun i hi hu => ?_⟩
  · rw [BitVec.toNat_sub, h3.start, hb2, kernbase_toNat]
    omega
  · rw [Kern.bootAlloc_eq]
    dsimp only
    apply paddr_window
    rw [BitVec.lt_def, h3.start, kernbase_toNat]
    omega
  · rw [BitVec.toNat_sub, h3.start, hb2, kernbase_toNat]
    omega
  · rw [withPages_mem]
    exact withPgdir_zero hi hu

/-- The pages 1 to 159 of base memory are free, whatever the kernel's end is. -/
theorem initFree_base {n : Nat} {ff : Word} (hn : 160 ≤ n) : 159 ≤ (dealt (initFree ff n) false).length := by
  have hs : List.range' 1 159 ⊆ dealt (initFree ff n) false := by
    intro p hp
    obtain ⟨h1, h2⟩ := List.mem_range'_1.mp hp
    refine List.mem_filter.mpr ⟨mem_initFree.mpr ⟨by omega, fun hr => ?_⟩, ?_⟩
    · rw [reserved_iff (by omega)] at hr
      omega
    · have := (high4M_eq_false (show p < 65536 by omega)).mpr (by omega)
      simpa using this
  simpa using (List.subperm_of_subset List.nodup_range' hs).length_le

theorem pageInit_ready {k : Kern} {ff : Word} (h : Booted D ff s k) (hn : k.npages ≤ 65536) (h160 : 160 ≤ k.npages)
    (ht : k.pageInit = .ok t) : ∃ l, Ready D [] l t ∧ t.link 0 = none ∧ 159 ≤ (dealt l false).length := by
  have hl := pageInit_loop h.pages ht h.firstFree
  have hD := h.dir_used
  have hff := h.used_low
  have hfree : ∀ p, p ∈ initFree ff k.npages ↔ p < k.npages ∧ p ≠ 0 ∧ (p < 160 ∨ ff.toNat < p * 4096) := fun p => by
    rw [mem_initFree]
    constructor
    · intro ⟨hp, hr⟩
      rw [reserved_iff (by omega)] at hr
      omega
    · intro ⟨hp, hr⟩
      rw [reserved_iff (by omega)]
      omega
  have hnull : 0 ∉ initFree ff k.npages := fun hm => ((hfree 0).mp hm).2.1 rfl
  have hdir : D ∉ initFree ff k.npages := fun hm => by
    have := (hfree D).mp hm
    have := h.dir_ge
    omega
  refine ⟨initFree ff k.npages, ⟨hl.npages ▸ hn, hl.kernPgdir.trans h.kernPgdir, by omega, ?_, hdir, hl.chain, by simp,
    fun p hp => hl.npages ▸ ((hfree p).mp hp).1, hnull, fun i hi hu => ?_⟩, hl.link_none 0 hnull, ?_⟩
  · have := h.dir_ge
    omega
  · rw [hl.mem]
    exact h.zero i hi hu
  · exact initFree_base h160

theorem memInit_fine {k : Kern} {ff : Word} (h : Booted D ff s k) (hn : k.npages ≤ 65536) (h160 : 160 ≤ k.npages) :
    Fine memInit k fun _ _ => True := by
  unfold memInit
  apply (fine_step (Q := fun _ t => k.pageInit = .ok t) fun t ht => ht).bind
  intro _ t ht
  obtain ⟨l, hl, h0, h159⟩ := pageInit_ready h hn h160 ht
  apply (checkPageFreeList_fine hl).bind
  intro _ u ⟨hu, hu0⟩
  apply (hu.checkPageAlloc_fine (by omega) (hu0.trans h0)).bind
  intro _ v ⟨hv0, low, hlow, hv⟩
  apply (hv.checkPage_fine (by omega) hv0).bind
  intro _ w ⟨low', hlow', hw⟩
  exact memInitMap_fine (hw.mapping (by omega))

/-! ## `entry_pgdir` -/

def entryPgtable (i : Nat) : Word := BitVec.ofNat 32 (i * 4096) ||| pteP ||| pteW

/-- `entry_pgdir[i]`, where `entry_pgtable` is page `T`. -/
def entryPgdir (T i : Nat) : Word :=
  if i = 0 then kva T - kernbase + pteP
  else if i = pdx kernbase then kva T - kernbase + pteP + pteW
  else 0

structure EntryTables (m : Mem) (E T : Nat) : Prop where
  lt : T < 65536
  dir : ∀ i < npdentries, m E i = entryPgdir T i
  table : ∀ i < nptentries, m T i = entryPgtable i

/-- Through directory `E` the kernel may write at `a`, to the physical address that `KADDR` made `a` of. -/
def KernelMapped (m : Mem) (E : Nat) (a : Word) : Prop :=
  m E (pdx a) &&& pteW ≠ 0 ∧ ∃ w, pte m E a = some w ∧ w &&& pteW ≠ 0 ∧ pgnum w = pgnum (a - kernbase)

theorem EntryTables.mapped {m : Mem} {E T : Nat} (h : EntryTables m E T) {a : Word} (ha : Event.Low (.access a)) :
    KernelMapped m E a := by
  rw [low_access, kernbase_toNat, ptsize_toNat] at ha
  have hlt := h.lt
  have hd : pdx a = 960 := by
    rw [pdx_eq]
    omega
  have he : m E (pdx a) = page2pa T ||| (pteP ||| pteW) := by
    apply BitVec.eq_of_toNat_eq
    rw [h.dir _ (pdx_lt a), hd, or_flags_toNat (page2pa_aligned T) (by decide)]
    show (kva T - kernbase + pteP + pteW).toNat = _
    rw [kva_sub, BitVec.add_assoc, BitVec.toNat_add, page2pa_toNat, show (pteP + pteW).toNat = 3 from rfl,
      show (pteP ||| pteW).toNat = 3 from rfl]
    omega
  have hT : target (m E (pdx a)) = some T := by
    rw [he, target_or (page2pa_aligned T) (by decide) (by decide), pgnum_page2pa (by omega)]
  have hx : ptx a * 4096 < 4194304 := by
    have := ptx_lt a
    omega
  have hal : (BitVec.ofNat 32 (ptx a * 4096)).toNat % 4096 = 0 := by
    rw [BitVec.toNat_ofNat]
    omega
  have hw : m T (ptx a) = BitVec.ofNat 32 (ptx a * 4096) ||| (pteP ||| pteW) := by
    rw [h.table _ (ptx_lt a), entryPgtable, BitVec.or_assoc]
  have hwt : target (m T (ptx a)) = some (ptx a) := by
    rw [hw, target_or hal (by decide) (by decide), pgnum_eq, BitVec.toNat_ofNat, Option.some.injEq]
    omega
  refine ⟨?_, m T (ptx a), (pte_eq hT).trans (present_of_target hwt), ?_, ?_⟩
  · rw [he, or_flags_and (page2pa_aligned T) (by decide)]
    decide
  · rw [hw, or_flags_and hal (by decide)]
    decide
  · rw [(target_eq_some.mp hwt).2, ptx_eq, pgnum_eq, BitVec.toNat_sub, kernbase_toNat]
    omega

/-- **`mem_init` stays below 4 MB until `lcr3`.** The kernel is linked at 1 MB and ends below 3 MB. On its way from
`page_init` to `lcr3`, as far as it comes, every page that `page_alloc` returns is below 4 MB, and every access to a
page is to an address that `entry_pgdir` maps; and no loop over the free list is endless. -/
theorem memInit_low {s : Kern} (hmin : 160 ≤ s.npages) (hmax : s.npages ≤ 65536) (h0 : s.nextfree = 0)
    (hlink : kernbase + extphysmem ≤ s.kend) (hend : s.kend < kernbase + 0x300000) :
    ∃ k, s.memInitAlloc = .ok k ∧
      (∀ pp, .alloc pp ∈ (memInit.run k).1 → (page2pa pp).toNat < 0x400000) ∧
      (∀ a, .access a ∈ (memInit.run k).1 → ∀ m E T, EntryTables m E T → KernelMapped m E a) ∧
      (memInit.run k).2 ≠ .error .endless := by
  obtain ⟨D, ff, k, hk, hb⟩ := memInitAlloc_booted hmax h0 hlink hend
  obtain ⟨hev, hr⟩ := memInit_fine hb (hb.npages ▸ hmax) (hb.npages ▸ hmin)
  refine ⟨k, hk, fun pp hp => ?_, fun a ha m E T hm => hm.mapped (hev _ ha), fun he => ?_⟩
  · have := low_alloc.mp (hev _ hp)
    rw [page2pa_toNat]
    omega
  · rw [he] at hr
    exact hr rfl

/-- With 8 MB half of the pages are above 4 MB. -/
theorem memInit_low_small : ∃ k, Kern.memInitAlloc { smallMachine with npages := 2048, nextfree := 0 } = .ok k ∧
    (∀ pp, .alloc pp ∈ (memInit.run k).1 → (page2pa pp).toNat < 0x400000) ∧
    (∀ a, .access a ∈ (memInit.run k).1 → ∀ m E T, EntryTables m E T → KernelMapped m E a) ∧
    (memInit.run k).2 ≠ .error .endless :=
  memInit_low (s := { smallMachine with npages := 2048, nextfree := 0 }) (by decide) (by decide) rfl (by decide) (by decide)

end Check

end Jos
