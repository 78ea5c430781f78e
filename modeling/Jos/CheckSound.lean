import Jos.CheckPageSound
import Jos.LowMemSound

/-!
# The self-tests pass

`check_page_free_list`, `check_page_alloc` and `check_page` return, and give back what
they took: `Restored` says what they leave alone. From there the maps of `mem_init` are
made too, so that `mem_init` comes to the end of them on every machine with a free page
above the kernel.
-/

namespace Jos

namespace Check

open Traced IntrusiveList

variable {D p p0 p1 p2 q n : Nat} {low high l l' l'' : List Nat} {s t u : Kern}

/-- With the pages `l` free, nothing is left changed but their memory, and their order on the list: now it is `l'`. -/
structure Restored (l l' : List Nat) (s t : Kern) : Prop where
  npages : t.npages = s.npages
  kernPgdir : t.kernPgdir = s.kernPgdir
  pagesVa : t.pagesVa = s.pagesVa
  bootstack : t.bootstack = s.bootstack
  perm : l'.Perm l
  chain : Chain t.link t.pageFreeList l'
  link : ∀ q ∉ l, t.link q = s.link q
  ref : t.ref = s.ref
  mem : ∀ q ∉ l, t.mem q = s.mem q

theorem Restored.trans (h : Restored l l' s t) (h' : Restored l' l'' t u) : Restored l l'' s u where
  npages := h'.npages.trans h.npages
  kernPgdir := h'.kernPgdir.trans h.kernPgdir
  pagesVa := h'.pagesVa.trans h.pagesVa
  bootstack := h'.bootstack.trans h.bootstack
  perm := h'.perm.trans h.perm
  chain := h'.chain
  link q hq := (h'.link q fun hm => hq (h.perm.mem_iff.mp hm)).trans (h.link q hq)
  ref := h'.ref.trans h.ref
  mem q hq := (h'.mem q fun hm => hq (h.perm.mem_iff.mp hm)).trans (h.mem q hq)

theorem Restored.ready {low' high' : List Nat} (h : Ready D low high s) (hr : Restored (low ++ high) (low' ++ high') s t)
    (hl : ∀ p ∈ low', p < 1024) : Ready D low' high' t where
  npages_le := hr.npages ▸ h.npages_le
  kernPgdir := hr.kernPgdir.trans h.kernPgdir
  dir_low := h.dir_low
  dir_pos := h.dir_pos
  dir_free hm := h.dir_free (hr.perm.mem_iff.mp hm)
  chain := hr.chain
  lowPages := hl
  lt p hp := hr.npages ▸ h.lt p (hr.perm.mem_iff.mp hp)
  null_free hm := h.null_free (hr.perm.mem_iff.mp hm)
  zero i hi hu := by rw [hr.mem D h.dir_free]; exact h.zero i hi hu

/-! ## Taking three pages -/

def taken (s : Kern) (p0 p1 p2 : Nat) : Kern := ((s.pop p0).pop p1).pop p2

theorem worked_taken (s : Kern) (p0 p1 p2 : Nat) : Worked s (taken s p0 p1 p2) := rfl

theorem taken_ref (s : Kern) (p0 p1 p2 : Nat) : (taken s p0 p1 p2).ref = s.ref := by
  unfold taken
  rw [Kern.pop_ref, Kern.pop_ref, Kern.pop_ref]

theorem allocated_returns {f : Word} {x : String} {tr : List Event} (h : (pageAlloc f).run s = (tr, .ok (some p, t))) :
    Returns (allocated f x) s fun q u => q = p ∧ u = t := by
  unfold allocated
  apply (returns_run h (Q := fun q u => q = some p ∧ u = t) ⟨rfl, rfl⟩).bind
  rintro _ _ ⟨rfl, rfl⟩
  exact Returns.pure ⟨rfl, rfl⟩

theorem allocThree_returns (hc : Chain s.link s.pageFreeList (p0 :: p1 :: p2 :: l)) :
    Returns allocThree s fun r t => r = (p0, p1, p2) ∧ t = taken s p0 p1 p2 := by
  have hn := hc.nodup
  simp only [List.nodup_cons, List.mem_cons, not_or] at hn
  obtain ⟨⟨n01, n02, _⟩, ⟨n12, _⟩, _⟩ := hn
  have h1 : (s.pop p0).pageFreeList = some p1 := hc.2.1
  have h2 : ((s.pop p0).pop p1).pageFreeList = some p2 := by
    rw [Kern.pop_pageFreeList, Ready.pop_link_ne _ (Ne.symm n01)]
    exact hc.2.2.1
  unfold allocThree
  apply (allocated_returns (alloc_zero hc.1)).bind
  rintro _ _ ⟨rfl, rfl⟩
  apply (allocated_returns (alloc_zero h1)).bind
  rintro _ _ ⟨rfl, rfl⟩
  apply (allocated_returns (alloc_zero h2)).bind
  rintro _ _ ⟨rfl, rfl⟩
  refine assert_then (Ne.symm n01) ?_
  refine assert_then ⟨Ne.symm n12, Ne.symm n02⟩ ?_
  exact Returns.pure ⟨rfl, rfl⟩

theorem taken_chain (hc : Chain s.link s.pageFreeList (p0 :: p1 :: p2 :: l)) :
    Chain (taken s p0 p1 p2).link (taken s p0 p1 p2).pageFreeList l ∧
      (∀ p ∈ [p0, p1, p2], (taken s p0 p1 p2).link p = none) ∧ ∀ q ∉ [p0, p1, p2], (taken s p0 p1 p2).link q = s.link q := by
  have hn := hc.nodup
  simp only [List.nodup_cons, List.mem_cons, not_or] at hn
  obtain ⟨⟨n01, n02, n0⟩, ⟨n12, n1⟩, n2, _⟩ := hn
  have h1 : Chain (s.pop p0).link (s.pop p0).pageFreeList (p1 :: p2 :: l) := by
    rw [Kern.pop_link, Kern.pop_pageFreeList]
    exact hc.2.update (by simp [n01, n02, n0]) none
  have h2 : Chain ((s.pop p0).pop p1).link ((s.pop p0).pop p1).pageFreeList (p2 :: l) := by
    rw [Kern.pop_link _ p1, Kern.pop_pageFreeList _ p1]
    exact h1.2.update (by simp [n12, n1]) none
  refine ⟨?_, fun p hp => ?_, fun q hq => ?_⟩
  · unfold taken
    rw [Kern.pop_link _ p2, Kern.pop_pageFreeList _ p2]
    exact h2.2.update n2 none
  · unfold taken
    simp only [List.mem_cons, List.not_mem_nil, or_false] at hp
    rcases hp with rfl | rfl | rfl
    · rw [Ready.pop_link_ne _ n02, Ready.pop_link_ne _ n01, Ready.pop_link_self]
    · rw [Ready.pop_link_ne _ n12, Ready.pop_link_self]
    · rw [Ready.pop_link_self]
  · unfold taken
    simp only [List.mem_cons, List.not_mem_nil, or_false, not_or] at hq
    rw [Ready.pop_link_ne _ hq.2.2, Ready.pop_link_ne _ hq.2.1, Ready.pop_link_ne _ hq.1]

theorem freeThree_returns (hr : ∀ p ∈ [p0, p1, p2], s.ref p = 0) (hl : ∀ p ∈ [p0, p1, p2], s.link p = none)
    (hn : [p0, p1, p2].Nodup) :
    Returns (freeThree p0 p1 p2) s fun _ t => t = ((s.push p0).push p1).push p2 := by
  simp only [List.nodup_cons, List.mem_cons, List.not_mem_nil, or_false, not_or] at hn
  obtain ⟨⟨n01, n02⟩, n12, _⟩ := hn
  have h1 : (s.push p0).pageFree p1 = .ok ((s.push p0).push p1) := Kern.pageFree_ok (by rw [Kern.push_ref, hr p1 (by simp)])
    (by rw [Ready.push_link_ne _ (Ne.symm n01), hl p1 (by simp)])
  have h2 : ((s.push p0).push p1).pageFree p2 = .ok (((s.push p0).push p1).push p2) :=
    Kern.pageFree_ok (by rw [Kern.push_ref, Kern.push_ref, hr p2 (by simp)])
      (by rw [Ready.push_link_ne _ (Ne.symm n12), Ready.push_link_ne _ (Ne.symm n02), hl p2 (by simp)])
  unfold freeThree
  apply (returns_step (Kern.pageFree_ok (hr p0 (by simp)) (hl p0 (by simp))) (Q := fun _ t => t = s.push p0) rfl).bind
  rintro _ _ rfl
  apply (returns_step h1 (Q := fun _ t => t = (s.push p0).push p1) rfl).bind
  rintro _ _ rfl
  exact returns_step h2 rfl

theorem given_chain (hc : Chain s.link s.pageFreeList l) (hn : [p0, p1, p2].Nodup) (hl : ∀ p ∈ [p0, p1, p2], p ∉ l) :
    Chain (((s.push p0).push p1).push p2).link (((s.push p0).push p1).push p2).pageFreeList (p2 :: p1 :: p0 :: l) ∧
      ∀ q ∉ [p0, p1, p2], (((s.push p0).push p1).push p2).link q = s.link q := by
  simp only [List.nodup_cons, List.mem_cons, List.not_mem_nil, or_false, not_or] at hn
  obtain ⟨⟨n01, n02⟩, n12, _⟩ := hn
  have l0 := hl p0 (by simp)
  have l1 := hl p1 (by simp)
  have l2 := hl p2 (by simp)
  have h0 := Ready.chain_push hc l0
  have h1 := Ready.chain_push h0 (p := p1) (by simp [Ne.symm n01, l1])
  refine ⟨Ready.chain_push h1 (by simp [Ne.symm n02, Ne.symm n12, l2]), fun q hq => ?_⟩
  simp only [List.mem_cons, List.not_mem_nil, or_false, not_or] at hq
  rw [Ready.push_link_ne _ hq.2.2, Ready.push_link_ne _ hq.2.1, Ready.push_link_ne _ hq.1]

/-! ## `check_page` -/

theorem Ready.trio (h : Ready D (p0 :: p1 :: p2 :: low) high s) : Trio (taken s p0 p1 p2) D p0 p1 p2 where
  npages_le := h.npages_le
  dir_lt := by
    have := h.dir_low
    omega
  lt p hp := h.lt p (List.mem_append_left high (List.mem_append_left low hp))
  link := (taken_chain h.chain).2.1
  dir p hp he := h.dir_free (he ▸ List.mem_append_left high (List.mem_append_left low hp))
  nodup := (List.nodup_append.mp (List.nodup_append.mp h.chain.nodup).1).1

theorem giveBack_returns {q0 q1 q2 : Nat} (h : Ready D (p0 :: p1 :: p2 :: low) high s) (hr : ∀ p ∈ [p0, p1, p2], s.ref p = 0)
    (hp : [q2, q1, q0].Perm [p0, p1, p2]) (hw : Worked s t) (hf : t.pageFreeList = (taken s p0 p1 p2).pageFreeList)
    (hl : t.link = (taken s p0 p1 p2).link) (href : t.ref = s.ref) (hm : ∀ q ∉ [p0, p1, p2], t.mem q = s.mem q) :
    Returns (freeThree q0 q1 q2) t fun _ u =>
      Restored (p0 :: p1 :: p2 :: (low ++ high)) (q2 :: q1 :: q0 :: (low ++ high)) s u := by
  obtain ⟨hc, hn, ho⟩ := taken_chain h.chain
  have hnd : ([p0, p1, p2] ++ (low ++ high)).Nodup := h.chain.nodup
  have hp' : [q0, q1, q2].Perm [p0, p1, p2] := (List.reverse_perm [q2, q1, q0]).trans hp
  have hq : [q0, q1, q2].Nodup := hp'.nodup_iff.mpr (List.nodup_append.mp hnd).1
  apply (freeThree_returns (fun p hm => by rw [href, hr p (hp'.mem_iff.mp hm)])
    (fun p hm => by rw [hl, hn p (hp'.mem_iff.mp hm)]) hq).mono
  rintro _ u hu
  obtain ⟨hg, hgo⟩ := given_chain (s := t) (l := low ++ high) (by rw [hl, hf]; exact hc) hq
    fun p hm => List.disjoint_of_nodup_append hnd (hp'.mem_iff.mp hm)
  have hall : Worked s u := hw.trans (hu ▸ rfl)
  rw [← hu] at hg hgo
  refine ⟨hall.npages, hall.kernPgdir, by rw [hall], by rw [hall], hp.append_right (low ++ high), hg, fun q hq => ?_, ?_, fun q hq => ?_⟩
  · have hq3 : q ∉ [p0, p1, p2] := fun hm => hq (List.mem_append_left (low ++ high) hm)
    rw [hgo q fun hm => hq3 (hp'.mem_iff.mp hm), hl, ho q hq3]
  · rw [hu, Kern.push_ref, Kern.push_ref, Kern.push_ref, href]
  · rw [hu, Kern.push_mem, Kern.push_mem, Kern.push_mem]
    exact hm q fun hq3 => hq (List.mem_append_left (low ++ high) hq3)

/-- **`check_page`** passes, and gives the pages back in the other order. -/
theorem checkPage_returns (h : Ready D (p0 :: p1 :: p2 :: low) high s) (hr : ∀ p ∈ [p0, p1, p2], s.ref p = 0) :
    Returns checkPage s fun _ t => Restored (p0 :: p1 :: p2 :: (low ++ high)) (p2 :: p1 :: p0 :: (low ++ high)) s t := by
  have T := h.trio
  obtain ⟨s₀, hs₀⟩ : ∃ s₀, s₀ = taken s p0 p1 p2 := ⟨_, rfl⟩
  rw [← hs₀] at T
  have hz : ∀ i < 2, s₀.mem D i = 0 := fun i hi => by
    rw [hs₀]
    exact h.zero i (by omega) (by rw [show pdx uvpt = 957 from rfl]; omega)
  have hrs : s₀.ref = s.ref := hs₀ ▸ taken_ref s p0 p1 p2
  have hcounts : counts s₀ p0 p1 p2 0 0 0 = s.ref := by
    unfold counts
    rw [hrs, ← hr p0 (by simp), Function.update_eq_self, hr p0 (by simp), ← hr p1 (by simp), Function.update_eq_self,
      hr p1 (by simp), ← hr p2 (by simp), Function.update_eq_self]
  have hw : Worked s s₀ := hs₀ ▸ worked_taken s p0 p1 p2
  have hsc : Scene s₀ D p0 s₀.pageFreeList (counts s₀ p0 p1 p2 0 0 0) none (fun _ => 0) s₀ :=
    ⟨.refl s₀, rfl, rfl, hcounts ▸ hrs, fun j => (if_neg (by simp)).symm, by simp, fun _ _ _ => rfl⟩
  unfold checkPage
  apply (allocThree_returns h.chain).bind
  rintro _ _ ⟨rfl, rfl⟩
  dsimp only
  rw [← hs₀]
  apply (Returns.get (Q := fun u t => u = s₀ ∧ t = s₀) ⟨rfl, rfl⟩).bind
  rintro _ _ ⟨hu, hv⟩
  rw [hu, hv, show s₀.kernPgdir = kva D from hw.kernPgdir.trans h.kernPgdir]
  apply (hsc.setFreeList none).bind
  intro _ t ht
  apply (checkInsert_returns T (hz 0 (by decide)) ht).bind
  intro _ t ht
  apply (checkRemap_returns T (hz 1 (by decide)) ht).bind
  intro _ t ht
  apply (checkRemove_returns T ht).bind
  intro _ t ht
  apply (ht.loadDir T (by decide)).bind
  rintro _ t ⟨rfl, ht⟩
  refine assert_then (pteAddr_table T) ?_
  apply (ht.untable T (by decide) (hz 0 (by decide))).bind
  intro _ t ht
  apply (ht.assertRef T.counts₀).bind
  intro _ t ht
  apply (ht.setCount p0 0).bind
  intro _ t ht
  rw [T.update₀] at ht
  apply (checkTables_returns T hz ht).bind
  rintro _ t ⟨e, ht⟩
  apply (ht.setFreeList s₀.pageFreeList).bind
  intro _ t ht
  rw [hcounts] at ht
  refine giveBack_returns h hr (List.reverse_perm [p0, p1, p2]) (hw.trans ht.same) (by rw [ht.head, hs₀])
    (by rw [ht.link, hs₀]) ht.ref fun q hq => ?_
  have hs : s₀.mem = s.mem := hs₀ ▸ rfl
  rw [← hs]
  by_cases hqD : q = D
  · funext j
    rw [hqD, ht.dir, if_neg (by simp)]
  · exact ht.other q hqD fun e => hq (e ▸ List.mem_cons_self)

/-! ## `check_page_alloc` -/

theorem returns_forFree {α : Type} {body : Nat → α → Checked α} {J : List Nat → α → Kern → Prop}
    (hb : ∀ p r x s, J (p :: r) x s → Returns (body p x) s fun y t => J r y t ∧ t.link p = r.head?)
    {x : α} (hn : l.length ≤ n) (h : J l x s) : Returns (forFree body n l.head? x) s fun y t => J [] y t := by
  induction l generalizing n x s with
  | nil =>
    unfold forFree
    exact Returns.pure h
  | cons p r ih =>
    obtain ⟨m, rfl⟩ : ∃ m, n = m + 1 := ⟨n - 1, by rw [List.length_cons] at hn; omega⟩
    rw [List.head?_cons, forFree]
    apply (hb p r x s h).bind
    intro y t ht
    apply (Returns.get (Q := fun u v => u = t ∧ v = t) ⟨rfl, rfl⟩).bind
    rintro _ _ ⟨rfl, rfl⟩
    rw [ht.2]
    exact ih (by simpa using hn) ht.1

theorem countFree_returns (hc : Chain s.link s.pageFreeList l) (hn : l.length ≤ s.npages) (m d : Int) :
    Returns (countFree m d) s fun x t => x = m + d * l.length ∧ t = s := by
  unfold countFree
  apply (Returns.get (Q := fun u v => u = s ∧ v = s) ⟨rfl, rfl⟩).bind
  rintro u v ⟨hu, hv⟩
  rw [hu, hv, hc.head]
  refine (returns_forFree (J := fun r x t => t = s ∧ Chain s.link r.head? r ∧ x + d * r.length = m + d * l.length) ?_ hn
    ⟨rfl, hc.head ▸ hc, rfl⟩).mono fun x t ht => ⟨by simpa using ht.2.2, ht.1⟩
  rintro p r x t ⟨rfl, hr, hx⟩
  refine Returns.pure ⟨⟨rfl, hr.2.head ▸ hr.2, ?_⟩, hr.2.head⟩
  rw [← hx, List.length_cons]
  push_cast
  ring

theorem pages_eq (hl : t.link = s.link) (hr : t.ref = s.ref) : t.pages = s.pages := by
  funext p
  calc t.pages p = ⟨t.link p, t.ref p⟩ := rfl
    _ = ⟨s.link p, s.ref p⟩ := by rw [hl, hr]
    _ = s.pages p := rfl

theorem push_pop (hl : s.link p = none) : (s.push p).pop p = s := by
  have hp : (s.push p).link p = s.pageFreeList := by rw [Kern.push_link, Function.update_self]
  have hlink : ((s.push p).pop p).link = s.link := by
    rw [Kern.pop_link, Kern.push_link, Function.update_idem, ← hl, Function.update_eq_self]
  have hpages := pages_eq hlink (by rw [Kern.pop_ref, Kern.push_ref])
  have he : (s.push p).pop p = { s with pages := ((s.push p).pop p).pages, pageFreeList := (s.push p).link p } := rfl
  rw [he, hp, hpages]

theorem given_taken (hl : ∀ p ∈ [p0, p1, p2], s.link p = none) (hn : [p0, p1, p2].Nodup) :
    taken (((s.push p0).push p1).push p2) p2 p1 p0 = s := by
  simp only [List.nodup_cons, List.mem_cons, List.not_mem_nil, or_false, not_or] at hn
  obtain ⟨⟨n01, n02⟩, n12, _⟩ := hn
  unfold taken
  rw [push_pop, push_pop, push_pop (hl p0 (by simp))]
  · rw [Ready.push_link_ne _ (Ne.symm n01), hl p1 (by simp)]
  · rw [Ready.push_link_ne _ (Ne.symm n12), Ready.push_link_ne _ (Ne.symm n02), hl p2 (by simp)]

theorem loadByte_returns {i : Nat} (hp : p < 65536) (hi : i < 4096) (h0 : ∀ j < 1024, s.mem p j = 0) :
    Returns (loadByte (kva p + BitVec.ofNat 32 i)) s fun b t => b = 0 ∧ t = s := by
  have ha : (kva p + BitVec.ofNat 32 i).toNat = 4026531840 + p * 4096 + i := by
    rw [BitVec.toNat_add, kva_toNat hp, BitVec.toNat_ofNat]
    omega
  have hs : (kva p + BitVec.ofNat 32 i - kernbase).toNat = p * 4096 + i := by
    rw [BitVec.toNat_sub, ha, kernbase_toNat]
    omega
  have hlo : ¬ kva p + BitVec.ofNat 32 i < kernbase := by
    rw [BitVec.lt_def, ha, kernbase_toNat]
    omega
  have hg : pgnum (kva p + BitVec.ofNat 32 i - kernbase) = p := by
    rw [pgnum_eq, hs]
    omega
  have hz : s.loadByte (kva p + BitVec.ofNat 32 i) = .ok 0 := by
    unfold Kern.loadByte
    rw [if_neg hlo, hg]
    dsimp only
    rw [pgoff_toNat, hs, h0 _ (by omega)]
    simp
  refine .of_forget ?_ ⟨rfl, rfl⟩
  unfold loadByte
  simp [hz]

theorem checkStolen_returns (hf : s.pageFreeList = none) (hlt : ∀ p ∈ [p0, p1, p2], p < s.npages ∧ p < 65536)
    (hr : ∀ p ∈ [p0, p1, p2], s.ref p = 0) (hl : ∀ p ∈ [p0, p1, p2], s.link p = none) (hn : [p0, p1, p2].Nodup) :
    Returns (checkStolen p0 p1 p2) s fun r t => r = (p2, p1, p0) ∧ t = (s.fill p2 1024 0x01010101).clear p2 := by
  obtain ⟨hn2, hp2⟩ := hlt p2 (by simp)
  have hnone : ∀ {u : Kern}, u.pageFreeList = none → Returns noFreeMemory u fun _ t => t = u := fun hu => by
    unfold noFreeMemory
    apply (returns_run (alloc_none hu 0) (Q := fun q t => q = none ∧ t = _) ⟨rfl, rfl⟩).bind
    rintro _ _ ⟨rfl, rfl⟩
    exact returns_assert rfl rfl
  have hc := (given_chain (s := s) (l := []) hf hn (by simp)).1
  unfold checkStolen
  apply (hnone hf).bind
  rintro _ t ht
  rw [ht]
  apply (freeThree_returns hr hl hn).bind
  rintro _ t ht
  rw [ht]
  apply (allocThree_returns hc).bind
  rintro _ t ⟨rfl, ht⟩
  rw [ht, given_taken hl hn]
  dsimp only
  apply (hnone hf).bind
  rintro _ t ht
  rw [ht]
  apply (returns_read (Kern.kaddr_page2pa s (by omega) hn2) (Q := fun a t => a = kva p2 ∧ t = s) ⟨rfl, rfl⟩).bind
  rintro _ t ⟨rfl, ht⟩
  rw [ht]
  -- the page is spoilt, freed and taken again as a cleared one
  obtain ⟨w, hw⟩ : ∃ w, w = s.fill p2 1024 0x01010101 := ⟨_, rfl⟩
  have hwl : w.link p2 = none := by
    rw [hw]
    exact hl p2 (by simp)
  have hwr : w.ref p2 = 0 := by
    rw [hw]
    exact hr p2 (by simp)
  have hwn : w.npages = s.npages := by rw [hw]; rfl
  rw [← hw]
  apply (returns_run (memset_run hp2 1 4096) (Q := fun _ t => t = w) hw.symm).bind
  rintro _ t ht
  rw [ht]
  apply (returns_step (Kern.pageFree_ok hwr hwl) (Q := fun _ t => t = w.push p2) rfl).bind
  rintro _ t ht
  rw [ht]
  have ha := alloc_clear (s := w.push p2) (p := p2) (f := allocZero) rfl (by decide) (by rw [Kern.push_npages, hwn]; exact hn2) hp2
  rw [push_pop hwl] at ha
  apply (allocated_returns ha).bind
  rintro q t ⟨hq, ht⟩
  rw [hq, ht]
  refine assert_then rfl ?_
  have hk : (w.clear p2).page2kva p2 = .ok (kva p2) := Kern.kaddr_page2pa _ (by omega) (by rw [Kern.clear_npages, hwn]; exact hn2)
  apply (returns_read hk (Q := fun a t => a = kva p2 ∧ t = w.clear p2) ⟨rfl, rfl⟩).bind
  rintro _ t ⟨rfl, ht⟩
  rw [ht]
  apply (Returns.forM (I := fun l t => (∀ i ∈ l, i < 4096) ∧ t = w.clear p2) ?_ ⟨fun i hi => List.mem_range.mp hi, rfl⟩).bind
  · rintro _ t ⟨_, ht⟩
    exact Returns.pure ⟨rfl, ht⟩
  · rintro i l t ⟨hi, ht⟩
    rw [ht]
    apply (loadByte_returns hp2 (hi i List.mem_cons_self) fun j hj => Mem.clear_self _ hj).bind
    rintro _ t ⟨rfl, ht⟩
    exact returns_assert rfl ⟨fun k hk => hi k (List.mem_cons_of_mem i hk), ht⟩

/-- **`check_page_alloc`** passes, and leaves the free list as it was. -/
theorem checkPageAlloc_returns (h : Ready D (p0 :: p1 :: p2 :: low) high s) (hr : ∀ p ∈ [p0, p1, p2], s.ref p = 0)
    (hv : s.pagesVa ≠ 0) : Returns checkPageAlloc s fun _ t =>
      Restored (p0 :: p1 :: p2 :: (low ++ high)) (p0 :: p1 :: p2 :: (low ++ high)) s t := by
  have T := h.trio
  obtain ⟨s₀, hs₀⟩ : ∃ s₀, s₀ = taken s p0 p1 p2 := ⟨_, rfl⟩
  have hl := (taken_chain h.chain).2.1
  rw [← hs₀] at T hl
  have hrs : s₀.ref = s.ref := hs₀ ▸ taken_ref s p0 p1 p2
  have hw : Worked s s₀ := hs₀ ▸ worked_taken s p0 p1 p2
  have hlow : ∀ p ∈ [p0, p1, p2], page2pa p < BitVec.ofNat 32 s₀.npages * pgsize := fun p hp => by
    have h1 := T.lt p hp
    have h2 := T.npages_le
    rw [BitVec.lt_def, page2pa_toNat, BitVec.toNat_mul, BitVec.toNat_ofNat, pgsize_toNat]
    omega
  have hs0 : ∀ p ∈ [p0, p1, p2], s₀.ref p = 0 := fun p hp => by rw [hrs, hr p hp]
  unfold checkPageAlloc
  apply (Returns.get (Q := fun u v => u = s ∧ v = s) ⟨rfl, rfl⟩).bind
  rintro u v ⟨hu, hv'⟩
  rw [hu, hv']
  apply (returns_require (Q := fun _ t => t = s) hv rfl).bind
  rintro _ t ht
  rw [ht]
  apply (countFree_returns h.chain h.length_le 0 1).bind
  rintro m t ⟨hm, ht⟩
  rw [ht]
  apply (allocThree_returns h.chain).bind
  rintro _ t ⟨rfl, ht⟩
  rw [ht]
  dsimp only
  rw [← hs₀]
  apply (Returns.get (Q := fun u v => u = s₀ ∧ v = s₀) ⟨rfl, rfl⟩).bind
  rintro u v ⟨hu, hv'⟩
  rw [hu, hv']
  refine assert_then (hlow p0 (by simp)) ?_
  refine assert_then (hlow p1 (by simp)) ?_
  refine assert_then (hlow p2 (by simp)) ?_
  obtain ⟨v, hvs⟩ : ∃ v, v = { s₀ with pageFreeList := none } := ⟨_, rfl⟩
  apply (Returns.modify (Q := fun _ t => t = v) hvs.symm).bind
  rintro _ t ht
  rw [ht]
  apply (checkStolen_returns (s := v) (by rw [hvs]) (fun p hp => ⟨by rw [hvs]; exact T.lt p hp, T.lt' hp⟩)
    (by rw [hvs]; exact hs0) (by rw [hvs]; exact hl) T.nodup).bind
  rintro _ t ⟨rfl, ht⟩
  rw [ht]
  dsimp only
  obtain ⟨w, hws⟩ : ∃ w, w = { (v.fill p2 1024 0x01010101).clear p2 with pageFreeList := s₀.pageFreeList } := ⟨_, rfl⟩
  apply (Returns.modify (Q := fun _ t => t = w) hws.symm).bind
  rintro _ t ht
  rw [ht]
  have hww : Worked s w := hw.trans (by rw [hws, hvs]; rfl)
  refine (giveBack_returns h hr (.refl _) hww (by rw [hws, hs₀]) (by rw [hws, hvs, hs₀]; rfl) (by rw [← hrs, hws, hvs]; rfl)
    fun q hq => ?_).bind fun _ t ht => ?_
  · have hq2 : q ≠ p2 := fun he => hq (by simp [he])
    rw [hws]
    funext j
    show ((v.fill p2 1024 0x01010101).mem.clear p2) q j = s.mem q j
    rw [Mem.clear_of_ne _ hq2]
    refine (if_neg fun e => hq2 e.1).trans ?_
    rw [hvs, hs₀]
    rfl
  · apply (countFree_returns ht.chain (by rw [ht.npages]; exact h.length_le) m (-1)).bind
    rintro n u ⟨hnn, hu⟩
    rw [hu]
    refine returns_assert ?_ ht
    rw [hnn, hm]
    simp

/-! ## `check_page_free_list` -/

/-- Pages that may be on the list: of base memory, or from the address `a` in the window on. -/
def Placed (a : Word) (p : Nat) : Prop := p ≠ 0 ∧ (p < 160 ∨ 256 < p ∧ a.toNat ≤ 4026531840 + p * 4096)

structure Spoilt (l : List Nat) (s t : Kern) : Prop where
  same : t = { s with mem := t.mem, log := t.log }
  mem : ∀ q ∉ l, t.mem q = s.mem q

theorem spoilFreePage_returns {x : Unit} (h : Spoilt l s t) (hp : p ∈ l) (hlt : p < s.npages) (hmax : p < 65536) :
    Returns (spoilFreePage 1 p x) t fun _ u => Spoilt l s u := by
  unfold spoilFreePage
  split
  · have hk : t.page2kva p = .ok (kva p) := Kern.kaddr_page2pa _ (by omega) (by rw [h.same]; exact hlt)
    apply (returns_read hk (Q := fun a u => a = kva p ∧ u = t) ⟨rfl, rfl⟩).bind
    rintro _ u ⟨rfl, hu⟩
    rw [hu]
    refine returns_run (memset_run hmax 0x97 128) ⟨?_, fun q hq => ?_⟩
    · show Kern.fill _ _ _ _ = _
      rw [h.same]
      rfl
    · rw [← h.mem q hq]
      funext j
      exact if_neg fun e : q = p ∧ j < 128 / 4 => hq (e.1 ▸ hp)
  · exact Returns.pure h

theorem checkFreePage_returns {a : Word} {x : Int × Int} (hlt : p < s.npages) (hmax : p < 65536)
    (hp : Placed a p) : Returns (checkFreePage a p x) s fun y t =>
      t = s ∧ y = if p < 160 then (x.1 + 1, x.2) else (x.1, x.2 + 1) := by
  obtain ⟨h0, hp⟩ := hp
  have hne : ∀ q, q < 1048576 → p ≠ q → page2pa p ≠ page2pa q := fun q hq hpq he => hpq (page2pa_inj (by omega) hq he)
  have h160 : iophysmem = page2pa 160 := rfl
  have h255 : extphysmem - pgsize = page2pa 255 := rfl
  have h256 : extphysmem = page2pa 256 := rfl
  have hext : page2pa p < extphysmem ↔ p < 256 := by
    rw [BitVec.lt_def, page2pa_toNat, extphysmem_toNat]
    omega
  unfold checkFreePage
  apply (Returns.get (Q := fun u v => u = s ∧ v = s) ⟨rfl, rfl⟩).bind
  rintro u v ⟨hu, hv⟩
  rw [hu, hv]
  refine assert_then hlt ?_
  refine assert_then (hne 0 (by decide) h0) ?_
  refine assert_then (h160 ▸ hne 160 (by decide) (by omega)) ?_
  refine assert_then (h255 ▸ hne 255 (by decide) (by omega)) ?_
  refine assert_then (h256 ▸ hne 256 (by decide) (by omega)) ?_
  by_cases hb : p < 160
  · rw [if_pos (hext.mpr (by omega)), if_pos hb]
    exact Returns.pure ⟨rfl, rfl⟩
  · have hk : s.page2kva p = .ok (kva p) := Kern.kaddr_page2pa _ (by omega) hlt
    rw [if_neg fun he => by have := hext.mp he; omega, if_neg hb]
    apply (returns_read hk (Q := fun b u => b = kva p ∧ u = s) ⟨rfl, rfl⟩).bind
    rintro _ u ⟨rfl, hu⟩
    rw [hu]
    refine assert_then ?_ (Returns.pure ⟨rfl, rfl⟩)
    have := (hp.resolve_left hb).2
    show a.toNat ≤ (kva p).toNat
    rwa [kva_toNat hmax]

theorem OnlyLinks.start (h : OnlyLinks s t) : t.start = s.start := by
  rw [h.eq]
  rfl

theorem dealt_perm (l : List Nat) : (dealt l false ++ dealt l true).Perm l := by
  rw [(dealt_eq l).1, (dealt_eq l).2]
  simpa using List.filter_append_perm (fun p => decide (Below4M p)) l

def counted (l : List Nat) : Int × Int := (l.countP (· < 160), l.countP (¬ · < 160))

theorem counted_cons (p : Nat) (l : List Nat) :
    counted (p :: l) = if p < 160 then ((counted l).1 + 1, (counted l).2) else ((counted l).1, (counted l).2 + 1) := by
  unfold counted
  by_cases hp : p < 160
  · simp [hp, Nat.not_le.mpr hp]
  · simp [hp, Nat.not_lt.mp hp]

theorem counted_fst_pos : 0 < (counted l).1 ↔ ∃ p ∈ l, p < 160 := by
  unfold counted
  simp [List.countP_pos_iff]

theorem counted_snd_pos : 0 < (counted l).2 ↔ ∃ p ∈ l, ¬ p < 160 := by
  unfold counted
  simp [List.countP_pos_iff]

theorem relink_returns (hc : Chain s.link s.pageFreeList l) (hn : l.length ≤ s.npages) (pp1 pp2 : Option Nat) :
    Returns (relink 1 pp1 pp2) s fun _ t => OnlyLinks s t ∧ Chain t.link t.pageFreeList (dealt l false ++ dealt l true) ∧
      ∀ p ∉ l, t.link p = s.link p := by
  obtain ⟨t, hrun, hchain, ho, hf⟩ := relink_run hc pp1 pp2
  exact returns_run (relink_eq 1 pp1 pp2 s ▸ hrun s.npages hn) ⟨ho, hchain, hf⟩

theorem countPages_returns {a : Word} (hc : Chain s.link l.head? l) (hn : l.length ≤ n) (hs : s.npages ≤ 65536)
    (hlt : ∀ p ∈ l, p < s.npages) (hl : ∀ p ∈ l, Placed a p) :
    Returns (forFree (checkFreePage a) n l.head? (0, 0)) s fun y t => t = s ∧ y = counted l := by
  refine (returns_forFree (J := fun r x t => t = s ∧ Chain s.link r.head? r ∧ r ⊆ l ∧
    (x.1 + (counted r).1, x.2 + (counted r).2) = counted l) ?_ hn ?_).mono fun y t ht => ⟨ht.1, ?_⟩
  · rintro p r x t ⟨ht, hr, hsub, hx⟩
    rw [ht]
    have hp := hsub List.mem_cons_self
    have hpn := hlt p hp
    apply (checkFreePage_returns hpn (by omega) (hl p hp)).mono
    rintro y u ⟨hu, hy⟩
    refine ⟨⟨hu, hr.2.head ▸ hr.2, fun q hq => hsub (List.mem_cons_of_mem p hq), ?_⟩, hu ▸ hr.2.head⟩
    rw [← hx, hy, counted_cons]
    split
    · exact Prod.ext (by dsimp only; omega) (by dsimp only)
    · exact Prod.ext (by dsimp only) (by dsimp only; omega)
  · exact ⟨rfl, hc, fun _ hp => hp, by simp⟩
  · have := ht.2.2.2
    simpa [counted] using this

theorem counted_perm {l' : List Nat} (h : l'.Perm l) : counted l' = counted l := by
  unfold counted
  rw [h.countP_eq, h.countP_eq]

theorem assert_result {β : Type} {c : Prop} [Decidable c] {x : String} {f : Unit → Checked β} {C : Except Stop (β × Kern) → Prop}
    (h : c) (hf : C ((f ()).forget s)) : C ((assert c x >>= f).forget s) :=
  (returns_assert (Q := fun _ t => t = s) h rfl).andThen fun _ t ht => by
    rw [ht]
    exact hf

/-- **`check_page_free_list(1)`** passes where there is free memory above the kernel, and says so where there is none. -/
theorem checkPageFreeList_result (h : Ready D [] l s) (hl : ∀ p ∈ l, Placed s.start p) (hb : ∃ p ∈ l, p < 160) :
    if ∃ p ∈ l, ¬ p < 160 then
      Returns (checkPageFreeList true) s fun _ t => Restored l (dealt l false ++ dealt l true) s t
    else (checkPageFreeList true).forget s = .error (.assertion "nfree_extmem > 0") := by
  have hnil : s.pageFreeList ≠ none := by
    obtain ⟨p, hp, _⟩ := hb
    rw [h.head]
    cases l with
    | nil => cases hp
    | cons q l => simp
  have hperm := dealt_perm l
  have hchain : Chain s.link s.pageFreeList l := h.chain
  obtain ⟨C, hC⟩ : ∃ C : Except Stop (Unit × Kern) → Prop, ∀ r, C r ↔ if ∃ p ∈ l, ¬ p < 160 then
      ∃ a t, r = .ok (a, t) ∧ Restored l (dealt l false ++ dealt l true) s t
    else r = .error (.assertion "nfree_extmem > 0") := ⟨_, fun _ => Iff.rfl⟩
  apply (hC _).mp
  unfold checkPageFreeList
  dsimp only
  apply (Returns.get (Q := fun u v => u = s ∧ v = s) ⟨rfl, rfl⟩).andThen
  rintro u v ⟨hu, hv⟩
  rw [hu, hv]
  apply (returns_require (Q := fun _ t => t = s) hnil rfl).andThen
  rintro _ t ht
  rw [ht, if_pos rfl]
  apply (relink_returns hchain h.length_le none none).andThen
  rintro _ t ⟨ho, hc, hother⟩
  have hnt : t.npages = s.npages := by rw [ho.eq]
  have hlen : (dealt l false ++ dealt l true).length ≤ t.npages := by
    rw [hnt, hperm.length_eq]
    exact h.length_le
  apply (Returns.get (Q := fun u v => u = t ∧ v = t) ⟨rfl, rfl⟩).andThen
  rintro u v ⟨hu, hv⟩
  rw [hu, hv, hc.head]
  apply (returns_forFree (J := fun r _ u => Spoilt l t u ∧ Chain t.link r.head? r ∧ r ⊆ l) ?_ hlen
    ⟨⟨rfl, fun _ _ => rfl⟩, hc.head ▸ hc, fun p hp => hperm.mem_iff.mp hp⟩).andThen
  · rintro _ u ⟨hu, _, _⟩
    have hul : u.link = t.link := by rw [hu.same]; rfl
    have huf : u.pageFreeList = t.pageFreeList := by rw [hu.same]
    have hun : u.npages = s.npages := by rw [hu.same, ← hnt]
    have hus : u.start = s.start := by rw [hu.same, ← ho.start]; rfl
    apply (returns_run (bootAlloc_run u 0) (Q := fun a v => a = u.start ∧ v = u.bump 0) ⟨rfl, rfl⟩).andThen
    rintro a v ⟨ha, hv⟩
    have hvs : v = { s with pages := t.pages, pageFreeList := t.pageFreeList, nextfree := v.nextfree, mem := u.mem, log := u.log } := by
      rw [hv, hu.same, ho.eq]
      rfl
    have hvl : v.link = t.link := by rw [hvs]; rfl
    have hvf : v.pageFreeList = t.pageFreeList := by rw [hvs]
    have hvn : v.npages = s.npages := by rw [hvs]
    have hres : Restored l (dealt l false ++ dealt l true) s v := by
      refine ⟨hvn, by rw [hvs], by rw [hvs], by rw [hvs], hperm, by rw [hvl, hvf]; exact hc, fun q hq => ?_, ?_, fun q hq => ?_⟩
      · rw [hvl, hother q hq]
      · rw [← ho.ref, hvs]
        rfl
      · have hmt : t.mem = s.mem := by rw [ho.eq]
        rw [← hmt, ← hu.mem q hq, hvs]
    apply (countPages_returns (a := a) (by rw [hvl]; exact hc.head ▸ hc) hlen (hvn ▸ h.npages_le)
      (fun p hp => hvn ▸ h.lt p (hperm.mem_iff.mp hp)) fun p hp => by
        rw [ha, hus]
        exact hl p (hperm.mem_iff.mp hp)).andThen
    rintro n w ⟨hw, hn⟩
    rw [hw, hn, counted_perm hperm]
    refine assert_result (counted_fst_pos.mpr hb) ?_
    by_cases hx : ∃ p ∈ l, ¬ p < 160
    · rw [hC, if_pos hx]
      exact returns_assert (counted_snd_pos.mpr hx) hres
    · rw [hC, if_neg hx]
      unfold assert require
      rw [if_neg fun he => hx (counted_snd_pos.mp he)]
      rfl
  · rintro p r x u ⟨hu, hr, hsub⟩
    have hp := hsub List.mem_cons_self
    have hps := h.lt p hp
    have hmax := h.npages_le
    apply (spoilFreePage_returns hu hp (by rw [hnt]; exact hps) (by omega)).mono
    rintro _ v hv
    refine ⟨⟨hv, hr.2.head ▸ hr.2, fun q hq => hsub (List.mem_cons_of_mem p hq)⟩, ?_⟩
    have hvl : v.link = t.link := by rw [hv.same]; rfl
    rw [hvl, hr.2.head]

/-! ## `mem_init` -/

theorem worked_pageInitStep (ff : Word) (s : Kern) (i : Nat) : Worked s (Kern.pageInitStep ff s i) := by
  unfold Kern.pageInitStep
  split
  · rfl
  · split
    · rfl
    · rfl

theorem worked_foldl (ff : Word) (is : List Nat) (s : Kern) : Worked s (is.foldl (Kern.pageInitStep ff) s) := by
  induction is generalizing s with
  | nil => exact .refl s
  | cons i is ih => exact (worked_pageInitStep ff s i).trans (ih _)

theorem pageInit_start (h : s.pageInit = .ok t) : t.start = (s.bump 0).start := by
  unfold Kern.pageInit at h
  rw [Kern.bootAlloc_eq] at h
  dsimp only at h
  obtain ⟨ff, _, h⟩ := bind_eq_ok.mp h
  cases h
  rw [worked_foldl]
  rfl

theorem clear_bootstack (s : Kern) (p : Nat) : (s.clear p).bootstack = s.bootstack := rfl

theorem withPgdir_bootstack : (withPgdir s D).bootstack = s.bootstack := by
  unfold withPgdir
  rw [Kern.write_bootstack, clear_bootstack]
  simp only [Kern.bump]

theorem withPages_bootstack {m : Word} : (withPages s m).bootstack = s.bootstack := by
  simp only [withPages, Kern.bump]

theorem withPgdir_mem (hq : q ≠ D) : (withPgdir s D).mem q = s.mem q := by
  funext j
  unfold withPgdir
  rw [Kern.write_mem, Mem.set_of_page_ne _ hq, Kern.clear_mem, Mem.clear_of_ne _ hq]
  simp only [Kern.bump]

structure Laid (D : Nat) (s k : Kern) : Prop where
  dir : pageCeil s.kend.toNat = 4026531840 + D * 4096
  uvpt : k.mem D (pdx Jos.uvpt) = page2pa D ||| pteU ||| pteP
  pagesVa_ge : ¬ k.pagesVa < kernbase
  pagesVa_aligned : k.pagesVa.toNat % 4096 = 0
  bootstack : k.bootstack = s.bootstack
  mem : ∀ q, q ≠ D → k.mem q = s.mem q

theorem memInitAlloc_laid {k : Kern} {ff : Word} (hk : s.memInitAlloc = .ok k) (hb : Booted D ff s k) (h0 : s.nextfree = 0)
    (hlo : kernbase + extphysmem ≤ s.kend) (hhi : s.kend < kernbase + 0x300000) : Laid D s k := by
  rw [BitVec.le_def, show (kernbase + extphysmem).toNat = 4027580416 from rfl] at hlo
  rw [BitVec.lt_def, show (kernbase + 0x300000).toNat = 4029677568 from rfl] at hhi
  obtain ⟨E, hE⟩ : ∃ E, pageCeil s.kend.toNat = 4026531840 + E * 4096 :=
    ⟨(pageCeil s.kend.toNat - 4026531840) / 4096, by unfold pageCeil; omega⟩
  have hce : pageCeil s.kend.toNat = (s.kend.toNat + 4095) / 4096 * 4096 := rfl
  have hs : s.start = kva E := by
    apply BitVec.eq_of_toNat_eq
    rw [Kern.start, if_pos h0, roundup_pageCeil, kva_toNat (by omega), hE]
    omega
  have h1 : StartsAt s (4026531840 + E * 4096) := ⟨by rw [hs, kva_toNat (by omega)], by omega, by omega⟩
  have hb1 : pageCeil (4026531840 + E * 4096 + pgsize.toNat) = 4026531840 + (E + 1) * 4096 := by
    rw [pgsize_toNat]
    unfold pageCeil
    omega
  have h2 : StartsAt (withPgdir s E) (4026531840 + (E + 1) * 4096) := withPgdir_startsAt (hb1 ▸ h1.next (by omega))
  have hp : ¬ (withPgdir s E).start < kernbase := by
    rw [BitVec.lt_def, h2.start, kernbase_toNat]
    omega
  rw [memInitAlloc_eq hs (by omega) hp, Except.ok.injEq] at hk
  obtain rfl : E = D := by
    have hkva : kva E = kva D := by
      rw [← hb.kernPgdir, ← hk, withPages_kernPgdir, withPgdir_kernPgdir]
    have := hb.dir_used
    have := hb.used_low
    have := congrArg BitVec.toNat hkva
    rw [kva_toNat (by omega), kva_toNat (by omega)] at this
    omega
  have hpv : k.pagesVa = (withPgdir s E).start := by
    rw [← hk]
    simp only [withPages]
  refine ⟨hE, ?_, hpv ▸ hp, ?_, ?_, fun q hq => ?_⟩
  · rw [← hk, withPages_mem]
    unfold withPgdir
    rw [Kern.write_mem, Mem.set_self]
  · rw [hpv, h2.start]
    omega
  · rw [← hk, withPages_bootstack, withPgdir_bootstack]
  · rw [← hk, withPages_mem, withPgdir_mem hq]

theorem pageCeil_le {a : Nat} (h : a < p * 4096) : 4026531840 + (a + 4095) / 4096 * 4096 ≤ 4026531840 + p * 4096 := by
  omega

theorem pageInit_list {k : Kern} {ff : Word} (hb : Booted D ff s k) (hn : k.npages ≤ 65536) (h160 : 160 ≤ k.npages)
    (ht : k.pageInit = .ok t) : Kern.InitLoop ff k k.npages t ∧ Ready D [] (initFree ff k.npages) t ∧
      159 ≤ (dealt (initFree ff k.npages) false).length ∧ (∀ p ∈ initFree ff k.npages, Placed t.start p ∧ t.ref p = 0) ∧
      ((∃ p ∈ initFree ff k.npages, ¬ p < 160) ↔ ff.toNat < (k.npages - 1) * 4096) := by
  have hl := pageInit_loop hb.pages ht hb.firstFree
  obtain ⟨l, hr, _, h159⟩ := pageInit_ready hb hn h160 ht
  obtain rfl : l = initFree ff k.npages := hr.chain.unique hl.chain
  have hff := hb.used_low
  have hD := hb.dir_used
  have hge := hb.dir_ge
  have hfree : ∀ p, p ∈ initFree ff k.npages ↔ p < k.npages ∧ p ≠ 0 ∧ (p < 160 ∨ ff.toNat < p * 4096) := fun p => by
    rw [mem_initFree]
    constructor
    · rintro ⟨hp, hr⟩
      rw [reserved_iff (by omega)] at hr
      omega
    · rintro ⟨hp, hr⟩
      rw [reserved_iff (by omega)]
      omega
  have hstart : t.start.toNat ≤ 4026531840 + (ff.toNat + 4095) / 4096 * 4096 := by
    have hk : k.start.toNat = 4026531840 + ff.toNat := by
      have hf := hb.firstFree
      rw [Kern.bootAlloc_eq] at hf
      dsimp only at hf
      unfold paddr at hf
      split at hf
      · cases hf
      · rename_i hge
        rw [Except.ok.injEq] at hf
        rw [BitVec.lt_def, kernbase_toNat] at hge
        rw [← hf, BitVec.toNat_sub, kernbase_toNat]
        have := k.start.isLt
        omega
    have hr : (roundup (k.start + 0) pgsize).toNat = 4026531840 + (ff.toNat + 4095) / 4096 * 4096 := by
      rw [roundup_pageCeil, BitVec.toNat_add, show (0 : Word).toNat = 0 from rfl, hk]
      unfold pageCeil
      omega
    rw [pageInit_start ht, Kern.bump_start, if_neg, hr]
    intro he
    rw [he, show (0 : Word).toNat = 0 from rfl] at hr
    omega
  refine ⟨hl, hr, h159, fun p hp => ⟨?_, ?_⟩, ?_⟩
  · have := (hfree p).mp hp
    refine ⟨this.2.1, ?_⟩
    rcases this.2.2 with h | h
    · exact Or.inl h
    · exact Or.inr ⟨by omega, Nat.le_trans hstart (pageCeil_le h)⟩
  · rw [hl.ref, if_neg fun e => (mem_initFree.mp hp).2 e.2]
  · constructor
    · rintro ⟨p, hp, h⟩
      have := (hfree p).mp hp
      omega
    · intro h
      exact ⟨k.npages - 1, (hfree _).mpr (by omega), by omega⟩

/-- The state `t` that the maps of `mem_init` leave, from the list `l₀` of `page_init` in the state `t₀`. -/
structure Prepared (D : Nat) (l₀ : List Nat) (t₀ w t : Kern) (l free new : List Nat) : Prop where
  restored : Restored l₀ l t₀ w
  start : MapStart D w l
  map : w.memInitMap = .ok t
  maps : Maps {D} mapIx D (kernEntries w) w t l free new

theorem pageInit_ok {k : Kern} {ff : Word} (hb : Booted D ff s k) : ∃ t, k.pageInit = .ok t := by
  have hf := hb.firstFree
  unfold Kern.pageInit
  rw [Kern.bootAlloc_eq] at hf ⊢
  dsimp only at hf ⊢
  exact ⟨_, by rw [show Kern.start { k with pageFreeList := none } = k.start from rfl, hf]; rfl⟩

theorem initFree_low {n : Nat} {ff : Word} (hn : 160 ≤ n) : ∃ p ∈ initFree ff n, p < 160 := by
  refine ⟨1, mem_initFree.mpr ⟨by omega, fun hr => ?_⟩, by decide⟩
  rw [reserved_iff (by decide)] at hr
  omega

/-- **`mem_init`** from `page_init` to the end of its maps. -/
theorem memInit_run {k : Kern} {ff : Word} (hb : Booted D ff s k) (hd : Laid D s k) (hn : k.npages ≤ 65536)
    (h160 : 160 ≤ k.npages) (hbs : k.bootstack.toNat % 4096 = 0) (hbk : ¬ k.bootstack < kernbase)
    (hff : ff.toNat < (k.npages - 1) * 4096) : Returns memInit k fun _ t => ∃ t₀ w l free new, k.pageInit = .ok t₀ ∧
      Prepared D (initFree ff k.npages) t₀ w t l free new := by
  obtain ⟨t₀, ht₀⟩ := pageInit_ok hb
  obtain ⟨hl, hr, h159, hp, hx⟩ := pageInit_list hb hn h160 ht₀
  unfold memInit
  apply (returns_step ht₀ (Q := fun _ t => t = t₀) rfl).bind
  rintro _ t rfl
  have hlist := checkPageFreeList_result hr (fun p hm => (hp p hm).1) (initFree_low h160)
  rw [if_pos (hx.mpr hff)] at hlist
  apply hlist.bind
  intro _ t₁ h1
  obtain ⟨low, hlow'⟩ : ∃ low, low = dealt (initFree ff k.npages) false := ⟨_, rfl⟩
  obtain ⟨high, hhigh⟩ : ∃ high, high = dealt (initFree ff k.npages) true := ⟨_, rfl⟩
  rw [← hlow', ← hhigh] at h1
  have hr1 : Ready D low high t₁ := h1.ready hr fun p hm => by
    rw [hlow'] at hm
    have hm := List.mem_filter.mp hm
    have := (mem_initFree.mp hm.1).1
    exact (high4M_eq_false (by omega)).mp (by simpa using hm.2)
  rw [← hlow'] at h159
  match low, h159 with
  | p0 :: p1 :: p2 :: low, h159 =>
  have hsub : ∀ p ∈ [p0, p1, p2], p ∈ initFree ff k.npages := fun p hm =>
    h1.perm.mem_iff.mp (List.mem_append_left high (List.mem_append_left low hm))
  have href : ∀ p ∈ [p0, p1, p2], t₁.ref p = 0 := fun p hm => by rw [h1.ref, (hp p (hsub p hm)).2]
  have hpv : t₁.pagesVa = k.pagesVa := h1.pagesVa.trans hl.pagesVa
  apply (checkPageAlloc_returns hr1 href ?_).bind
  · intro _ t₂ h2
    have hr2 : Ready D (p0 :: p1 :: p2 :: low) high t₂ := h2.ready hr1 hr1.lowPages
    apply (checkPage_returns hr2 fun p hm => by rw [h2.ref, href p hm]).bind
    intro _ w h3
    have hres := (h1.trans h2).trans h3
    have hr3 : Ready D (p2 :: p1 :: p0 :: low) high w := h3.ready hr2 fun p hm => hr2.lowPages p (by
      simp only [List.mem_cons] at hm ⊢
      rcases hm with h | h | h | h
      · exact Or.inr (Or.inr (Or.inl h))
      · exact Or.inr (Or.inl h)
      · exact Or.inl h
      · exact Or.inr (Or.inr (Or.inr h)))
    have hms : MapStart D w (p2 :: p1 :: p0 :: (low ++ high)) := by
      refine ⟨hr3.npages_le, hr3.kernPgdir, hr3.chain, hr3.lt, ?_, hr3.dir_free, ?_, hr3.zero⟩
      · have := hr3.dir_low
        omega
      · rw [hres.mem D hr.dir_free, hl.mem, hd.uvpt]
    have hwp : w.pagesVa = k.pagesVa := hres.pagesVa.trans hl.pagesVa
    have hwb : w.bootstack = k.bootstack := hres.bootstack.trans hl.bootstack
    rcases hms.maps (by rw [hwp, hd.pagesVa_aligned]) (by rw [hwb, hbs]) with ⟨e, _, h66 | hlt | hlt⟩ | ⟨x, free, new, hx, hm⟩
    · simp only [List.length_cons, List.length_append] at h66 h159
      omega
    · exact absurd (hwp ▸ hlt) hd.pagesVa_ge
    · exact absurd (hwb ▸ hlt) hbk
    · exact .of_forget (by rw [forget_memInitMap, hx]; rfl) ⟨t, w, _, free, new, ht₀, hres, hms, hx, hm⟩
  · rw [hpv]
    rintro h0
    exact hd.pagesVa_ge (by rw [h0]; decide)

end Check

end Jos
