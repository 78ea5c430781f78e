import Jos.Inv
import Jos.Walk

/-!
# The page operations under the invariant

In a state that satisfies `Inv`, no operation panics, the state it leaves is one
of the states of `PmapLemmas`, and that state satisfies `Inv` again.
-/

namespace Jos

open IntrusiveList

/-- From `s` to `k`, page `T` becomes the page table of `D` for `va`, with `w`, which refers to `p`, as its only entry. -/
structure NewTable (D T p : Nat) (va w : Word) (s k : Kern) : Prop where
  npages : k.npages = s.npages
  ref : ∀ q, k.ref q = if q = p then s.ref p + 1 else if q = T then s.ref T + 1 else s.ref q
  dir : ∀ i, k.mem D i = if i = pdx va then page2pa T ||| tableFlags else s.mem D i
  entry : ∀ j < nptentries, k.mem T j = if j = ptx va then w else 0
  other : ∀ q, q ≠ D → q ≠ T → ∀ i, k.mem q i = s.mem q i

namespace Inv

variable {dirs ix : Finset Nat} {held : Nat → Nat} {s s' : Kern} {free free' : List Nat} {D T p q : Nat} {va : Word}

/-! ## The allocator -/

theorem alloc_nil (h : Inv dirs ix held s []) (f : Word) : s.pageAlloc f = .ok (none, s) :=
  Kern.pageAlloc_none h.head f

theorem alloc_cons (h : Inv dirs ix held s (p :: free)) (f : Word) :
    s.pageAlloc f = .ok (some p, if f = 0 then s.pop p else (s.pop p).clear p) := by
  have hn := h.free_lt p List.mem_cons_self
  have := h.npages_le
  split
  · rename_i hf; subst hf; exact Kern.pageAlloc_zero h.head
  · rename_i hf; exact Kern.pageAlloc_clear h.head hf hn (by omega)

theorem alloc_inv (h : Inv dirs ix held s (p :: free)) (f : Word) :
    Inv dirs ix held (if f = 0 then s.pop p else (s.pop p).clear p) free := by
  split
  · exact h.pop
  · exact h.pop.clear (fun hm => h.dir_free p hm List.mem_cons_self)
      (fun hm => h.table_free hm List.mem_cons_self)

theorem free_ok (h : Inv dirs ix held s free) (hp : p < s.npages) (hf : p ∉ free) (hr : s.ref p = 0) :
    s.pageFree p = .ok (s.push p) :=
  Kern.pageFree_ok hr (h.link_none p hp hf)

theorem decref_ok (h : Inv dirs ix held s free) (hp : p < s.npages) (hf : p ∉ free) :
    s.pageDecref p = .ok (s.dropRef p) :=
  Kern.pageDecref_eq fun _ => h.link_none p hp hf

/-! ## `pgdir_walk` -/

theorem wf (h : Inv dirs ix held s free) : Wf dirs ix s free :=
  ⟨h.npages_le, h.chain, h.free_lt, h.dir_lt, h.dir_free, h.table_lt, h.table_dir, fun _ hT => h.table_free hT,
    h.table_inj⟩

section
variable (h : Inv dirs ix held s free) (hD : D ∈ dirs) (hi : pdx va ∈ ix)
include h hD hi

theorem walkTo_inv (hw : WalkTo D va s free T s' free') :
    Inv dirs ix held s' free' ∧ target (s'.mem D (pdx va)) = some T ∧ s'.npages = s.npages := by
  refine ⟨?_, (h.wf.walkTo_wf hD hi hw).2⟩
  rcases hw with ⟨_, rfl, rfl⟩ | ⟨ht, rfl, rfl⟩
  · exact h
  · exact h.addTable hD hi ht

/-! ## `page_remove` -/

omit hi in
theorem remove_absent (ht : target (s.mem D (pdx va)) = none) : s.pageRemove (kva D) va = .ok s :=
  Kern.pageRemove_absent (h.dir_lt D hD) ht

theorem remove_mapped (ht : target (s.mem D (pdx va)) = some T) (hq : target (s.mem T (ptx va)) = some q) :
    s.pageRemove (kva D) va = .ok (((s.dropRef q).write T (ptx va) 0).invlpg va) ∧
    Inv dirs ix held (((s.dropRef q).write T (ptx va) 0).invlpg va) (dropFree s free q) := by
  have hT := table_of_dir hD hi ht
  have hqn := h.entry_lt T hT _ (ptx_lt va) q hq
  refine ⟨?_, h.unmap hT (ptx_lt va) hq va⟩
  exact Kern.pageRemove_table (h.dir_lt D hD) ht (h.table_lt T hT) (h.table_lt' hT) (target_eq_some.mp hq).2 hqn
    (h.decref_ok hqn (h.entry_free hT (ptx_lt va) hq))

end

/-! ## `page_insert` -/

section
variable {perm : Word} (h : Inv dirs ix held s free) (hD : D ∈ dirs) (hi : pdx va ∈ ix) (hp : p < s.npages)
  (hf : p ∉ free) (hperm : perm.toNat < 4096) (hd : p ∈ dirs → 0 < held p)
include h hD hi hp hf hperm hd

omit hD hi hf hd in
theorem target_perm' : target (page2pa p ||| perm ||| pteP) = some p := by
  have := h.npages_le
  exact target_pte (by omega) hperm

theorem insert_fresh (hw : WalkTo D va s free T s' free') (ho : target (s'.mem T (ptx va)) = none)
    (hr : (s.ref p).toNat < 65535)
    (he : s.pgdirWalk (kva D) va true = .ok (some (entry (kva T) (ptx va)), s')) :
    s.pageInsert (kva D) p va perm =
      .ok (0, (s'.setRef p (s'.ref p + 1)).write T (ptx va) (page2pa p ||| perm ||| pteP)) ∧
    Inv dirs ix held ((s'.setRef p (s'.ref p + 1)).write T (ptx va) (page2pa p ||| perm ||| pteP)) free' := by
  obtain ⟨h', ht, hn⟩ := h.walkTo_inv hD hi hw
  have hT := table_of_dir hD hi ht
  refine ⟨Kern.pageInsert_fresh he (h'.table_lt' hT) ho, ?_⟩
  exact h'.map hT (ptx_lt va) ho (h.target_perm' hp hperm) (hn ▸ hp) (Wf.walkTo_free hw hf)
    (by rw [Wf.walkTo_ref hw hf]; exact hr) hd

omit hf in
theorem insert_replace (ht : target (s.mem D (pdx va)) = some T) (hq : target (s.mem T (ptx va)) = some q)
    (hf : p ∉ free) (hr : (s.ref p).toNat < 65535) :
    let t := (((s.setRef p (s.ref p + 1)).dropRef q).write T (ptx va) 0).invlpg va
    s.pageInsert (kva D) p va perm = .ok (0, t.write T (ptx va) (page2pa p ||| perm ||| pteP)) ∧
    Inv dirs ix held (t.write T (ptx va) (page2pa p ||| perm ||| pteP))
      (dropFree (s.setRef p (s.ref p + 1)) free q) := by
  intro t
  have h1 := h.incRef hp hf hr
  have hT := table_of_dir hD hi ht
  obtain ⟨hrem, h2⟩ := h1.remove_mapped hD hi ht hq
  refine ⟨?_, ?_⟩
  · exact Kern.pageInsert_replace (h.wf.walk_present hD hi ht true) (h.table_lt' hT)
      (by rw [hq]; exact Option.some_ne_none q) hrem
  · have hm : t.mem = s.mem.set T (ptx va) 0 := by
      rw [Kern.invlpg_mem, Kern.write_mem, Kern.dropRef_mem, Kern.setRef_mem]
    refine h2.write_some ?_ (ptx_lt va) ?_ (h.target_perm' hp hperm) ?_ hd
    · rw [hm, tables_set_entry (h.table_dir T hT)]; exact hT
    · rw [hm, Mem.set_self, target_zero]
    · simp only [Kern.invlpg_npages, Kern.write_npages, Kern.dropRef_npages, Kern.setRef_npages]
      exact hp

omit hf in
/-- `page_insert` of the page already mapped there: the count goes up and down
again, also from its largest value, and never reaches zero. -/
theorem insert_same (ht : target (s.mem D (pdx va)) = some T) (hq : target (s.mem T (ptx va)) = some p) :
    let t := ((s.write T (ptx va) 0).invlpg va).write T (ptx va) (page2pa p ||| perm ||| pteP)
    s.pageInsert (kva D) p va perm = .ok (0, t) ∧ Inv dirs ix held t free := by
  intro t
  have hT := table_of_dir hD hi ht
  have hTl := h.table_lt' hT
  have hf : p ∉ free := h.entry_free hT (ptx_lt va) hq
  have hne : s.ref p ≠ 0 := fun e => by
    have h1 := h.refs_eq p hp
    have h2 := refs_entry hT (ptx_lt va) hq
    rw [e] at h1
    simp only [BitVec.ofNat_eq_ofNat, BitVec.toNat_ofNat, Nat.zero_mod] at h1
    omega
  have hback : (s.setRef p (s.ref p + 1)).dropRef p = s := by
    have hsub : s.ref p + 1 - 1 = s.ref p := BitVec.add_sub_cancel ..
    rw [Kern.dropRef, Kern.setRef_ref, Function.update_self, hsub, if_neg hne]
    simp only [Kern.setRef, Function.update_idem, Function.update_self]
    rw [show ({ s.pages p with ppRef := s.ref p } : PageInfo) = s.pages p from rfl, Function.update_eq_self]
  have hdec : (s.setRef p (s.ref p + 1)).pageDecref p = .ok s := by
    rw [Kern.pageDecref_eq fun _ => by rw [Kern.setRef_link]; exact h.link_none p hp hf, hback]
  refine ⟨?_, ?_⟩
  · exact Kern.pageInsert_replace (h.wf.walk_present hD hi ht true) hTl
      (by rw [hq]; exact Option.some_ne_none p)
      (Kern.pageRemove_table (s := s.setRef p (s.ref p + 1)) (h.dir_lt D hD) ht (h.table_lt T hT) hTl
        (target_eq_some.mp hq).2 hp hdec)
  · have h1 := (h.write_none hT (ptx_lt va) hq target_zero).invlpg va
    refine h1.write_some ?_ (ptx_lt va) ?_ (h.target_perm' hp hperm) hp hd
    · rw [Kern.invlpg_mem, Kern.write_mem, tables_set_entry (h.table_dir T hT)]; exact hT
    · rw [Kern.invlpg_mem, Kern.write_mem, Mem.set_self, target_zero]

/-- The ways through `page_insert`. Where a page is mapped already, it is removed first, in a
state `t` with its entry cleared and flushed. -/
theorem insert_cases (hr : (s.ref p).toNat < 65535 ∨ mapped s.mem D va = some p ∨
      (target (s.mem D (pdx va)) = none ∧ free = [])) :
    (target (s.mem D (pdx va)) = none ∧ free = [] ∧ s.pageInsert (kva D) p va perm = .ok (-eNoMem, s)) ∨
    (∃ (T : Nat) (s' : Kern) (free' : List Nat), WalkTo D va s free T s' free' ∧
      target (s'.mem T (ptx va)) = none ∧
      s.pageInsert (kva D) p va perm =
        .ok (0, (s'.setRef p (s'.ref p + 1)).write T (ptx va) (page2pa p ||| perm ||| pteP)) ∧
      Inv dirs ix held ((s'.setRef p (s'.ref p + 1)).write T (ptx va) (page2pa p ||| perm ||| pteP)) free') ∨
    (∃ (T q : Nat) (t : Kern) (free' : List Nat), target (s.mem D (pdx va)) = some T ∧ target (s.mem T (ptx va)) = some q ∧
      t.mem = s.mem.set T (ptx va) 0 ∧ t.log = s.log ++ [.store T (ptx va) 0, .invlpg va] ∧ t.npages = s.npages ∧
      s.pageInsert (kva D) p va perm = .ok (0, t.write T (ptx va) (page2pa p ||| perm ||| pteP)) ∧
      Inv dirs ix held (t.write T (ptx va) (page2pa p ||| perm ||| pteP)) free') := by
  rcases h.wf.walk_create hD hi with ⟨ht, hnil, he⟩ | ⟨T, s', free', hw, he⟩
  · exact Or.inl ⟨ht, hnil, Kern.pageInsert_noMem he⟩
  right
  obtain ⟨h', ht, hn⟩ := h.walkTo_inv hD hi hw
  by_cases hsame : mapped s.mem D va = some p
  · obtain ⟨U, hU, hq⟩ := mapped_eq_some.mp hsame
    obtain ⟨he', hi'⟩ := h.insert_same hD hi hp hperm hd hU hq
    refine Or.inr ⟨U, p, (s.write U (ptx va) 0).invlpg va, free, hU, hq, rfl, ?_, rfl, he', hi'⟩
    rw [Kern.invlpg_log, Kern.write_log, List.append_assoc]
    rfl
  · have hlt : (s.ref p).toNat < 65535 := by
      rcases hr with hr | hr | ⟨hr, hnil⟩
      · exact hr
      · exact absurd hr hsame
      · rcases hw with ⟨ht, _, _⟩ | ⟨_, hc, _⟩
        · rw [hr] at ht; cases ht
        · rw [hnil] at hc; cases hc
    cases ho : target (s'.mem T (ptx va)) with
    | none =>
      obtain ⟨he', hi'⟩ := h.insert_fresh hD hi hp hf hperm hd hw ho hlt he
      exact Or.inl ⟨T, s', free', hw, ho, he', hi'⟩
    | some q =>
      have hm := h.wf.walkTo_mapped hD hi hw
      rw [mapped_eq ht, ho, eq_comm, mapped_eq_some] at hm
      obtain ⟨U, hU, hq⟩ := hm
      obtain ⟨he', hi'⟩ := h.insert_replace hD hi hp hperm hd hU hq hf hlt
      refine Or.inr ⟨U, q, _, _, hU, hq, ?_, ?_, ?_, he', hi'⟩
      · rw [Kern.invlpg_mem, Kern.write_mem, Kern.dropRef_mem, Kern.setRef_mem]
      · rw [Kern.invlpg_log, Kern.write_log, Kern.dropRef_log, Kern.setRef_log, List.append_assoc]
        rfl
      · simp only [Kern.invlpg_npages, Kern.write_npages, Kern.dropRef_npages, Kern.setRef_npages]

/-- **`page_insert`** keeps the invariant, unless a new mapping finds the 16-bit
count of the page at its largest value. -/
theorem insert (hr : (s.ref p).toNat < 65535 ∨ mapped s.mem D va = some p ∨
      (target (s.mem D (pdx va)) = none ∧ free = [])) :
    ∃ r s' free', s.pageInsert (kva D) p va perm = .ok (r, s') ∧ Inv dirs ix held s' free' ∧ s'.npages = s.npages := by
  rcases h.insert_cases hD hi hp hf hperm hd hr with
    ⟨_, _, he⟩ | ⟨T, s', free', hw, _, he, hi'⟩ | ⟨T, q, t, free', _, _, _, _, hn, he, hi'⟩
  · exact ⟨_, s, free, he, h, rfl⟩
  · exact ⟨_, _, free', he, hi', (h.walkTo_inv hD hi hw).2.2⟩
  · exact ⟨_, _, free', he, hi', hn⟩

end

theorem insert_new (p : Nat) (va perm : Word) (h : Inv dirs ix held s (T :: free)) (hD : D ∈ dirs) (hi : pdx va ∈ ix) (hp : p < s.npages)
    (hf : p ∉ T :: free) (hperm : perm.toNat < 4096) (hd : p ∈ dirs → 0 < held p) (hr : (s.ref p).toNat < 65535)
    (ho : target (s.mem D (pdx va)) = none) :
    ∃ k, s.pageInsert (kva D) p va perm = .ok (0, k) ∧ Inv dirs ix held k free ∧
      NewTable D T p va (page2pa p ||| perm ||| pteP) s k := by
  have hn := h.free_lt T List.mem_cons_self
  have hT : T < 65536 := by
    have := h.npages_le
    omega
  have hne : D ≠ T := fun e => h.dir_free D hD (e ▸ List.mem_cons_self)
  have hpT : p ≠ T := fun e => hf (e ▸ List.mem_cons_self)
  obtain ⟨he, h'⟩ := h.insert_fresh hD hi hp hf hperm hd (Or.inr ⟨ho, rfl, rfl⟩)
    (by rw [Kern.addTable_entry hne (ptx_lt va), target_zero]) hr (Kern.pgdirWalk_create (h.dir_lt D hD) ho h.head hn hT)
  refine ⟨s.insertNew D T p va (page2pa p ||| perm ||| pteP), he, h', Kern.insertNew_npages, Kern.insertNew_ref hpT,
    Kern.insertNew_dir hne, fun j hj => ?_, fun q hq hqT i => ?_⟩
  · rw [Kern.insertNew, Kern.write_mem]
    by_cases hjv : j = ptx va
    · subst hjv
      rw [Mem.set_self, if_pos rfl]
    · rw [Mem.set_of_index_ne _ hjv, if_neg hjv, Kern.setRef_mem, Kern.addTable_entry hne hj]
  · rw [Kern.insertNew_mem, Mem.set_of_page_ne _ hqT, Mem.set_of_page_ne _ hq, Mem.clear_of_ne _ hqT]

/-- The references of the other directories are as they were. -/
theorem refs_new {w : Word} {k : Kern} {x : Nat} (h : Inv dirs ix held s (T :: free)) (hD : D ∈ dirs) (hk : NewTable D T p va w s k) :
    refs k.mem (dirs.erase D) ix x = refs s.mem (dirs.erase D) ix x := by
  refine refs_congr (fun E hE i _ => ?_) (fun U hU j _ => ?_) x
  · obtain ⟨hne, hE⟩ := Finset.mem_erase.mp hE
    rw [hk.other E hne fun e => h.dir_free E hE (e ▸ List.mem_cons_self)]
  · have hU' := tables_mono (Finset.erase_subset D dirs) hU
    rw [hk.other U (fun e => h.table_dir U hU' (e ▸ hD)) fun e => h.table_free hU' (e ▸ List.mem_cons_self)]

/-- The first free page is taken and mapped at `va`, through a page table made of the second one. -/
theorem insert_taken (va perm : Word) (h : Inv dirs ix held s (p :: T :: free)) (hD : D ∈ dirs) (hi : pdx va ∈ ix)
    (hperm : perm.toNat < 4096) (ho : target (s.mem D (pdx va)) = none) :
    ∃ k, (s.pop p).pageInsert (kva D) p va perm = .ok (0, k) ∧ Inv dirs ix held k free ∧
      NewTable D T p va (page2pa p ||| perm ||| pteP) s k ∧ k.ref p = 1 := by
  have hpd : p ∉ dirs := fun hm => h.dir_free p hm List.mem_cons_self
  have hr : (s.pop p).ref p = 0 := by rw [Kern.pop_ref, h.free_ref p List.mem_cons_self]
  obtain ⟨k, he, h', hk⟩ := h.pop.insert_new p va perm hD hi (h.free_lt p List.mem_cons_self)
    (List.nodup_cons.mp h.chain.nodup).1 hperm (fun hm => absurd hm hpd) (by rw [hr]; decide) (by rw [Kern.pop_mem, ho])
  refine ⟨k, he, h', ⟨hk.npages, fun q => ?_, hk.dir, hk.entry, hk.other⟩, ?_⟩
  · rw [hk.ref, Kern.pop_ref]
  · rw [hk.ref, if_pos rfl, hr]
    rfl

/-- `page_insert` where there is a table or a page for one: what is mapped then, and no count goes up by more than one. -/
theorem insert_mapped (perm : Word) (h : Inv dirs ix held s free) (hD : D ∈ dirs) (hi : pdx va ∈ ix) (hp : p < s.npages) (hf : p ∉ free)
    (hperm : perm.toNat < 4096) (hd : p ∈ dirs → 0 < held p) (hr : (s.ref p).toNat < 65535)
    (ht : free ≠ [] ∨ pte s.mem D va ≠ none) :
    ∃ k free', s.pageInsert (kva D) p va perm = .ok (0, k) ∧ Inv dirs ix held k free' ∧ k.npages = s.npages ∧
      pte k.mem D va = some (page2pa p ||| perm ||| pteP) ∧
      ∀ x < s.npages, x ∉ free → (k.ref x).toNat ≤ (s.ref x).toNat + 1 := by
  have hpres := present_of_target (h.target_perm' hp hperm)
  rcases h.insert_cases hD hi hp hf hperm hd (Or.inl hr) with
    ⟨hn, hnil, _⟩ | ⟨T, s', free', hw, _, he, h'⟩ | ⟨T, q, t, free', hT, _, hm, _, hn, he, h'⟩
  · exact (ht.resolve_left (not_not_intro hnil) (pte_none hn)).elim
  · have hpte := h.wf.pte_walk_write hD hi hw (page2pa p ||| perm ||| pteP) hD hi
    rw [if_pos ⟨rfl, rfl⟩, hpres] at hpte
    refine ⟨_, free', he, h', (h.walkTo_inv hD hi hw).2.2, hpte, fun x _ hx => ?_⟩
    rw [Kern.write_ref, Kern.setRef_ref, Function.update_apply, Wf.walkTo_ref hw hf, Wf.walkTo_ref hw hx]
    split
    · rename_i hxp
      rw [hxp, BitVec.toNat_add]
      exact Nat.mod_le _ _
    · exact Nat.le_add_right _ _
  · have hpte := h.wf.pte_write hD hi hT (page2pa p ||| perm ||| pteP) hD hi
    rw [if_pos ⟨rfl, rfl⟩, hpres] at hpte
    have hmem : (t.write T (ptx va) (page2pa p ||| perm ||| pteP)).mem =
        s.mem.set T (ptx va) (page2pa p ||| perm ||| pteP) := by rw [Kern.write_mem, hm, Mem.set_set]
    refine ⟨_, free', he, h', hn, hmem ▸ hpte, fun x hx _ => ?_⟩
    have hTm := table_of_dir hD hi hT
    have hk := h'.refs_eq x (by rw [Kern.write_npages, hn]; exact hx)
    have hc := refs_set_entry (h.table_dir T hTm) hTm (ptx_lt va) (page2pa p ||| perm ||| pteP) x
    rw [hk, h.refs_eq x hx, hmem]
    split at hc
    · split at hc <;> omega
    · split at hc <;> omega

end Inv

end Jos
