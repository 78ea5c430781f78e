import Jos.LowMem
import Jos.Lib.IntrusiveList

/-!
# While the free list is stolen

`check_page_alloc` and `check_page` take three pages, hide the rest of the free list and
work with what they took. `Stolen` is what holds all the while: pages come only from the
three, page tables are only made of them and refer only to them, and the rest of the list
is not touched. Every operation the tests use keeps it, whatever it returns.
-/

namespace Jos

namespace Check

open Traced IntrusiveList

/-- Pages in use, with the rest of the free list put aside as `fl`. -/
structure Theft where
  npages : Nat
  dir : Nat
  fl : Option Nat
  rest : List Nat
  pages : Finset Nat
  npages_le : npages ≤ 65536
  dir_low : dir < 1024
  dir_pages : dir ∉ pages
  low : ∀ p ∈ pages, p < 1024
  lt : ∀ p ∈ pages, p < npages
  pages_rest : ∀ p ∈ pages, p ∉ rest

/-- Between two steps of the tests: only the entries `S` of the directory may be in use. -/
structure Stolen (g : Theft) (S : Finset Nat) (s : Kern) : Prop where
  npages : s.npages = g.npages
  kernPgdir : s.kernPgdir = kva g.dir
  rest : Chain s.link g.fl g.rest
  head : ∀ p, s.pageFreeList = some p → p ∈ g.pages
  link : ∀ p ∈ g.pages, ∀ q, s.link p = some q → q ∈ g.pages
  zero : ∀ i < 1024, i ≠ pdx uvpt → i ∉ S → s.mem g.dir i = 0
  table : ∀ i < 1024, i ≠ pdx uvpt → ∀ T, target (s.mem g.dir i) = some T →
    T ∈ g.pages ∧ ∀ j < 1024, pgnum (s.mem T j) ∈ g.pages
  /-- An empty table refers to page 0. -/
  null : S = ∅ ∨ 0 ∈ g.pages
  idle : 0 ∉ g.pages → s.link 0 = none

variable {g : Theft} {S S' : Finset Nat} {s t : Kern} {p q i j T : Nat} {v va perm f : Word}

theorem Theft.ne (g : Theft) (hp : p ∈ g.pages) : p ≠ g.dir := fun e => g.dir_pages (e ▸ hp)

namespace Stolen

theorem mono (h : Stolen g S s) (hs : S ⊆ S') (h0 : 0 ∈ g.pages) : Stolen g S' s :=
  ⟨h.npages, h.kernPgdir, h.rest, h.head, h.link, fun i hi hu hm => h.zero i hi hu fun hS => hm (hs hS), h.table, Or.inr h0, h.idle⟩

theorem target_none (h : Stolen g ∅ s) (hi : i < 1024) (hu : i ≠ pdx uvpt) : target (s.mem g.dir i) = none := by
  rw [h.zero i hi hu (Finset.notMem_empty i), target_zero]

theorem frame (h : Stolen g S s) (hn : t.npages = s.npages) (hk : t.kernPgdir = s.kernPgdir) (hm : t.mem = s.mem)
    (hr : Chain t.link g.fl g.rest) (hh : ∀ p, t.pageFreeList = some p → p ∈ g.pages)
    (hl : ∀ p ∈ g.pages, ∀ q, t.link p = some q → q ∈ g.pages) (hi : 0 ∉ g.pages → t.link 0 = s.link 0) : Stolen g S t :=
  ⟨hn.trans h.npages, hk.trans h.kernPgdir, hr, hh, hl, hm ▸ h.zero, hm ▸ h.table, h.null,
    fun h0 => (hi h0).trans (h.idle h0)⟩

theorem frame_mem (h : Stolen g S s) (hn : t.npages = s.npages) (hk : t.kernPgdir = s.kernPgdir)
    (hl : t.link = s.link) (hf : t.pageFreeList = s.pageFreeList) (hd : ∀ i, t.mem g.dir i = s.mem g.dir i)
    (ht : ∀ i < 1024, i ≠ pdx uvpt → ∀ T, target (s.mem g.dir i) = some T → ∀ j < 1024, pgnum (t.mem T j) ∈ g.pages) :
    Stolen g S t := by
  refine ⟨hn.trans h.npages, hk.trans h.kernPgdir, hl ▸ h.rest, hf ▸ h.head, hl ▸ h.link, fun i hi hu hS => ?_,
    fun i hi hu T hT => ?_, h.null, hl ▸ h.idle⟩
  · rw [hd]
    exact h.zero i hi hu hS
  · rw [hd] at hT
    exact ⟨(h.table i hi hu T hT).1, ht i hi hu T hT⟩

theorem setRef (h : Stolen g S s) (p : Nat) (r : BitVec 16) : Stolen g S (s.setRef p r) :=
  h.frame rfl rfl rfl (by rw [Kern.setRef_link]; exact h.rest) h.head (by rw [Kern.setRef_link]; exact h.link)
    fun _ => by rw [Kern.setRef_link]

theorem pop (h : Stolen g S s) (hf : s.pageFreeList = some p) : Stolen g S (s.pop p) := by
  have hp := h.head p hf
  refine h.frame rfl rfl rfl ?_ ?_ ?_ fun h0 => ?_
  · rw [Kern.pop_link]
    exact h.rest.update (g.pages_rest p hp) none
  · exact h.link p hp
  · intro q hq r hr
    rw [Kern.pop_link] at hr
    by_cases hqp : q = p
    · rw [hqp, Function.update_self] at hr
      cases hr
    · rw [Function.update_of_ne hqp] at hr
      exact h.link q hq r hr
  · rw [Kern.pop_link, Function.update_of_ne fun e : 0 = p => h0 (e ▸ hp)]

theorem push (h : Stolen g S s) (hp : p ∈ g.pages) : Stolen g S (s.push p) := by
  refine h.frame rfl rfl rfl ?_ ?_ ?_ fun h0 => ?_
  · rw [Kern.push_link]
    exact h.rest.update (g.pages_rest p hp) s.pageFreeList
  · intro q hq
    obtain rfl : p = q := Option.some.inj hq
    exact hp
  · intro q hq r hr
    rw [Kern.push_link] at hr
    by_cases hqp : q = p
    · rw [hqp, Function.update_self] at hr
      exact h.head r hr
    · rw [Function.update_of_ne hqp] at hr
      exact h.link q hq r hr
  · rw [Kern.push_link, Function.update_of_ne fun e : 0 = p => h0 (e ▸ hp)]

theorem clear (h : Stolen g S s) (hp : p ∈ g.pages) : Stolen g S (s.clear p) := by
  refine h.frame_mem rfl rfl rfl rfl ?_ ?_
  · exact fun i => Mem.clear_of_ne _ (g.ne hp).symm i
  · intro i hi hu T hT j hj
    rw [Kern.clear_mem]
    by_cases hTp : T = p
    · rw [hTp, Mem.clear_self _ hj]
      rcases h.null with rfl | h0
      · rw [h.target_none hi hu] at hT
        cases hT
      · exact h0
    · rw [Mem.clear_of_ne _ hTp]
      exact (h.table i hi hu T hT).2 j hj

theorem write (h : Stolen g S s) (hT : T ∈ g.pages) (hv : pgnum v ∈ g.pages) : Stolen g S (s.write T j v) := by
  refine h.frame_mem rfl rfl rfl rfl ?_ ?_
  · exact fun i => Mem.set_of_page_ne _ (g.ne hT).symm v i
  · intro i hi hu U hU k hk
    rw [Kern.write_mem]
    by_cases he : (U, k) = (T, j)
    · cases he
      rw [Mem.set_self]
      exact hv
    · rw [Mem.set_of_ne _ he]
      exact (h.table i hi hu U hU).2 k hk

theorem fill (h : Stolen g ∅ s) (hp : p ∈ g.pages) (n : Nat) (v : Word) : Stolen g ∅ (s.fill p n v) := by
  refine h.frame_mem rfl rfl rfl rfl ?_ ?_
  · intro i
    exact if_neg fun e => g.ne hp e.1.symm
  · intro i hi hu T hT
    rw [h.target_none hi hu] at hT
    cases hT

theorem erase (h : Stolen g S s) (i : Nat) : Stolen g (S.erase i) (s.write g.dir i 0) := by
  have hne : ∀ T ∈ g.pages, ∀ j, (s.write g.dir i 0).mem T j = s.mem T j := fun T hT j =>
    Mem.set_of_page_ne _ (g.ne hT) 0 j
  refine ⟨h.npages, h.kernPgdir, h.rest, h.head, h.link, fun k hk hu hS => ?_, fun k hk hu T hT => ?_, ?_, h.idle⟩
  · rw [Kern.write_mem]
    by_cases hki : k = i
    · rw [hki, Mem.set_self]
    · rw [Mem.set_of_index_ne _ hki]
      exact h.zero k hk hu fun hm => hS (Finset.mem_erase.mpr ⟨hki, hm⟩)
  · rw [Kern.write_mem] at hT
    by_cases hki : k = i
    · rw [hki, Mem.set_self, target_zero] at hT
      cases hT
    · rw [Mem.set_of_index_ne _ hki] at hT
      obtain ⟨h1, h2⟩ := h.table k hk hu T hT
      refine ⟨h1, fun j hj => ?_⟩
      rw [hne T h1]
      exact h2 j hj
  · rcases h.null with rfl | h0
    · exact Or.inl (Finset.erase_empty i)
    · exact Or.inr h0

theorem addTable (h : Stolen g S s) (hf : s.pageFreeList = some T) (hS : pdx va ∈ S) : Stolen g S (s.addTable g.dir T va) := by
  have hT := h.head T hf
  have h0 : 0 ∈ g.pages := h.null.resolve_left fun e => by
    rw [e] at hS
    cases hS
  have h' := ((h.pop hf).clear hT).setRef T (s.ref T + 1)
  have hne := g.ne hT
  have ht : target (page2pa T ||| tableFlags) = some T := target_table (by have := g.low T hT; omega)
  refine ⟨h'.npages, h'.kernPgdir, h'.rest, h'.head, h'.link, fun i hi hu hiS => ?_, fun i hi hu U hU => ?_, Or.inr h0, h'.idle⟩
  · have hiv : i ≠ pdx va := fun e => hiS (e ▸ hS)
    unfold Kern.addTable
    rw [Kern.write_mem, Mem.set_of_index_ne _ hiv]
    exact h'.zero i hi hu hiS
  · have hmem : ∀ U ∈ g.pages, ∀ j, (s.addTable g.dir T va).mem U j = (((s.pop T).clear T).setRef T (s.ref T + 1)).mem U j :=
      fun U hU j => Mem.set_of_page_ne _ (g.ne hU) _ j
    by_cases hiv : i = pdx va
    · unfold Kern.addTable at hU
      rw [Kern.write_mem, hiv, Mem.set_self, ht] at hU
      obtain rfl : T = U := Option.some.inj hU
      refine ⟨hT, fun j hj => ?_⟩
      rw [hmem T hT, Kern.setRef_mem, Kern.clear_mem, Mem.clear_self _ hj]
      exact h0
    · unfold Kern.addTable at hU
      rw [Kern.write_mem, Mem.set_of_index_ne _ hiv] at hU
      obtain ⟨h1, h2⟩ := h'.table i hi hu U hU
      refine ⟨h1, fun j hj => ?_⟩
      rw [hmem U h1]
      exact h2 j hj

end Stolen

/-! ## The operations -/

/-- What `pgdir_walk` returns: NULL, or a pointer into one of the pages. -/
def Theft.Slot (g : Theft) (va : Word) (r : Option Word) : Prop := ∀ a, r = some a → ∃ T ∈ g.pages, a = entry (kva T) (ptx va)

theorem safe_alloc (f : Word) : Safe (Stolen g S) (pageAlloc f) fun r => ∀ p, r = some p → p ∈ g.pages := by
  intro s h
  cases hf : s.pageFreeList with
  | none => exact .of_ok (alloc_none hf f) (by simp) ⟨by simp, h⟩
  | some p =>
    have hp := h.head p hf
    have hlow := g.low p hp
    by_cases h0 : f = 0
    · subst h0
      exact .of_ok (alloc_zero hf) (by simpa [low_alloc] using hlow) ⟨by simpa using hp, h.pop hf⟩
    · refine .of_ok (alloc_clear hf h0 (h.npages ▸ g.lt p hp) (by omega)) ?_ ⟨by simpa using hp, (h.pop hf).clear hp⟩
      simpa [low_alloc] using ⟨low_kva hlow, hlow⟩

theorem safe_free (hp : p ∈ g.pages) : Safe (Stolen g S) (pageFree p) fun _ => True := by
  apply safe_step
  intro s t h ht
  unfold Kern.pageFree at ht
  split at ht
  · cases ht
    exact h.push hp
  · cases ht

theorem safe_decref (hp : p ∈ g.pages) : Safe (Stolen g S) (step (·.pageDecref p)) fun _ => True := by
  apply safe_step
  intro s t h ht
  have h' := h.setRef p (s.ref p - 1)
  unfold Kern.pageDecref Kern.pageFree at ht
  dsimp only at ht
  split at ht
  · split at ht
    · cases ht
      exact h'.push hp
    · cases ht
  · cases ht
    exact h'

theorem walk_fine (h : Stolen g S s) (hu : pdx va ≠ pdx uvpt) {create : Bool} (hS : create → pdx va ∈ S) :
    Fine (pgdirWalk (kva g.dir) va create) s fun r t => Stolen g S t ∧
      ∀ a, r = some a → ∃ T, target (t.mem g.dir (pdx va)) = some T ∧ T ∈ g.pages ∧ a = entry (kva T) (ptx va) := by
  have hD := g.dir_low
  have hle : Event.Low (.access (entry (kva g.dir) (pdx va))) := low_entry hD (pdx_lt va)
  cases ht : target (s.mem g.dir (pdx va)) with
  | some T =>
    have hT := (h.table _ (pdx_lt va) hu T ht).1
    refine .of_ok (walk_present (by omega) ht (h.npages ▸ g.lt T hT)) (by simpa using hle) ⟨h, fun a ha => ?_⟩
    exact ⟨T, ht, hT, (Option.some.inj ha).symm⟩
  | none =>
    cases create with
    | false => exact .of_ok (walk_absent (by omega) ht) (by simpa using hle) ⟨h, by simp⟩
    | true =>
      cases hf : s.pageFreeList with
      | none => exact .of_ok (walk_noMem (by omega) ht hf) (by simpa using hle) ⟨h, by simp⟩
      | some T =>
        have hT := h.head T hf
        have hlow := g.low T hT
        refine .of_ok (walk_create (by omega) ht hf (h.npages ▸ g.lt T hT) (by omega)) ?_
          ⟨h.addTable hf (hS rfl), fun a ha => ?_⟩
        · simpa [low_alloc] using ⟨hle, low_kva hlow, hlow, hle⟩
        · refine ⟨T, ?_, hT, (Option.some.inj ha).symm⟩
          unfold Kern.addTable
          rw [Kern.write_mem, Mem.set_self, target_table (by omega)]

theorem safe_walk (hu : pdx va ≠ pdx uvpt) {create : Bool} (hS : create → pdx va ∈ S) :
    Safe (Stolen g S) (pgdirWalk (kva g.dir) va create) (g.Slot va) := fun _ h =>
  (walk_fine h hu hS).mono fun _ _ ht => ⟨fun a ha => by
    obtain ⟨T, _, hT, he⟩ := ht.2 a ha
    exact ⟨T, hT, he⟩, ht.1⟩

theorem safe_lookup (hu : pdx va ≠ pdx uvpt) : Safe (Stolen g S) (pageLookup (kva g.dir) va) fun r =>
    ∀ q a, r = some (q, a) → q ∈ g.pages ∧ ∃ T ∈ g.pages, a = entry (kva T) (ptx va) := by
  intro s h
  unfold pageLookup
  apply (walk_fine h hu (by simp)).bind
  intro r t ⟨ht, hr⟩
  cases r with
  | none => exact Ends.pure ⟨by simp, ht⟩
  | some a =>
    obtain ⟨T, hT, hg, rfl⟩ := hr a rfl
    have hlow := g.low T hg
    apply Ends.bind_run (load_run (by omega) (ptx_lt va)) (by simpa using low_entry hlow (ptx_lt va))
    apply (fine_read (Q := fun q u => q ∈ g.pages ∧ u = t) ?_).bind
    · intro q u ⟨hq, hu'⟩
      refine Ends.pure ⟨fun q' a' he => ?_, hu' ▸ ht⟩
      obtain ⟨rfl, rfl⟩ := Prod.mk.injEq .. ▸ Option.some.inj he
      exact ⟨hq, T, hg, rfl⟩
    · intro q hq
      unfold Kern.pa2page at hq
      rw [pgnum_pteAddr] at hq
      split at hq
      · cases hq
      · cases hq
        exact ⟨(ht.table _ (pdx_lt va) hu T hT).2 _ (ptx_lt va), rfl⟩

theorem safe_storeSlot (hT : T ∈ g.pages) (hv : pgnum v ∈ g.pages) :
    Safe (Stolen g S) (store (entry (kva T) (ptx va)) v) fun _ => True :=
  safe_store (g.low T hT) (ptx_lt va) fun _ h => h.write hT hv

theorem safe_remove (hu : pdx va ≠ pdx uvpt) (h0 : 0 ∈ g.pages) :
    Safe (Stolen g S) (pageRemove (kva g.dir) va) fun _ => True := by
  unfold pageRemove
  apply (safe_lookup hu).bind
  intro r hr
  cases r with
  | none => exact Keeps.pure trivial
  | some x =>
    obtain ⟨q, a⟩ := x
    obtain ⟨hq, T, hT, rfl⟩ := hr q a rfl
    apply (safe_decref hq).bind
    intro _ _
    apply (safe_storeSlot hT (show pgnum 0 ∈ g.pages from h0)).bind
    intro _ _
    exact safe_modify fun s h => h.frame rfl rfl rfl h.rest h.head h.link fun _ => rfl

theorem safe_insert (hu : pdx va ≠ pdx uvpt) (hS : pdx va ∈ S) (h0 : 0 ∈ g.pages) (hp : p ∈ g.pages)
    (hperm : perm.toNat < 4096) : Safe (Stolen g S) (pageInsert (kva g.dir) p va perm) fun _ => True := by
  have hv : pgnum (page2pa p ||| perm ||| pteP) = p := by
    have := g.low p hp
    rw [BitVec.or_assoc, pgnum_or_flags (page2pa_aligned p) (or_flags_lt hperm (by decide)), pgnum_page2pa (by omega)]
  unfold pageInsert
  apply (safe_walk hu fun _ => hS).bind
  intro r hr
  cases r with
  | none => exact Keeps.pure trivial
  | some a =>
    obtain ⟨T, hT, rfl⟩ := hr a rfl
    dsimp only
    apply (safe_modify fun s h => h.setRef p (s.ref p + 1)).bind
    intro _ _
    apply (safe_load (g.low T hT) (ptx_lt va)).bind
    intro pte _
    split
    · apply (safe_remove hu h0).bind
      intro _ _
      apply (safe_storeSlot hT (by rw [hv]; exact hp)).bind
      intro _ _
      exact Keeps.pure trivial
    · apply (safe_storeSlot hT (by rw [hv]; exact hp)).bind
      intro _ _
      exact Keeps.pure trivial

theorem safe_checkVa2pa (hu : pdx va ≠ pdx uvpt) : Safe (Stolen g S) (checkVa2pa (kva g.dir) va) fun _ => True := by
  intro s h
  unfold checkVa2pa
  apply Ends.bind_run (load_run (by have := g.dir_low; omega) (pdx_lt va)) (by simpa using low_entry g.dir_low (pdx_lt va))
  split
  · exact Ends.pure ⟨trivial, h⟩
  · rename_i hP
    have hT := (h.table _ (pdx_lt va) hu _ (target_eq_some.mpr ⟨hP, rfl⟩)).1
    apply (safe_kaddr s h).bind
    intro a t ⟨ha, ht⟩
    rw [ha]
    apply (safe_load (g.low _ hT) (ptx_lt va) t ht).bind
    intro pte u ⟨_, hu'⟩
    split
    · exact Ends.pure ⟨trivial, hu'⟩
    · exact Ends.pure ⟨trivial, hu'⟩

/-! ## The tests -/

theorem safe_noFreeMemory : Safe (Stolen g S) noFreeMemory fun _ => True := by
  unfold noFreeMemory
  apply (safe_alloc 0).bind
  intro _ _
  exact safe_assert.mono fun _ _ => trivial

theorem safe_allocated (f : Word) (x : String) : Safe (Stolen g S) (allocated f x) (· ∈ g.pages) := by
  unfold allocated
  apply (safe_alloc f).bind
  intro r hr
  cases r with
  | none => exact Keeps.stop (by simp)
  | some p => exact Keeps.pure (hr p rfl)

structure Theft.Three (g : Theft) (x : Nat × Nat × Nat) : Prop where
  fst : x.1 ∈ g.pages
  snd : x.2.1 ∈ g.pages
  trd : x.2.2 ∈ g.pages
  ne₁ : x.2.1 ≠ x.1
  ne₂ : x.2.2 ≠ x.2.1
  ne₃ : x.2.2 ≠ x.1

theorem safe_allocThree : Safe (Stolen g S) allocThree g.Three := by
  unfold allocThree
  apply (safe_allocated 0 _).bind
  intro p0 h0
  apply (safe_allocated 0 _).bind
  intro p1 h1
  apply (safe_allocated 0 _).bind
  intro p2 h2
  apply safe_assert.bind
  intro _ h10
  apply safe_assert.bind
  intro _ ⟨h21, h20⟩
  exact Keeps.pure ⟨h0, h1, h2, h10, h21, h20⟩

theorem safe_freeThree {p0 p1 p2 : Nat} (h0 : p0 ∈ g.pages) (h1 : p1 ∈ g.pages) (h2 : p2 ∈ g.pages) :
    Safe (Stolen g S) (freeThree p0 p1 p2) fun _ => True := by
  unfold freeThree
  apply (safe_free h0).bind
  intro _ _
  apply (safe_free h1).bind
  intro _ _
  exact safe_free h2

theorem low_byte {k : Nat} (hp : p < 1024) (hk : k < 4096) : Event.Low (.access (kva p + BitVec.ofNat 32 k)) := by
  rw [low_access, BitVec.toNat_add, kva_toNat (by omega), BitVec.toNat_ofNat, kernbase_toNat, ptsize_toNat]
  omega

theorem safe_loadByte {I : Kern → Prop} {k : Nat} (hp : p < 1024) (hk : k < 4096) :
    Safe I (loadByte (kva p + BitVec.ofNat 32 k)) fun _ => True := by
  unfold loadByte
  apply (safe_read (R := fun _ => True) fun _ _ _ => trivial).bind
  intro b _ s hs
  exact Ends.bind_run (emit_run _ s) (by simpa using low_byte hp hk) (Ends.pure ⟨trivial, hs⟩)

theorem safe_checkStolen {p0 p1 p2 : Nat} (h0 : p0 ∈ g.pages) (h1 : p1 ∈ g.pages) (h2 : p2 ∈ g.pages) :
    Safe (Stolen g ∅) (checkStolen p0 p1 p2) g.Three := by
  unfold checkStolen
  apply safe_noFreeMemory.bind
  intro _ _
  apply (safe_freeThree h0 h1 h2).bind
  intro _ _
  apply safe_allocThree.bind
  intro ⟨q0, q1, q2⟩ hq
  dsimp only
  apply safe_noFreeMemory.bind
  intro _ _
  apply safe_page2kva.bind
  intro a ha
  rw [ha]
  apply (safe_memset (g.low q0 hq.fst) fun s h => h.fill hq.fst _ _).bind
  intro _ _
  apply (safe_free hq.fst).bind
  intro _ _
  apply (safe_allocated allocZero _).bind
  intro q hqm
  apply safe_assert.bind
  intro _ _
  apply safe_page2kva.bind
  intro c hc
  rw [hc]
  apply (Keeps.forM fun k hk => ?_).bind
  · intro _ _
    exact Keeps.pure hq
  · apply (safe_loadByte (g.low q hqm) (List.mem_range.mp hk)).bind
    intro _ _
    exact safe_assert.mono fun _ _ => trivial

section
variable {p0 p1 p2 : Nat} (h0 : 0 ∈ g.pages) (hp0 : p0 ∈ g.pages) (hp1 : p1 ∈ g.pages) (hp2 : p2 ∈ g.pages)

theorem safe_assertVa2pa {x : String} (hu : pdx va ≠ pdx uvpt) (a : Word) :
    Safe (Stolen g S) (assertVa2pa (kva g.dir) va a x) fun _ => True := by
  unfold assertVa2pa
  apply (safe_checkVa2pa hu).bind
  intro _ _
  exact safe_assert.mono fun _ _ => trivial

theorem safe_assertRef {x : String} {r : BitVec 16} : Safe (Stolen g S) (assertRef p r x) fun _ => True := by
  unfold assertRef
  apply safe_get.bind
  intro _ _
  exact safe_assert.mono fun _ _ => trivial

theorem safe_walkEntry (hu : pdx va ≠ pdx uvpt) : Safe (Stolen g S) (walkEntry (kva g.dir) va) fun _ => True := by
  unfold walkEntry
  apply (safe_walk hu (by simp)).bind
  intro r hr
  cases r with
  | some a =>
    obtain ⟨T, hT, rfl⟩ := hr a rfl
    exact safe_load (g.low T hT) (ptx_lt va)
  | none =>
    intro s _
    have he : s.load 0 = .error (.fault 0) := if_pos (by decide)
    exact .of_error (bind_error (read_error he)) (by simp) (by simp)

theorem safe_dirEntry (hi : i < 1024) : Safe (Stolen g S) (load (entry (kva g.dir) i)) fun _ => True :=
  safe_load g.dir_low hi

include h0

theorem safe_inserted {x : String} (hu : pdx va ≠ pdx uvpt) (hS : pdx va ∈ S) (hp : p ∈ g.pages) (hperm : perm.toNat < 4096) :
    Safe (Stolen g S) (inserted (kva g.dir) p va perm x) fun _ => True := by
  unfold inserted
  apply (safe_insert hu hS h0 hp hperm).bind
  intro _ _
  exact safe_assert.mono fun _ _ => trivial

theorem safe_notInserted {x : String} (hu : pdx va ≠ pdx uvpt) (hS : pdx va ∈ S) (hp : p ∈ g.pages)
    (hperm : perm.toNat < 4096) : Safe (Stolen g S) (notInserted (kva g.dir) p va perm x) fun _ => True := by
  unfold notInserted
  apply (safe_insert hu hS h0 hp hperm).bind
  intro _ _
  exact safe_assert.mono fun _ _ => trivial

include hp0 hp1 hp2

theorem safe_checkInsert : Safe (Stolen g {0, 1}) (checkInsert (kva g.dir) p0 p1 p2) fun _ => True := by
  unfold checkInsert
  apply safe_noFreeMemory.bind
  intro _ _
  apply (safe_lookup (by decide)).bind
  intro _ _
  apply safe_assert.bind
  intro _ _
  apply (safe_notInserted h0 (by decide) (by decide) hp1 (by decide)).bind
  intro _ _
  apply (safe_free hp0).bind
  intro _ _
  apply (safe_inserted h0 (by decide) (by decide) hp1 (by decide)).bind
  intro _ _
  apply (safe_dirEntry (by decide)).bind
  intro _ _
  apply safe_assert.bind
  intro _ _
  apply (safe_assertVa2pa (by decide) _).bind
  intro _ _
  apply safe_assertRef.bind
  intro _ _
  apply safe_assertRef.bind
  intro _ _
  apply (safe_inserted h0 (by decide) (by decide) hp2 (by decide)).bind
  intro _ _
  apply (safe_assertVa2pa (by decide) _).bind
  intro _ _
  apply safe_assertRef.bind
  intro _ _
  apply safe_noFreeMemory.bind
  intro _ _
  apply (safe_inserted h0 (by decide) (by decide) hp2 (by decide)).bind
  intro _ _
  apply (safe_assertVa2pa (by decide) _).bind
  intro _ _
  apply safe_assertRef.bind
  intro _ _
  exact safe_noFreeMemory

theorem safe_checkRemap : Safe (Stolen g {0, 1}) (checkRemap (kva g.dir) p0 p1 p2) fun _ => True := by
  unfold checkRemap
  apply (safe_dirEntry (pdx_lt _)).bind
  intro _ _
  apply safe_kaddr.bind
  intro _ _
  apply (safe_walk (by decide) (by simp)).bind
  intro _ _
  apply safe_assert.bind
  intro _ _
  apply (safe_inserted h0 (by decide) (by decide) hp2 (by decide)).bind
  intro _ _
  apply (safe_assertVa2pa (by decide) _).bind
  intro _ _
  apply safe_assertRef.bind
  intro _ _
  apply (safe_walkEntry (by decide)).bind
  intro _ _
  apply safe_assert.bind
  intro _ _
  apply (safe_dirEntry (by decide)).bind
  intro _ _
  apply safe_assert.bind
  intro _ _
  apply (safe_inserted h0 (by decide) (by decide) hp2 (by decide)).bind
  intro _ _
  apply (safe_walkEntry (by decide)).bind
  intro _ _
  apply safe_assert.bind
  intro _ _
  apply (safe_walkEntry (by decide)).bind
  intro _ _
  apply safe_assert.bind
  intro _ _
  apply (safe_notInserted h0 (by decide) (by decide) hp0 (by decide)).bind
  intro _ _
  apply (safe_inserted h0 (by decide) (by decide) hp1 (by decide)).bind
  intro _ _
  apply (safe_walkEntry (by decide)).bind
  intro _ _
  apply safe_assert.bind
  intro _ _
  apply (safe_assertVa2pa (by decide) _).bind
  intro _ _
  apply (safe_assertVa2pa (by decide) _).bind
  intro _ _
  apply safe_assertRef.bind
  intro _ _
  exact safe_assertRef

omit hp0 hp2 in
theorem safe_checkRemove : Safe (Stolen g {0, 1}) (checkRemove (kva g.dir) p1 p2) fun _ => True := by
  unfold checkRemove
  apply (safe_alloc 0).bind
  intro _ _
  apply safe_assert.bind
  intro _ _
  apply (safe_remove (by decide) h0).bind
  intro _ _
  apply (safe_assertVa2pa (by decide) _).bind
  intro _ _
  apply (safe_assertVa2pa (by decide) _).bind
  intro _ _
  apply safe_assertRef.bind
  intro _ _
  apply safe_assertRef.bind
  intro _ _
  apply (safe_inserted h0 (by decide) (by decide) hp1 (by decide)).bind
  intro _ _
  apply safe_get.bind
  intro _ _
  apply safe_assert.bind
  intro _ _
  apply safe_assert.bind
  intro _ _
  apply (safe_remove (by decide) h0).bind
  intro _ _
  apply (safe_assertVa2pa (by decide) _).bind
  intro _ _
  apply (safe_assertVa2pa (by decide) _).bind
  intro _ _
  apply safe_assertRef.bind
  intro _ _
  apply safe_assertRef.bind
  intro _ _
  apply (safe_alloc 0).bind
  intro _ _
  apply safe_assert.bind
  intro _ _
  exact safe_noFreeMemory

/-! Clearing an entry of the directory leaves the invariant for one entry less. -/

omit h0 hp0 hp1 hp2 in
theorem erase_fine (hi : i < 1024) (h : Stolen g S s) :
    Fine (store (entry (kva g.dir) i) 0) s fun _ t => Stolen g (S.erase i) t :=
  .of_ok (store_run (by have := g.dir_low; omega) hi) (by simpa using low_entry g.dir_low hi) (h.erase i)

omit h0 hp0 hp1 hp2 in
theorem takeTable_fine (hi : i < 1024) (p : Nat) (h : Stolen g S s) :
    Fine (takeTable (kva g.dir) i p) s fun _ t => Stolen g (S.erase i) t := by
  unfold takeTable
  apply (erase_fine hi h).bind
  intro _ t ht
  exact Ends.modify (ht.setRef p 0)

omit hp1 hp2 in
theorem checkTables_fine (h : Stolen g {1} s) : Fine (checkTables (kva g.dir) p0) s fun _ t => Stolen g ∅ t := by
  have hva : pdx (pgsize * 1024 + pgsize) = 1 := rfl
  unfold checkTables
  apply (safe_free hp0 s h).bind
  intro _ t ⟨_, h⟩
  dsimp only
  apply (safe_walk (by decide) (fun _ => by decide) t h).bind
  intro _ t ⟨_, h⟩
  apply (safe_dirEntry (pdx_lt _) t h).bind
  intro _ t ⟨_, h⟩
  apply (safe_kaddr t h).bind
  intro _ t ⟨_, h⟩
  apply (safe_assert t h).bind
  intro _ t ⟨_, h⟩
  apply (takeTable_fine (pdx_lt _) p0 h).bind
  intro _ t h
  rw [hva, show ({1} : Finset Nat).erase 1 = ∅ from rfl] at h
  apply (safe_page2kva t h).bind
  intro a t ⟨ha, h⟩
  rw [ha]
  apply (safe_memset (g.low p0 hp0) (fun s h => h.fill hp0 _ _) t h).bind
  intro _ t ⟨_, h⟩
  apply (safe_free hp0 t h).bind
  intro _ t ⟨_, h⟩
  have h : Stolen g {0} t := h.mono (Finset.empty_subset _) h0
  apply (safe_walk (by decide) (fun _ => by decide) t h).bind
  intro _ t ⟨_, h⟩
  apply (safe_page2kva t h).bind
  intro a t ⟨ha, h⟩
  rw [ha]
  apply (Keeps.forM (fun k hk => ?_) t h).bind
  · intro _ t ⟨_, h⟩
    exact (takeTable_fine (by decide) p0 h).mono fun _ _ h => h
  · apply (safe_load (g.low p0 hp0) (List.mem_range.mp hk)).bind
    intro _ _
    exact safe_assert.mono fun _ _ => trivial

end

end Check

end Jos
