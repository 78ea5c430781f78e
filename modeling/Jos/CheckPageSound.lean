import Jos.Scene

/-!
# `check_page` passes

Whatever three pages it takes: each line of the test, from one scene to the next.
-/

namespace Jos

namespace Check

open Traced

variable {s₀ s t : Kern} {D p0 p1 p2 p q i : Nat} {r : Nat → BitVec 16} {e : Nat → Word} {va perm a : Word} {head : Option Nat}
  {tab : Option Nat} {c c0 c1 c2 : BitVec 16} {x : String} {P : Kern → Prop}

namespace Scene

/-! ## The lines of the test -/

theorem noFree (h : Scene s₀ D p0 none r tab e s) : Returns noFreeMemory s fun _ t => Scene s₀ D p0 none r tab e t := by
  unfold noFreeMemory
  apply (returns_run (alloc_none h.head 0) (Q := fun q t => q = none ∧ t = s) ⟨rfl, rfl⟩).bind
  rintro _ _ ⟨rfl, rfl⟩
  exact returns_assert rfl h

theorem alloc (h : Scene s₀ D p0 (some p) r tab e s) (hl : s₀.link p = none) :
    Returns (pageAlloc 0) s fun q t => q = some p ∧ Scene s₀ D p0 none r tab e t :=
  returns_run (alloc_zero h.head) ⟨rfl, h.pop hl⟩

theorem free (h : Scene s₀ D p0 none r tab e s) (hr : r p = 0) (hl : s₀.link p = none) :
    Returns (pageFree p) s fun _ t => Scene s₀ D p0 (some p) r tab e t :=
  returns_step (Kern.pageFree_ok (by rw [h.ref, hr]) (by rw [h.link, hl])) (h.push hl)

theorem assertRef (h : Scene s₀ D p0 head r tab e s) (hr : r p = c) :
    Returns (assertRef p c x) s fun _ t => Scene s₀ D p0 head r tab e t := by
  unfold Check.assertRef
  apply (Returns.get (Q := fun u t => u = s ∧ t = s) ⟨rfl, rfl⟩).bind
  rintro _ _ ⟨rfl, rfl⟩
  exact returns_assert (by rw [h.ref, hr]) h

theorem setFreeList (h : Scene s₀ D p0 head r tab e s) (fl : Option Nat) :
    Returns (setFreeList fl) s fun _ t => Scene s₀ D p0 fl r tab e t :=
  Returns.modify (h.of_head fl)

theorem setCount (h : Scene s₀ D p0 head r tab e s) (p : Nat) (c : BitVec 16) :
    Returns (Traced.modify (·.setRef p c) : Checked Unit) s fun _ t => Scene s₀ D p0 head (Function.update r p c) tab e t :=
  Returns.modify (h.setRef p c)

theorem inserted (h : ∃ t, s.pageInsert (kva D) p va perm = .ok (0, t) ∧ P t) :
    Returns (inserted (kva D) p va perm x) s fun _ t => P t := by
  obtain ⟨t, ht, hp⟩ := h
  unfold Check.inserted
  apply (Returns.of_forget (Q := fun n u => n = 0 ∧ u = t) (by rw [forget_pageInsert, ht]; rfl) ⟨rfl, rfl⟩).bind
  rintro _ _ ⟨rfl, rfl⟩
  exact returns_assert rfl hp

theorem loadDir (T : Trio s₀ D p0 p1 p2) (h : Scene s₀ D p0 head r (some i) e s) (hi : i < 1024) :
    Returns (load (entry (kva D) i)) s fun v t => v = page2pa p0 ||| tableFlags ∧ Scene s₀ D p0 head r (some i) e t :=
  returns_run (load_run T.dir_lt hi) ⟨by rw [h.dir, if_pos rfl], h⟩

section
variable (T : Trio s₀ D p0 p1 p2)
include T

theorem notInserted (h : Scene s₀ D p0 none r tab e s) (ht : tab ≠ some (pdx va)) (h0 : s₀.mem D (pdx va) = 0) :
    Returns (notInserted (kva D) p va perm x) s fun _ t => Scene s₀ D p0 none r tab e t := by
  have hw := Kern.pgdirWalk_noMem T.dir_lt (h.walk_absent ht h0) h.head
  unfold Check.notInserted
  apply (Returns.of_forget (Q := fun n u => n = -eNoMem ∧ u = s)
    (by rw [forget_pageInsert, Kern.pageInsert_noMem hw]; rfl) ⟨rfl, rfl⟩).bind
  rintro _ _ ⟨rfl, rfl⟩
  exact returns_assert (by decide) h

theorem lookup_absent (h : Scene s₀ D p0 head r tab e s) (ht : tab ≠ some (pdx va)) (h0 : s₀.mem D (pdx va) = 0) :
    Returns (pageLookup (kva D) va) s fun n t => n = none ∧ Scene s₀ D p0 head r tab e t :=
  .of_forget (by rw [forget_pageLookup, Kern.pageLookup_absent T.dir_lt (h.walk_absent ht h0)]; rfl) ⟨rfl, h⟩

theorem va2pa (h : Scene s₀ D p0 head r (some i) e s) (hi : pdx va = i)
    (ha : (if target (e (ptx va)) = none then ~~~0 else pteAddr (e (ptx va))) = a) :
    Returns (assertVa2pa (kva D) va a x) s fun _ t => Scene s₀ D p0 head r (some i) e t := by
  subst hi
  have hc := Kern.checkVa2pa_table T.dir_lt (h.target_dir T) (h.same.npages ▸ T.lt p0 (by simp)) (T.lt' (by simp))
  rw [h.table (by simp) _ (ptx_lt va), ha] at hc
  unfold assertVa2pa
  apply (Returns.of_forget (Q := fun n u => n = a ∧ u = s) (by rw [forget_checkVa2pa, hc]; rfl) ⟨rfl, rfl⟩).bind
  rintro _ _ ⟨rfl, rfl⟩
  exact returns_assert rfl h

theorem va2pa_mapped (h : Scene s₀ D p0 head r (some i) e s) (hi : pdx va = i) (he : target (e (ptx va)) = some q) :
    Returns (assertVa2pa (kva D) va (page2pa q) x) s fun _ t => Scene s₀ D p0 head r (some i) e t := by
  apply h.va2pa T hi
  rw [he, if_neg (by simp), pteAddr_eq_page2pa, (target_eq_some.mp he).2]

theorem va2pa_unmapped (h : Scene s₀ D p0 head r (some i) e s) (hi : pdx va = i) (he : target (e (ptx va)) = none) :
    Returns (assertVa2pa (kva D) va (~~~0) x) s fun _ t => Scene s₀ D p0 head r (some i) e t := by
  apply h.va2pa T hi
  rw [if_pos he]

theorem walkTo (h : Scene s₀ D p0 head r (some i) e s) (hi : pdx va = i) (create : Bool) :
    Returns (pgdirWalk (kva D) va create) s fun n t =>
      n = some (entry (kva p0) (ptx va)) ∧ Scene s₀ D p0 head r (some i) e t :=
  .of_forget (by rw [forget_pgdirWalk, h.walk T hi create]; rfl) ⟨rfl, h⟩

theorem walkMade (h : Scene s₀ D p0 (some p0) r none e s) (h0 : s₀.mem D (pdx va) = 0) :
    Returns (pgdirWalk (kva D) va true) s fun n t => n = some (entry (kva p0) (ptx va)) ∧
      Scene s₀ D p0 none (Function.update r p0 (r p0 + 1)) (some (pdx va)) (fun _ => 0) t := by
  obtain ⟨hw, hs⟩ := h.walk_create T h0
  exact .of_forget (by rw [forget_pgdirWalk, hw]; rfl) ⟨rfl, hs⟩

theorem walkEntry (h : Scene s₀ D p0 head r (some i) e s) (hi : pdx va = i) :
    Returns (walkEntry (kva D) va) s fun v t => v = e (ptx va) ∧ Scene s₀ D p0 head r (some i) e t := by
  unfold Check.walkEntry
  apply (h.walkTo T hi false).bind
  rintro _ t ⟨rfl, ht⟩
  rw [Option.getD_some]
  exact returns_run (load_run (T.lt' (by simp)) (ptx_lt va)) ⟨ht.table (by simp) _ (ptx_lt va), ht⟩

theorem removed (h : Scene s₀ D p0 none r (some i) e s) (hi : pdx va = i) (hq : pgnum (e (ptx va)) = q)
    (hm : q ∈ [p0, p1, p2]) : Returns (pageRemove (kva D) va) s fun _ t => Scene s₀ D p0
      (if r q - 1 = 0 then some q else none) (Function.update r q (r q - 1)) (some i) (Function.update e (ptx va) 0) t := by
  obtain ⟨t, ht, hs⟩ := h.remove T hi hq hm
  exact .of_forget (by rw [forget_pageRemove, ht]; rfl) hs

theorem kaddr (h : Scene s₀ D p0 head r tab e s) : Returns (read (·.kaddr (pteAddr (page2pa p0 ||| tableFlags)))) s
    fun a t => a = kva p0 ∧ Scene s₀ D p0 head r tab e t := by
  have hp := T.lt' (p := p0) (by simp)
  refine returns_read ?_ ⟨rfl, h⟩
  rw [pteAddr_eq_page2pa, (target_eq_some.mp (target_table (by omega))).2]
  exact Kern.kaddr_page2pa s (by omega) (h.same.npages ▸ T.lt p0 (by simp))

theorem untable (h : Scene s₀ D p0 head r (some i) e s) (hi : i < 1024) (h0 : s₀.mem D i = 0) :
    Returns (store (entry (kva D) i) 0) s fun _ t => Scene s₀ D p0 head r none e t := by
  refine returns_run (store_run T.dir_lt hi) ⟨h.same.trans rfl, h.head, h.link, h.ref, fun j => ?_, by simp, fun q hqD hq0 => ?_⟩
  · rw [Kern.write_mem, if_neg (by simp)]
    by_cases hj : j = i
    · rw [hj, Mem.set_self, h0]
    · rw [Mem.set_of_index_ne _ hj, h.dir, if_neg fun he => hj (Option.some.inj he).symm]
  · rw [Kern.write_mem, ← h.other q hqD hq0]
    funext j
    exact Mem.set_of_page_ne _ hqD 0 j

end

end Scene

/-! ## The parts of the test -/

theorem pdx_pgsize : pdx pgsize = 0 := by decide

theorem ptx_pgsize : ptx pgsize = 1 := by decide

theorem pteW_lt : pteW.toNat < 4096 := by decide

abbrev Scene.Low (s₀ : Kern) (D p0 p1 p2 : Nat) (head : Option Nat) (c0 c1 c2 : BitVec 16) (e0 e1 : Word) : Kern → Prop :=
  Scene s₀ D p0 head (counts s₀ p0 p1 p2 c0 c1 c2) (some 0) (entries e0 e1)

theorem pteAddr_table (T : Trio s₀ D p0 p1 p2) : pteAddr (page2pa p0 ||| tableFlags) = page2pa p0 := by
  have := T.lt' (p := p0) (by simp)
  rw [pteAddr_eq_page2pa, (target_eq_some.mp (target_table (by omega))).2]

section
variable (T : Trio s₀ D p0 p1 p2)
include T

theorem checkInsert_returns (h0 : s₀.mem D 0 = 0) (h : Scene s₀ D p0 none (counts s₀ p0 p1 p2 0 0 0) none e s) :
    Returns (checkInsert (kva D) p0 p1 p2) s fun _ t =>
      Scene.Low s₀ D p0 p1 p2 none 1 1 1 (pteFor p1 pteW) (pteFor p2 pteW) t := by
  have m0 : p0 ∈ [p0, p1, p2] := by simp
  have m1 : p1 ∈ [p0, p1, p2] := by simp
  have m2 : p2 ∈ [p0, p1, p2] := by simp
  have t1 : target (pteFor p1 pteW) = some p1 := target_pteFor (T.lt' m1) pteW_lt
  have t2 : target (pteFor p2 pteW) = some p2 := target_pteFor (T.lt' m2) pteW_lt
  have h0 : s₀.mem D (pdx 0) = 0 := h0
  unfold checkInsert
  apply h.noFree.bind
  intro _ s h
  apply (h.lookup_absent T (by simp) h0).bind
  rintro _ s ⟨rfl, h⟩
  refine assert_then rfl ?_
  apply (h.notInserted T (by simp) h0).bind
  intro _ s h
  apply (h.free T.counts₀ (T.link p0 m0)).bind
  intro _ s h
  -- `p0` becomes a table and `p1` its first page
  obtain ⟨hw, h⟩ := h.walk_create T h0
  apply (Scene.inserted (h.insert_fresh T hw rfl)).bind
  intro _ s h
  rw [T.counts₀, T.update₀, T.counts₁, T.update₁, entries_clear, show ptx 0 = 0 from rfl, entries_update_zero,
    show pdx 0 = 0 from rfl] at h
  apply (h.loadDir T (by decide)).bind
  rintro _ s ⟨rfl, h⟩
  refine assert_then (pteAddr_table T) ?_
  apply (h.va2pa_mapped T rfl (by rw [show ptx 0 = 0 from rfl, entries_zero, t1])).bind
  intro _ s h
  apply (h.assertRef T.counts₁).bind
  intro _ s h
  apply (h.assertRef T.counts₀).bind
  intro _ s h
  -- `p2` is inserted next to it, twice
  have hw := h.walk T pdx_pgsize true
  apply (Scene.inserted (h.insert_fresh T hw (by rw [ptx_pgsize, entries_one, target_zero]))).bind
  intro _ s h
  rw [Trio.counts₂, Trio.update₂, ptx_pgsize, entries_update_one] at h
  apply (h.va2pa_mapped T pdx_pgsize (by rw [ptx_pgsize, entries_one, t2])).bind
  intro _ s h
  apply (h.assertRef (Trio.counts₂ ..)).bind
  intro _ s h
  apply h.noFree.bind
  intro _ s h
  apply (Scene.inserted (h.insert_again T pdx_pgsize (by rw [ptx_pgsize, entries_one, t2]) m2
    (by rw [Trio.counts₂]; decide))).bind
  intro _ s h
  rw [ptx_pgsize, entries_update_one] at h
  apply (h.va2pa_mapped T pdx_pgsize (by rw [ptx_pgsize, entries_one, t2])).bind
  intro _ s h
  apply (h.assertRef (Trio.counts₂ ..)).bind
  intro _ s h
  exact h.noFree

theorem checkRemap_returns (hz : s₀.mem D 1 = 0)
    (h : Scene.Low s₀ D p0 p1 p2 none 1 1 1 (pteFor p1 pteW) (pteFor p2 pteW) s) :
    Returns (checkRemap (kva D) p0 p1 p2) s fun _ t =>
      Scene.Low s₀ D p0 p1 p2 (some p2) 1 2 0 (pteFor p1 pteW) (pteFor p1 pteW) t := by
  have m1 : p1 ∈ [p0, p1, p2] := by simp
  have m2 : p2 ∈ [p0, p1, p2] := by simp
  have hf : (pteW ||| pteU).toNat < 4096 := by decide
  have t1 : target (pteFor p1 pteW) = some p1 := target_pteFor (T.lt' m1) pteW_lt
  have t2 : ∀ f : Word, f.toNat < 4096 → target (pteFor p2 f) = some p2 := fun f hf => target_pteFor (T.lt' m2) hf
  unfold checkRemap
  rw [pdx_pgsize, ptx_pgsize]
  apply (h.loadDir T (by decide)).bind
  rintro _ s ⟨rfl, h⟩
  apply (h.kaddr T).bind
  rintro _ s ⟨rfl, h⟩
  apply (h.walkTo T pdx_pgsize false).bind
  rintro _ s ⟨rfl, h⟩
  refine assert_then (by rw [ptx_pgsize]) ?_
  -- more permissions
  apply (Scene.inserted (h.insert_again T pdx_pgsize
    (by rw [ptx_pgsize, entries_one, t2 _ pteW_lt]) m2 (by rw [Trio.counts₂]; decide))).bind
  intro _ s h
  rw [ptx_pgsize, entries_update_one] at h
  apply (h.va2pa_mapped T pdx_pgsize (by rw [ptx_pgsize, entries_one, t2 _ hf])).bind
  intro _ s h
  apply (h.assertRef (Trio.counts₂ ..)).bind
  intro _ s h
  apply (h.walkEntry T pdx_pgsize).bind
  rintro _ s ⟨rfl, h⟩
  refine assert_then (by rw [ptx_pgsize, entries_one, pteFor_and _ _ (by decide)]; decide) ?_
  apply (h.loadDir T (by decide)).bind
  rintro _ s ⟨rfl, h⟩
  refine assert_then (by rw [or_flags_and (page2pa_aligned p0) (by decide)]; decide) ?_
  -- fewer permissions
  apply (Scene.inserted (h.insert_again T pdx_pgsize (by rw [ptx_pgsize, entries_one, t2 _ hf]) m2
    (by rw [Trio.counts₂]; decide))).bind
  intro _ s h
  rw [ptx_pgsize, entries_update_one] at h
  apply (h.walkEntry T pdx_pgsize).bind
  rintro _ s ⟨rfl, h⟩
  refine assert_then (by rw [ptx_pgsize, entries_one, pteFor_and _ _ (by decide)]; decide) ?_
  apply (h.walkEntry T pdx_pgsize).bind
  rintro _ s ⟨rfl, h⟩
  refine assert_then (by rw [ptx_pgsize, entries_one, pteFor_and _ _ (by decide)]; decide) ?_
  apply (h.notInserted T (by decide) (show s₀.mem D (pdx ptsize) = 0 from hz)).bind
  intro _ s h
  -- another page
  apply (Scene.inserted (h.insert_last T pdx_pgsize
    (by rw [ptx_pgsize, entries_one, t2 _ pteW_lt]) m2 (Trio.counts₂ ..) T.ne₂₁)).bind
  intro _ s h
  rw [T.counts₁, T.update₁, Trio.update₂, ptx_pgsize, entries_update_one] at h
  apply (h.walkEntry T pdx_pgsize).bind
  rintro _ s ⟨rfl, h⟩
  refine assert_then (by rw [ptx_pgsize, entries_one, pteFor_and _ _ (by decide)]; decide) ?_
  apply (h.va2pa_mapped T rfl (by rw [show ptx 0 = 0 from rfl, entries_zero, t1])).bind
  intro _ s h
  apply (h.va2pa_mapped T pdx_pgsize (by rw [ptx_pgsize, entries_one, t1])).bind
  intro _ s h
  apply (h.assertRef T.counts₁).bind
  intro _ s h
  exact h.assertRef (Trio.counts₂ ..)

theorem checkRemove_returns (h : Scene.Low s₀ D p0 p1 p2 (some p2) 1 2 0 (pteFor p1 pteW) (pteFor p1 pteW) s) :
    Returns (checkRemove (kva D) p1 p2) s fun _ t => Scene.Low s₀ D p0 p1 p2 none 1 0 0 0 0 t := by
  have m1 : p1 ∈ [p0, p1, p2] := by simp
  have m2 : p2 ∈ [p0, p1, p2] := by simp
  have t1 : ∀ f : Word, f.toNat < 4096 → target (pteFor p1 f) = some p1 := fun f hf => target_pteFor (T.lt' m1) hf
  unfold checkRemove
  apply (h.alloc (T.link p2 m2)).bind
  rintro _ s ⟨rfl, h⟩
  refine assert_then rfl ?_
  apply (h.removed T rfl (by rw [show ptx 0 = 0 from rfl, entries_zero, (target_eq_some.mp (t1 _ pteW_lt)).2])
    m1).bind
  intro _ s h
  rw [T.counts₁, if_neg (by decide), T.update₁, show ptx 0 = 0 from rfl, entries_update_zero] at h
  apply (h.va2pa_unmapped T rfl (by rw [show ptx 0 = 0 from rfl, entries_zero, target_zero])).bind
  intro _ s h
  apply (h.va2pa_mapped T pdx_pgsize (by rw [ptx_pgsize, entries_one, t1 _ pteW_lt])).bind
  intro _ s h
  apply (h.assertRef T.counts₁).bind
  intro _ s h
  apply (h.assertRef (Trio.counts₂ ..)).bind
  intro _ s h
  apply (Scene.inserted (h.insert_again T pdx_pgsize (by rw [ptx_pgsize, entries_one, t1 _ pteW_lt]) m1
    (by rw [T.counts₁]; decide))).bind
  intro _ s h
  rw [ptx_pgsize, entries_update_one] at h
  apply (Returns.get (Q := fun u t => u = s ∧ t = s) ⟨rfl, rfl⟩).bind
  rintro _ _ ⟨rfl, rfl⟩
  refine assert_then (by rw [h.ref, T.counts₁]; decide) ?_
  refine assert_then (by rw [h.link, T.link p1 m1]) ?_
  apply (h.removed T pdx_pgsize (by rw [ptx_pgsize, entries_one, (target_eq_some.mp (t1 0 (by decide))).2]) m1).bind
  intro _ s h
  rw [T.counts₁, if_pos (by decide), T.update₁, ptx_pgsize, entries_update_one] at h
  apply (h.va2pa_unmapped T rfl (by rw [show ptx 0 = 0 from rfl, entries_zero, target_zero])).bind
  intro _ s h
  apply (h.va2pa_unmapped T pdx_pgsize (by rw [ptx_pgsize, entries_one, target_zero])).bind
  intro _ s h
  apply (h.assertRef T.counts₁).bind
  intro _ s h
  apply (h.assertRef (Trio.counts₂ ..)).bind
  intro _ s h
  apply (h.alloc (T.link p1 m1)).bind
  rintro _ s ⟨rfl, h⟩
  refine assert_then rfl ?_
  exact h.noFree

theorem takeTable_returns {i : Nat} (hi : i < 1024) (hz : s₀.mem D i = 0)
    (h : Scene s₀ D p0 none (counts s₀ p0 p1 p2 1 0 0) (some i) e s) :
    Returns (takeTable (kva D) i p0) s fun _ t => Scene s₀ D p0 none (counts s₀ p0 p1 p2 0 0 0) none e t := by
  unfold takeTable
  apply (h.untable T hi hz).bind
  intro _ s h
  have hs := h.setCount p0 0
  rwa [T.update₀] at hs

theorem checkTables_returns (hz : ∀ i < 2, s₀.mem D i = 0)
    (h : Scene s₀ D p0 none (counts s₀ p0 p1 p2 0 0 0) none e s) :
    Returns (checkTables (kva D) p0) s fun _ t => ∃ e, Scene s₀ D p0 none (counts s₀ p0 p1 p2 0 0 0) none e t := by
  have hl := T.link p0 (by simp)
  have hp := T.lt' (p := p0) (by simp)
  have hk : ∀ {head r tab e s}, Scene s₀ D p0 head r tab e s → s.page2kva p0 = .ok (kva p0) := fun hs =>
    Kern.kaddr_page2pa _ (by omega) (hs.same.npages ▸ T.lt p0 (by simp))
  have hva : pdx (pgsize * 1024 + pgsize) = 1 := rfl
  unfold checkTables
  apply (h.free T.counts₀ hl).bind
  intro _ s h
  dsimp only
  rw [hva]
  apply (h.walkMade T (show s₀.mem D (pdx (pgsize * 1024 + pgsize)) = 0 by rw [hva, hz 1 (by decide)])).bind
  rintro _ s ⟨rfl, h⟩
  rw [T.counts₀, T.update₀, hva] at h
  apply (h.loadDir T (by decide)).bind
  rintro _ s ⟨rfl, h⟩
  apply (h.kaddr T).bind
  rintro _ s ⟨rfl, h⟩
  refine assert_then rfl ?_
  apply (takeTable_returns T (by decide) (hz 1 (by decide)) h).bind
  intro _ s h
  -- the page is spoilt before it is made a table again
  apply (returns_read (hk h) (Q := fun a t => a = kva p0 ∧ t = s) ⟨rfl, rfl⟩).bind
  rintro _ _ ⟨rfl, rfl⟩
  apply (returns_run (memset_run hp 0xFF 4096) (Q := fun _ t => Scene s₀ D p0 none _ none _ t)
    (h.fill (T.dir p0 (by simp)) _ _)).bind
  intro _ s h
  apply (h.free T.counts₀ hl).bind
  intro _ s h
  apply (h.walkMade T (show s₀.mem D (pdx 0) = 0 from hz 0 (by decide))).bind
  rintro _ s ⟨_, h⟩
  rw [T.counts₀, T.update₀] at h
  apply (returns_read (hk h) (Q := fun a t => a = kva p0 ∧ t = s) ⟨rfl, rfl⟩).bind
  rintro _ _ ⟨rfl, rfl⟩
  apply (Returns.forM (I := fun l t => (∀ j ∈ l, j < 1024) ∧
    Scene s₀ D p0 none (counts s₀ p0 p1 p2 1 0 0) (some 0) (fun _ => 0) t) ?_ ⟨fun j hj => List.mem_range.mp hj, h⟩).bind
  · rintro _ s ⟨_, h⟩
    exact (takeTable_returns T (by decide) (hz 0 (by decide)) h).mono fun _ _ ht => ⟨_, ht⟩
  · rintro j l s ⟨hl, h⟩
    have hj := hl j List.mem_cons_self
    apply (returns_run (load_run hp hj) (Q := fun v t => v = 0 ∧ t = s) ⟨h.table (by simp) j hj, rfl⟩).bind
    rintro _ _ ⟨rfl, rfl⟩
    exact returns_assert (by decide) ⟨fun k hk => hl k (List.mem_cons_of_mem j hk), h⟩

end

end Check

end Jos
