import Jos.LowMem

/-!
# Three pages and a directory

What `check_page` sees while the free list is stolen: a directory `D`, which one of the
three pages may serve with a table, at most one page to allocate, and the counts. `Scene`
has all of it, with memory elsewhere as it was in the state `s₀` at the theft, so that
each operation has one equation between scenes.
-/

namespace Jos

namespace Check

open Traced

/-! ## Rules for runs that return -/

section
variable {α : Type} {s t : Kern} {c : Prop} [Decidable c] {x : String}

theorem returns_step {f : Kern → Except Panic Kern} {Q : Unit → Kern → Prop} (h : f s = .ok t) (hq : Q () t) :
    Returns (step f) s Q :=
  .of_forget (by rw [forget_step, h]; rfl) hq

theorem returns_read {f : Kern → Except Panic α} {Q : α → Kern → Prop} {a : α} (h : f s = .ok a) (hq : Q a s) :
    Returns (read f) s Q :=
  .of_forget (by rw [forget_read, h]; rfl) hq

theorem returns_require {e : Stop} {Q : Unit → Kern → Prop} (h : c) (hq : Q () s) : Returns (require c e) s Q := by
  unfold require
  rw [if_pos h]
  exact Returns.pure hq

theorem returns_assert {Q : Unit → Kern → Prop} (h : c) (hq : Q () s) : Returns (assert c x) s Q := returns_require h hq

theorem assert_then {β : Type} {f : Unit → Checked β} {R : β → Kern → Prop} (h : c) (hf : Returns (f ()) s R) :
    Returns (assert c x >>= f) s R :=
  (returns_assert (Q := fun _ t => t = s) h rfl).bind fun _ t ht => by
    rw [ht]
    exact hf

theorem returns_run {y : Checked α} {Q : α → Kern → Prop} {tr : List Event} {a : α} (h : y.run s = (tr, .ok (a, t)))
    (hq : Q a t) : Returns y s Q :=
  .of_forget (by rw [forget, h]) hq

end

/-! ## Scenes -/

def Worked (s t : Kern) : Prop :=
  t = { s with pages := t.pages, pageFreeList := t.pageFreeList, mem := t.mem, log := t.log }

theorem Worked.refl (s : Kern) : Worked s s := rfl

theorem Worked.trans {s t u : Kern} (h : Worked s t) (h' : Worked t u) : Worked s u := by
  unfold Worked at *
  rw [h', h]

theorem Worked.npages {s t : Kern} (h : Worked s t) : t.npages = s.npages := by
  rw [h]

theorem Worked.kernPgdir {s t : Kern} (h : Worked s t) : t.kernPgdir = s.kernPgdir := by
  rw [h]

structure Trio (s₀ : Kern) (D p0 p1 p2 : Nat) : Prop where
  npages_le : s₀.npages ≤ 65536
  dir_lt : D < 65536
  lt : ∀ p ∈ [p0, p1, p2], p < s₀.npages
  link : ∀ p ∈ [p0, p1, p2], s₀.link p = none
  dir : ∀ p ∈ [p0, p1, p2], p ≠ D
  nodup : [p0, p1, p2].Nodup

def counts (s₀ : Kern) (p0 p1 p2 : Nat) (c0 c1 c2 : BitVec 16) : Nat → BitVec 16 :=
  Function.update (Function.update (Function.update s₀.ref p0 c0) p1 c1) p2 c2

def entries (e0 e1 : Word) : Nat → Word := Function.update (Function.update (fun _ => 0) 0 e0) 1 e1

def pteFor (pp : Nat) (perm : Word) : Word := page2pa pp ||| perm ||| pteP

/-- `head` is the only page to allocate, the counts are `r`, and entry `i` of the directory
refers to the table `p0`, with the entries `e`, when `tab` is `i`. -/
structure Scene (s₀ : Kern) (D p0 : Nat) (head : Option Nat) (r : Nat → BitVec 16) (tab : Option Nat) (e : Nat → Word)
    (s : Kern) : Prop where
  same : Worked s₀ s
  head : s.pageFreeList = head
  link : s.link = s₀.link
  ref : s.ref = r
  dir : ∀ j, s.mem D j = if tab = some j then page2pa p0 ||| tableFlags else s₀.mem D j
  table : tab ≠ none → ∀ j < 1024, s.mem p0 j = e j
  other : ∀ q, q ≠ D → q ≠ p0 → s.mem q = s₀.mem q

variable {s₀ s t : Kern} {D p0 p1 p2 p q i : Nat} {r : Nat → BitVec 16} {e : Nat → Word} {va perm : Word} {head : Option Nat}
  {tab : Option Nat} {c c0 c1 c2 : BitVec 16} {x : String}

namespace Trio

theorem lt' (h : Trio s₀ D p0 p1 p2) (hp : p ∈ [p0, p1, p2]) : p < 65536 := Nat.lt_of_lt_of_le (h.lt p hp) h.npages_le

theorem ne₁₀ (h : Trio s₀ D p0 p1 p2) : p1 ≠ p0 := fun he => by simpa [he] using h.nodup

theorem ne₂₀ (h : Trio s₀ D p0 p1 p2) : p2 ≠ p0 := fun he => by simpa [he] using h.nodup

theorem ne₂₁ (h : Trio s₀ D p0 p1 p2) : p2 ≠ p1 := fun he => by simpa [he] using h.nodup

theorem counts₀ (h : Trio s₀ D p0 p1 p2) : counts s₀ p0 p1 p2 c0 c1 c2 p0 = c0 := by
  simp [counts, h.ne₁₀.symm, h.ne₂₀.symm]

theorem counts₁ (h : Trio s₀ D p0 p1 p2) : counts s₀ p0 p1 p2 c0 c1 c2 p1 = c1 := by
  simp [counts, h.ne₂₁.symm]

theorem counts₂ (s₀ : Kern) (p0 p1 p2 : Nat) : counts s₀ p0 p1 p2 c0 c1 c2 p2 = c2 := by
  simp [counts]

theorem update₀ (h : Trio s₀ D p0 p1 p2) :
    Function.update (counts s₀ p0 p1 p2 c0 c1 c2) p0 c = counts s₀ p0 p1 p2 c c1 c2 := by
  unfold counts
  rw [Function.update_comm h.ne₂₀, Function.update_comm h.ne₁₀, Function.update_idem]

theorem update₁ (h : Trio s₀ D p0 p1 p2) :
    Function.update (counts s₀ p0 p1 p2 c0 c1 c2) p1 c = counts s₀ p0 p1 p2 c0 c c2 := by
  unfold counts
  rw [Function.update_comm h.ne₂₁, Function.update_idem]

theorem update₂ (s₀ : Kern) (p0 p1 p2 : Nat) :
    Function.update (counts s₀ p0 p1 p2 c0 c1 c2) p2 c = counts s₀ p0 p1 p2 c0 c1 c := Function.update_idem ..

end Trio

theorem entries_zero (e0 e1 : Word) : entries e0 e1 0 = e0 := by simp [entries]

theorem entries_one (e0 e1 : Word) : entries e0 e1 1 = e1 := by simp [entries]

theorem entries_update_zero (e0 e1 v : Word) : Function.update (entries e0 e1) 0 v = entries v e1 := by
  unfold entries
  rw [Function.update_comm (by decide : (0 : Nat) ≠ 1), Function.update_idem, Function.update_comm (by decide)]

theorem entries_update_one (e0 e1 v : Word) : Function.update (entries e0 e1) 1 v = entries e0 v := Function.update_idem ..

theorem entries_clear : (fun _ => 0) = entries 0 0 := by
  funext j
  simp [entries, Function.update_apply]

theorem target_pteFor (hp : p < 65536) (hf : perm.toNat < 4096) : target (pteFor p perm) = some p := target_pte (by omega) hf

theorem pteFor_and (p : Nat) (perm : Word) {f : Word} (hf : f.toNat < 4096) :
    pteFor p perm &&& f = (perm ||| pteP) &&& f := by
  unfold pteFor
  rw [BitVec.or_assoc, or_flags_and (page2pa_aligned p) hf]

namespace Scene

/-! ## Accesses -/

theorem of_head (h : Scene s₀ D p0 head r tab e s) (fl : Option Nat) :
    Scene s₀ D p0 fl r tab e { s with pageFreeList := fl } :=
  ⟨h.same.trans rfl, rfl, h.link, h.ref, h.dir, h.table, h.other⟩

theorem setRef (h : Scene s₀ D p0 head r tab e s) (p : Nat) (c : BitVec 16) :
    Scene s₀ D p0 head (Function.update r p c) tab e (s.setRef p c) where
  same := h.same.trans rfl
  head := h.head
  link := (Kern.setRef_link s p c).trans h.link
  ref := by rw [Kern.setRef_ref, h.ref]
  dir := h.dir
  table := h.table
  other := h.other

theorem pop (h : Scene s₀ D p0 (some p) r tab e s) (hl : s₀.link p = none) : Scene s₀ D p0 none r tab e (s.pop p) where
  same := h.same.trans rfl
  head := by rw [Kern.pop_pageFreeList, h.link, hl]
  link := by rw [Kern.pop_link, h.link, ← hl, Function.update_eq_self]
  ref := (Kern.pop_ref s p).trans h.ref
  dir := h.dir
  table := h.table
  other := h.other

theorem push (h : Scene s₀ D p0 none r tab e s) (hl : s₀.link p = none) : Scene s₀ D p0 (some p) r tab e (s.push p) where
  same := h.same.trans rfl
  head := rfl
  link := by rw [Kern.push_link, h.link, h.head, ← hl, Function.update_eq_self]
  ref := (Kern.push_ref s p).trans h.ref
  dir := h.dir
  table := h.table
  other := h.other

theorem invlpg (h : Scene s₀ D p0 head r tab e s) (va : Word) : Scene s₀ D p0 head r tab e (s.invlpg va) :=
  ⟨h.same.trans rfl, h.head, h.link, h.ref, h.dir, h.table, h.other⟩

theorem dropRef (h : Scene s₀ D p0 none r tab e s) (hq : s₀.link q = none) : Scene s₀ D p0 (if r q - 1 = 0 then some q else none)
    (Function.update r q (r q - 1)) tab e (s.dropRef q) := by
  unfold Kern.dropRef
  rw [h.ref]
  by_cases hz : r q - 1 = 0
  · rw [if_pos hz, if_pos hz]
    exact (h.setRef q _).push hq
  · rw [if_neg hz, if_neg hz]
    exact h.setRef q _

theorem walk_absent (h : Scene s₀ D p0 head r tab e s) (ht : tab ≠ some (pdx va)) (h0 : s₀.mem D (pdx va) = 0) :
    target (s.mem D (pdx va)) = none := by
  rw [h.dir, if_neg ht, h0, target_zero]

theorem fill (h : Scene s₀ D p0 head r none e s) (hD : p0 ≠ D) (n : Nat) (v : Word) :
    Scene s₀ D p0 head r none e (s.fill p0 n v) where
  same := h.same.trans rfl
  head := h.head
  link := h.link
  ref := h.ref
  dir j := (if_neg fun he => hD he.1.symm).trans (h.dir j)
  table ht := absurd rfl ht
  other q hqD hq0 := by
    rw [← h.other q hqD hq0]
    funext j
    exact if_neg fun he => hq0 he.1

section
variable (T : Trio s₀ D p0 p1 p2)
include T

theorem write (h : Scene s₀ D p0 head r tab e s) (j : Nat) (v : Word) :
    Scene s₀ D p0 head r tab (Function.update e j v) (s.write p0 j v) where
  same := h.same.trans rfl
  head := h.head
  link := h.link
  ref := h.ref
  dir k := by rw [Kern.write_mem, Mem.set_of_page_ne _ (T.dir p0 (by simp)).symm, h.dir]
  table ht k hk := by
    rw [Kern.write_mem]
    by_cases hj : k = j
    · rw [hj, Mem.set_self, Function.update_self]
    · rw [Mem.set_of_index_ne _ hj, Function.update_of_ne hj, h.table ht k hk]
  other q hD h0 := by
    rw [Kern.write_mem, ← h.other q hD h0]
    funext k
    exact Mem.set_of_page_ne _ h0 v k

theorem target_dir (h : Scene s₀ D p0 head r (some i) e s) : target (s.mem D i) = some p0 := by
  have := T.lt' (p := p0) (by simp)
  rw [h.dir, if_pos rfl, target_table (by omega)]

/-! ## Walks -/

theorem walk (h : Scene s₀ D p0 head r (some i) e s) (hi : pdx va = i) (create : Bool) :
    s.pgdirWalk (kva D) va create = .ok (some (entry (kva p0) (ptx va)), s) := by
  subst hi
  exact Kern.pgdirWalk_present T.dir_lt (h.target_dir T) (h.same.npages ▸ T.lt p0 (by simp))

theorem walk_create (h : Scene s₀ D p0 (some p0) r none e s) (h0 : s₀.mem D (pdx va) = 0) :
    s.pgdirWalk (kva D) va true = .ok (some (entry (kva p0) (ptx va)), s.addTable D p0 va) ∧
      Scene s₀ D p0 none (Function.update r p0 (r p0 + 1)) (some (pdx va)) (fun _ => 0) (s.addTable D p0 va) := by
  have hD := (T.dir p0 (by simp)).symm
  have hp := (h.pop (T.link p0 (by simp))).setRef p0 (s.ref p0 + 1)
  refine ⟨Kern.pgdirWalk_create T.dir_lt (h.walk_absent (by simp) h0) h.head (h.same.npages ▸ T.lt p0 (by simp))
    (T.lt' (by simp)), h.same.trans rfl, hp.head, hp.link, ?_, fun j => ?_, fun _ j hj => ?_, fun q hqD hq0 => ?_⟩
  · unfold Kern.addTable
    rw [Kern.write_ref, Kern.setRef_ref, Kern.clear_ref, Kern.pop_ref, h.ref]
  · unfold Kern.addTable
    rw [Kern.write_mem, Kern.setRef_mem, Kern.clear_mem, Kern.pop_mem]
    by_cases hj : j = pdx va
    · rw [hj, Mem.set_self, if_pos rfl]
    · rw [Mem.set_of_index_ne _ hj, Mem.clear_of_ne _ hD, h.dir, if_neg (by simp), if_neg fun he => hj (Option.some.inj he).symm]
  · unfold Kern.addTable
    rw [Kern.write_mem, Kern.setRef_mem, Kern.clear_mem, Mem.set_of_page_ne _ hD.symm, Mem.clear_self _ hj]
  · unfold Kern.addTable
    rw [Kern.write_mem, Kern.setRef_mem, Kern.clear_mem, Kern.pop_mem, ← h.other q hqD hq0]
    funext j
    rw [Mem.set_of_page_ne _ hqD, Mem.clear_of_ne _ hq0]

/-! ## `page_remove` and `page_insert` -/

theorem remove (h : Scene s₀ D p0 none r (some i) e s) (hi : pdx va = i) (hq : pgnum (e (ptx va)) = q)
    (hm : q ∈ [p0, p1, p2]) : ∃ t, s.pageRemove (kva D) va = .ok t ∧ Scene s₀ D p0 (if r q - 1 = 0 then some q else none)
      (Function.update r q (r q - 1)) (some i) (Function.update e (ptx va) 0) t := by
  subst hi
  have hlink : s.link q = none := by rw [h.link, T.link q hm]
  have hn := h.same.npages
  exact ⟨_, Kern.pageRemove_table T.dir_lt (h.target_dir T) (hn ▸ T.lt p0 (by simp)) (T.lt' (by simp))
    (by rw [h.table (by simp) _ (ptx_lt va), hq]) (hn ▸ T.lt q hm) (Kern.pageDecref_eq fun _ => hlink),
    ((h.dropRef (T.link q hm)).write T (ptx va) 0).invlpg va⟩

theorem insert_fresh {s' : Kern} (hw : s.pgdirWalk (kva D) va true = .ok (some (entry (kva p0) (ptx va)), s'))
    (h : Scene s₀ D p0 head r (some i) e s') (he : target (e (ptx va)) = none) :
    ∃ t, s.pageInsert (kva D) p va perm = .ok (0, t) ∧ Scene s₀ D p0 head (Function.update r p (r p + 1)) (some i)
      (Function.update e (ptx va) (pteFor p perm)) t := by
  refine ⟨_, Kern.pageInsert_fresh hw (T.lt' (by simp)) ?_, ?_⟩
  · rw [h.table (by simp) _ (ptx_lt va), he]
  · rw [h.ref]
    exact (h.setRef p _).write T (ptx va) _

theorem insert_replace (h : Scene s₀ D p0 none r (some i) e s) (hi : pdx va = i) (he : target (e (ptx va)) = some q)
    (hm : q ∈ [p0, p1, p2]) {r' : Nat → BitVec 16} (hr : r' = Function.update r p (r p + 1)) :
    ∃ t, s.pageInsert (kva D) p va perm = .ok (0, t) ∧ Scene s₀ D p0 (if r' q - 1 = 0 then some q else none)
      (Function.update r' q (r' q - 1)) (some i) (Function.update e (ptx va) (pteFor p perm)) t := by
  have hset := h.setRef p (r p + 1)
  rw [← hr] at hset
  obtain ⟨t, ht, hs⟩ := hset.remove T hi (target_eq_some.mp he).2 hm
  refine ⟨_, Kern.pageInsert_replace (h.walk T hi true) (T.lt' (by simp)) ?_ (by rw [h.ref]; exact ht), ?_⟩
  · rw [h.table (by simp) _ (ptx_lt va), he]
    simp
  · have hw := hs.write T (ptx va) (pteFor p perm)
    rwa [Function.update_idem] at hw

theorem insert_again (h : Scene s₀ D p0 none r (some i) e s) (hi : pdx va = i) (he : target (e (ptx va)) = some p)
    (hm : p ∈ [p0, p1, p2]) (h0 : r p ≠ 0) : ∃ t, s.pageInsert (kva D) p va perm = .ok (0, t) ∧
      Scene s₀ D p0 none r (some i) (Function.update e (ptx va) (pteFor p perm)) t := by
  have hr : Function.update r p (r p + 1) p - 1 = r p := by rw [Function.update_self, BitVec.add_sub_cancel]
  obtain ⟨t, ht, hs⟩ := h.insert_replace T hi he hm rfl
  refine ⟨t, ht, ?_⟩
  rwa [hr, if_neg h0, Function.update_idem, Function.update_eq_self] at hs

theorem insert_last (h : Scene s₀ D p0 none r (some i) e s) (hi : pdx va = i) (he : target (e (ptx va)) = some q)
    (hm : q ∈ [p0, p1, p2]) (hq : r q = 1) (hne : q ≠ p) : ∃ t, s.pageInsert (kva D) p va perm = .ok (0, t) ∧
      Scene s₀ D p0 (some q) (Function.update (Function.update r p (r p + 1)) q 0) (some i)
        (Function.update e (ptx va) (pteFor p perm)) t := by
  have hr : Function.update r p (r p + 1) q - 1 = 0 := by
    rw [Function.update_of_ne hne, hq]
    rfl
  obtain ⟨t, ht, hs⟩ := h.insert_replace T hi he hm rfl
  refine ⟨t, ht, ?_⟩
  rwa [hr, if_pos rfl] at hs

end

end Scene

end Check

end Jos
