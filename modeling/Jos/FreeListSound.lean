import Jos.PageInit
import Jos.PmapLemmas
import Mathlib.Data.List.Perm.Basic
import Mathlib.Logic.Relation

/-!
# The page allocator

Runs of `page_alloc` and `page_free` alone, from the state that `page_init`
leaves, on a machine of any size. `out` lists the pages handed out and not freed
since. The free list stays a list, and with `out` it always makes up the pages
that were free at the start.
-/

namespace Jos

open IntrusiveList

/-- The allocator with the pages it has handed out. -/
structure Pool where
  out : List Nat
  kern : Kern

inductive PoolStep : Pool → Pool → Prop
  | alloc (flags : Word) {P : Pool} {p : Nat} {k : Kern} :
      P.kern.pageAlloc flags = .ok (some p, k) → PoolStep P ⟨p :: P.out, k⟩
  | allocNull (flags : Word) {P : Pool} {k : Kern} :
      P.kern.pageAlloc flags = .ok (none, k) → PoolStep P ⟨P.out, k⟩
  | free {P : Pool} {p : Nat} {k : Kern} : p ∈ P.out → P.kern.ref p = 0 → P.kern.pageFree p = .ok k →
      PoolStep P ⟨P.out.erase p, k⟩
  | count {P : Pool} {p : Nat} (r : BitVec 16) : p ∈ P.out → PoolStep P ⟨P.out, P.kern.setRef p r⟩

/-- The free list is `free`, and the pages of `init` are there or handed out. -/
structure PoolInv (init : List Nat) (P : Pool) (free : List Nat) : Prop where
  chain : Chain P.kern.link P.kern.pageFreeList free
  split : (free ++ P.out).Perm init
  link_none : ∀ p ∈ P.out, P.kern.link p = none

namespace PoolInv

variable {init free : List Nat} {P Q : Pool} {p : Nat}

theorem pop {k : Kern} (h : PoolInv init P (p :: free)) (hl : k.link = Function.update P.kern.link p none)
    (hf : k.pageFreeList = P.kern.link p) : PoolInv init ⟨p :: P.out, k⟩ free where
  chain := by
    obtain ⟨_, hc⟩ := h.chain
    rw [hl, hf]
    exact hc.update (List.nodup_cons.mp h.chain.nodup).1 none
  split := List.perm_middle.trans h.split
  link_none := fun q hq => by
    rw [hl]
    by_cases hqp : q = p
    · subst hqp; exact Function.update_self ..
    · rw [Function.update_of_ne hqp]
      exact h.link_none q ((List.mem_cons.mp hq).resolve_left hqp)

theorem push (h : PoolInv init P free) (hi : init.Nodup) (hp : p ∈ P.out) :
    PoolInv init ⟨P.out.erase p, P.kern.push p⟩ (p :: free) := by
  have hd := h.split.nodup_iff.mpr hi
  have hf : p ∉ free := fun hm => (List.nodup_append.mp hd).2.2 p hm p hp rfl
  have ho : P.out.Nodup := (List.nodup_append.mp hd).2.1
  refine ⟨?_, ?_, fun q hq => ?_⟩
  · rw [Kern.push_link]; exact h.chain.push hf
  · have he : (p :: P.out.erase p).Perm P.out := (List.perm_cons_erase hp).symm
    exact (List.perm_middle.symm.trans (he.append_left free)).trans h.split
  · obtain ⟨hne, hq⟩ := (ho.mem_erase_iff).mp hq
    rw [Kern.push_link, Function.update_of_ne hne]
    exact h.link_none q hq

theorem step (h : PoolInv init P free) (hi : init.Nodup) (hs : PoolStep P Q) : ∃ free', PoolInv init Q free' := by
  cases hs with
  | alloc flags ha =>
    rcases Kern.pageAlloc_cases ha with ⟨hr, _, _⟩ | ⟨q, hr, hq, hk⟩
    · cases hr
    · cases hr
      have hc := h.chain
      rw [hq] at hc
      obtain ⟨t, rfl, _⟩ := hc.pop none
      refine ⟨t, h.pop ?_ ?_⟩
      · rcases hk with rfl | ⟨c, rfl⟩ <;> exact Kern.pop_link P.kern _
      · rcases hk with rfl | ⟨c, rfl⟩ <;> rfl
  | allocNull flags ha =>
    rcases Kern.pageAlloc_cases ha with ⟨_, _, rfl⟩ | ⟨q, hr, _, _⟩
    · exact ⟨free, h⟩
    · cases hr
  | free hp hr hk =>
    rw [Kern.pageFree_ok hr (h.link_none _ hp), Except.ok.injEq] at hk
    subst hk
    exact ⟨_, h.push hi hp⟩
  | count r hp =>
    exact ⟨free, by rw [Kern.setRef_link]; exact h.chain, h.split, by rw [Kern.setRef_link]; exact h.link_none⟩

theorem run (h : PoolInv init P free) (hi : init.Nodup) (hr : Relation.ReflTransGen PoolStep P Q) :
    ∃ free', PoolInv init Q free' := by
  induction hr with
  | refl => exact ⟨free, h⟩
  | tail _ hs ih =>
    obtain ⟨free', h'⟩ := ih
    exact h'.step hi hs

theorem alloc_none_iff (h : PoolInv init P free) (hi : init.Nodup) (flags : Word) :
    (∃ k, P.kern.pageAlloc flags = .ok (none, k)) ↔ ∀ p ∈ init, p ∈ P.out := by
  constructor
  · rintro ⟨k, ha⟩ p hp
    rcases Kern.pageAlloc_cases ha with ⟨_, hf, _⟩ | ⟨q, hr, _, _⟩
    · have hn := h.chain.head
      rw [hf, eq_comm, List.head?_eq_none_iff] at hn
      subst hn
      exact h.split.mem_iff.mpr hp
    · cases hr
  · intro ho
    cases free with
    | nil => exact ⟨_, Kern.pageAlloc_none h.chain flags⟩
    | cons q t =>
      have hd := h.split.nodup_iff.mpr hi
      have hq := ho q (h.split.mem_iff.mp List.mem_cons_self)
      exact absurd rfl ((List.nodup_append.mp hd).2.2 q List.mem_cons_self q hq)

end PoolInv

theorem pageInit_pool {s₀ s : Kern} {ff : Word} (hz : ∀ p, s₀.pages p = ⟨none, 0⟩) (hi : s₀.pageInit = .ok s)
    (hf : paddr (s₀.bootAlloc 0).1 = .ok ff) :
    PoolInv (initFree ff s₀.npages) ⟨[], s⟩ (initFree ff s₀.npages) := by
  obtain ⟨ff', hf', hl⟩ := Kern.pageInit_spec hz hi
  rw [hf, Except.ok.injEq] at hf'
  subst hf'
  exact ⟨hl.chain, by rw [List.append_nil], fun p hp => absurd hp List.not_mem_nil⟩

/-- **The page allocator.** In every state that a sequence of `page_alloc` and `page_free` calls
leads to, the free list is a list of distinct pages below `npages`, these and the pages handed
out partition the pages free at the start, `page_alloc` returns NULL exactly when all of them
are handed out and any page with `pp_link` NULL, and `page_free` does not panic. -/
theorem free_list_sound {s₀ s : Kern} {ff : Word} {P : Pool} (hz : ∀ p, s₀.pages p = ⟨none, 0⟩)
    (hi : s₀.pageInit = .ok s) (hf : paddr (s₀.bootAlloc 0).1 = .ok ff)
    (hr : Relation.ReflTransGen PoolStep ⟨[], s⟩ P) :
    (∃ free, Chain P.kern.link P.kern.pageFreeList free ∧ free.Nodup ∧ (∀ p ∈ free, p < s₀.npages) ∧
      (free ++ P.out).Nodup ∧ ∀ p, p ∈ initFree ff s₀.npages ↔ p ∈ free ∨ p ∈ P.out) ∧
    (∀ flags, (∃ k, P.kern.pageAlloc flags = .ok (none, k)) ↔ ∀ p ∈ initFree ff s₀.npages, p ∈ P.out) ∧
    (∀ flags p k, P.kern.pageAlloc flags = .ok (some p, k) →
      p ∈ initFree ff s₀.npages ∧ p ∉ P.out ∧ k.link p = none) ∧
    (∀ p ∈ P.out, P.kern.ref p = 0 → ∃ k, P.kern.pageFree p = .ok k) := by
  have hn := initFree_nodup ff s₀.npages
  obtain ⟨free, h⟩ := (pageInit_pool hz hi hf).run hn hr
  have hd := h.split.nodup_iff.mpr hn
  have hm : ∀ p, p ∈ initFree ff s₀.npages ↔ p ∈ free ∨ p ∈ P.out := fun p => by
    rw [← h.split.mem_iff, List.mem_append]
  refine ⟨⟨free, h.chain, h.chain.nodup, fun p hp => ?_, hd, hm⟩, h.alloc_none_iff hn, fun flags p k ha => ?_,
    fun p hp hr => ⟨_, Kern.pageFree_ok hr (h.link_none p hp)⟩⟩
  · exact (mem_initFree.mp ((hm p).mpr (Or.inl hp))).1
  · rcases Kern.pageAlloc_cases ha with ⟨hr, _, _⟩ | ⟨q, hr, hq, hk⟩
    · cases hr
    · cases hr
      have hp : p ∈ free := by
        have hc := h.chain
        rw [hq] at hc
        obtain ⟨t, rfl, _⟩ := hc.pop none
        exact List.mem_cons_self
      refine ⟨(hm p).mpr (Or.inl hp), fun ho => (List.nodup_append.mp hd).2.2 p hp p ho rfl, ?_⟩
      have hl : k.link = Function.update P.kern.link p none := by
        rcases hk with rfl | ⟨c, rfl⟩ <;> exact Kern.pop_link P.kern p
      rw [hl, Function.update_self]

/-- Two pages are taken, the second zeroed, and the first is given back. -/
theorem free_list_sound_boot : ∃ k₁ k₂ k₃, smallBoot.pageAlloc 0 = .ok (some 511, k₁) ∧
    k₁.pageAlloc allocZero = .ok (some 510, k₂) ∧ k₂.pageFree 511 = .ok k₃ ∧
    (∃ free, Chain k₃.link k₃.pageFreeList free ∧ free.Nodup ∧ (∀ p ∈ free, p < 512) ∧
      (free ++ [510]).Nodup ∧ ∀ p, p ∈ initFree smallEnd 512 ↔ p ∈ free ∨ p ∈ [510]) ∧
    (∀ flags k, k₃.pageAlloc flags ≠ .ok (none, k)) ∧
    (∀ flags p k, k₃.pageAlloc flags = .ok (some p, k) → p ∈ initFree smallEnd 512 ∧ p ∉ [510] ∧ k.link p = none) ∧
    ∃ k, k₃.pageFree 510 = .ok k := by
  have e511 : initFree smallEnd 512 = 511 :: initFree smallEnd 511 := smallBoot_head
  have e510 : initFree smallEnd 511 = 510 :: initFree smallEnd 510 := smallBoot_free (by decide) (by decide)
  obtain ⟨ff, hf, hl⟩ := Kern.pageInit_spec (fun _ => rfl) smallMachine_init
  rw [smallMachine_end, Except.ok.injEq] at hf
  subst hf
  have hi := initFree_nodup smallEnd 512
  have h₀ : PoolInv (initFree smallEnd 512) ⟨[], smallBoot⟩ (511 :: initFree smallEnd 511) :=
    e511 ▸ pageInit_pool (fun _ => rfl) smallMachine_init smallMachine_end
  have h₁ := h₀.pop (Kern.pop_link smallBoot 511) rfl
  rw [e510] at h₁
  have h₂ : PoolInv _ ⟨[510, 511], ((smallBoot.pop 511).pop 510).clear 510⟩ _ := h₁.pop (Kern.pop_link _ 510) rfl
  have hr : ∀ p, 400 < p → p < 512 → (((smallBoot.pop 511).pop 510).clear 510).ref p = 0 := fun p h1 h2 => by
    rw [Kern.clear_ref, Kern.pop_ref, Kern.pop_ref, hl.ref p, if_neg fun e => not_reserved_above h1 h2 e.2]
  have ha₁ := Kern.pageAlloc_zero h₀.chain.head
  have ha₂ : (smallBoot.pop 511).pageAlloc allocZero = .ok (some 510, ((smallBoot.pop 511).pop 510).clear 510) :=
    Kern.pageAlloc_clear h₁.chain.head (by decide) (by rw [Kern.pop_npages, hl.npages]; decide) (by decide)
  have hfr := Kern.pageFree_ok (hr 511 (by decide) (by decide)) (h₂.link_none 511 (by decide))
  have hrun : Relation.ReflTransGen PoolStep ⟨[], smallBoot⟩ ⟨[510], (((smallBoot.pop 511).pop 510).clear 510).push 511⟩ :=
    ((Relation.ReflTransGen.single (.alloc 0 ha₁)).tail (.alloc (P := ⟨[511], smallBoot.pop 511⟩) allocZero ha₂)).tail
      (.free (P := ⟨[510, 511], _⟩) (by decide) (hr 511 (by decide) (by decide)) hfr)
  obtain ⟨c1, c2, c3, c4⟩ := free_list_sound (fun _ => rfl) smallMachine_init smallMachine_end hrun
  refine ⟨_, _, _, ha₁, ha₂, hfr, c1, fun flags k hk => ?_, c3, c4 510 List.mem_cons_self ?_⟩
  · have h511 := (c2 flags).mp ⟨k, hk⟩ 511 (e511 ▸ List.mem_cons_self)
    exact absurd h511 (by decide)
  · rw [Kern.push_ref]
    exact hr 510 (by decide) (by decide)

/-! ## Freeing a page twice -/

theorem PoolInv.run_ref {init free : List Nat} {P Q : Pool} (h : PoolInv init P free) (hi : init.Nodup)
    (hz : ∀ p ∈ init, p ∉ P.out → P.kern.ref p = 0) (hr : Relation.ReflTransGen PoolStep P Q) :
    ∀ p ∈ init, p ∉ Q.out → Q.kern.ref p = 0 := by
  induction hr with
  | refl => exact hz
  | tail hr hs ih =>
    intro p hp ho
    cases hs with
    | alloc flags ha =>
      rcases Kern.pageAlloc_cases ha with ⟨he, _, _⟩ | ⟨q, _, _, rfl | ⟨c, rfl⟩⟩
      · cases he
      · rw [Kern.pop_ref]; exact ih p hp fun hm => ho (List.mem_cons_of_mem _ hm)
      · rw [Kern.clear_ref, Kern.pop_ref]; exact ih p hp fun hm => ho (List.mem_cons_of_mem _ hm)
    | allocNull flags ha =>
      rcases Kern.pageAlloc_cases ha with ⟨_, _, rfl⟩ | ⟨q, he, _, _⟩
      · exact ih p hp ho
      · cases he
    | @free P' q k hq hr0 hk =>
      obtain ⟨free', h'⟩ := h.run hi hr
      rw [Kern.pageFree_ok hr0 (h'.link_none q hq), Except.ok.injEq] at hk
      rw [← hk, Kern.push_ref]
      by_cases hpq : p = q
      · rw [hpq]; exact hr0
      · exact ih p hp fun hm => ho ((List.mem_erase_of_ne hpq).mpr hm)
    | @count P' q r hq =>
      have hpq : p ≠ q := fun e => ho (by rw [e]; exact hq)
      rw [Kern.setRef_ref, Function.update_of_ne hpq]
      exact ih p hp ho

theorem Kern.pageFree_listed {s : Kern} {free : List Nat} {p : Nat} (hc : Chain s.link s.pageFreeList free)
    (hp : p ∈ free) (hr : s.ref p = 0) : s.pageFree p = .error .pageFree ↔ free.getLast? ≠ some p := by
  rw [Ne, ← hc.link_eq_none_iff hp, Kern.pageFree, hr]
  by_cases hnone : s.link p = none
  · rw [if_pos ⟨rfl, hnone⟩]
    exact iff_of_false (fun e => by cases e) fun e => e hnone
  · rw [if_neg fun e => hnone e.2]
    exact iff_of_true rfl hnone

/-- **Double frees.** In every state that a sequence of `page_alloc` and `page_free` calls leads to,
`page_free` of a page on the free list panics just when the page is not the last one there: the
link of the last page is NULL, as that of a page in use. -/
theorem double_free_iff {s₀ s : Kern} {ff : Word} {P : Pool} (hz : ∀ p, s₀.pages p = ⟨none, 0⟩)
    (hi : s₀.pageInit = .ok s) (hf : paddr (s₀.bootAlloc 0).1 = .ok ff)
    (hr : Relation.ReflTransGen PoolStep ⟨[], s⟩ P) :
    ∃ free, Chain P.kern.link P.kern.pageFreeList free ∧
      ∀ p ∈ free, (P.kern.pageFree p = .error .pageFree ↔ free.getLast? ≠ some p) := by
  have hn := initFree_nodup ff s₀.npages
  have hp := pageInit_pool hz hi hf
  obtain ⟨ff', hf', hl⟩ := Kern.pageInit_spec hz hi
  rw [hf, Except.ok.injEq] at hf'
  subst hf'
  have href := hp.run_ref hn (fun p hm _ => by rw [hl.ref p, if_neg fun h => (mem_initFree.mp hm).2 h.2]) hr
  obtain ⟨free, h⟩ := hp.run hn hr
  refine ⟨free, h.chain, fun p hm => ?_⟩
  have hd := h.split.nodup_iff.mpr hn
  have hr0 : P.kern.ref p = 0 :=
    href p (h.split.mem_iff.mp (List.mem_append_left _ hm)) fun ho => (List.nodup_append.mp hd).2.2 p hm p ho rfl
  exact Kern.pageFree_listed h.chain hm hr0

theorem double_free_boot : ∃ free, Chain smallBoot.link smallBoot.pageFreeList free ∧
    ∀ p ∈ free, (smallBoot.pageFree p = .error .pageFree ↔ free.getLast? ≠ some p) :=
  double_free_iff (P := ⟨[], smallBoot⟩) (fun _ => rfl) smallMachine_init smallMachine_end Relation.ReflTransGen.refl

/-- Page 1 is the last of the free list after boot, and can be freed again. -/
theorem double_free_last : ¬ ∀ (s₀ s : Kern) (ff : Word) (P : Pool), (∀ p, s₀.pages p = ⟨none, 0⟩) →
    s₀.pageInit = .ok s → paddr (s₀.bootAlloc 0).1 = .ok ff → Relation.ReflTransGen PoolStep ⟨[], s⟩ P →
    ∀ p, Linked P.kern.link P.kern.pageFreeList p → P.kern.pageFree p = .error .pageFree := by
  intro h
  have hr1 : ¬ reserved smallEnd 1 := by decide
  have hlast : (initFree smallEnd 512).getLast? = some 1 := initFree_getLast (by decide) hr1
  have hm := List.mem_of_getLast? hlast
  obtain ⟨ff, hf, hl⟩ := Kern.pageInit_spec (fun _ => rfl) smallMachine_init
  rw [smallMachine_end, Except.ok.injEq] at hf
  subst hf
  have herr := h smallMachine smallBoot smallEnd ⟨[], smallBoot⟩ (fun _ => rfl) smallMachine_init smallMachine_end
    Relation.ReflTransGen.refl 1 (hl.chain.linked_iff.mpr hm)
  have hr0 : smallBoot.ref 1 = 0 := by rw [hl.ref 1, if_neg fun h => hr1 h.2]
  exact (Kern.pageFree_listed hl.chain hm hr0).mp herr hlast

end Jos
