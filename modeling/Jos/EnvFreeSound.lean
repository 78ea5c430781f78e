import Jos.Env
import Jos.Runs
import Jos.Lib.Loop

/-!
# `env_free` gives back what the environment holds

`env_free` empties the page tables of a directory below `UTOP`, drops the tables
and then the directory. `Released` is what any part of that does to the page
descriptors: counts go down, and the pages whose count reaches zero are put on
the free list. How far each count goes down is read off from the exact counts
before and after.
-/

namespace Jos

open IntrusiveList

/-- From `s` to `s'` counts only go down, and the pages that reach zero are pushed. -/
structure Released (s : Kern) (free : List Nat) (s' : Kern) (free' : List Nat) : Prop where
  npages : s'.npages = s.npages
  pushed : ∃ fs, free' = fs ++ free ∧ ∀ p, p ∈ fs ↔ s.ref p ≠ 0 ∧ s'.ref p = 0
  ref_le : ∀ p, (s'.ref p).toNat ≤ (s.ref p).toNat
  pages : ∀ p, s'.ref p = s.ref p → s'.pages p = s.pages p

namespace Released

variable {s s' s'' : Kern} {free free' free'' : List Nat} {p q : Nat}

theorem refl (s : Kern) (free : List Nat) : Released s free s free := by
  refine ⟨rfl, ⟨[], rfl, fun p => ?_⟩, fun p => Nat.le_refl _, fun p _ => rfl⟩
  rw [List.mem_nil_iff, false_iff, not_and]
  exact fun h => h

theorem ref_zero (h : Released s free s' free') (h0 : s.ref p = 0) : s'.ref p = 0 := by
  have := h.ref_le p
  rw [h0, show (0 : BitVec 16).toNat = 0 from rfl, Nat.le_zero] at this
  exact BitVec.eq_of_toNat_eq this

theorem trans (h : Released s free s' free') (h' : Released s' free' s'' free'') : Released s free s'' free'' := by
  obtain ⟨fs, hf, hm⟩ := h.pushed
  obtain ⟨fs', hf', hm'⟩ := h'.pushed
  refine ⟨h'.npages.trans h.npages, ⟨fs' ++ fs, ?_, fun p => ?_⟩, fun p => (h'.ref_le p).trans (h.ref_le p),
    fun p hp => ?_⟩
  · rw [hf', hf, List.append_assoc]
  · rw [List.mem_append, hm, hm']
    constructor
    · rintro (⟨hne, h0⟩ | ⟨hne, h0⟩)
      · exact ⟨fun e => hne (h.ref_zero e), h0⟩
      · exact ⟨hne, h'.ref_zero h0⟩
    · rintro ⟨hne, h0⟩
      by_cases he : s'.ref p = 0
      · exact Or.inr ⟨hne, he⟩
      · exact Or.inl ⟨he, h0⟩
  · have h1 := h.ref_le p
    have h2 := h'.ref_le p
    have he : s'.ref p = s.ref p := by
      rw [hp] at h2
      exact BitVec.eq_of_toNat_eq (Nat.le_antisymm h1 h2)
    rw [h'.pages p (hp.trans he.symm), h.pages p he]

theorem of_pages (hn : s'.npages = s.npages) (hp : s'.pages = s.pages) : Released s free s' free := by
  have hr : s'.ref = s.ref := by
    funext p
    rw [Kern.ref, Kern.ref, hp]
  refine ⟨hn, ⟨[], rfl, fun p => ?_⟩, fun p => by rw [hr], fun p _ => by rw [hp]⟩
  rw [List.mem_nil_iff, hr, false_iff, not_and]
  exact fun h => h

theorem dropRef (s : Kern) (free : List Nat) (hq : s.ref q ≠ 0) :
    Released s free (s.dropRef q) (Inv.dropFree s free q) := by
  have hlt : (s.ref q - 1).toNat + 1 = (s.ref q).toNat := by
    have hpos : (s.ref q).toNat ≠ 0 := fun e => hq (BitVec.eq_of_toNat_eq e)
    have := (s.ref q).isLt
    rw [BitVec.toNat_sub]
    simp only [BitVec.ofNat_eq_ofNat, BitVec.toNat_ofNat]
    omega
  have hr : ∀ p, p ≠ q → (s.dropRef q).ref p = s.ref p := fun p hp => by
    rw [Kern.dropRef_ref, Function.update_of_ne hp]
  have hrq : (s.dropRef q).ref q = s.ref q - 1 := by rw [Kern.dropRef_ref, Function.update_self]
  refine ⟨Kern.dropRef_npages s q, ?_, fun p => ?_, fun p hp => ?_⟩
  · unfold Inv.dropFree
    by_cases h0 : s.ref q - 1 = 0
    · rw [if_pos h0]
      refine ⟨[q], rfl, fun p => ?_⟩
      rw [List.mem_singleton]
      constructor
      · rintro rfl
        exact ⟨hq, hrq.trans h0⟩
      · rintro ⟨hne, hz⟩
        by_contra hp
        rw [hr p hp] at hz
        exact hne hz
    · rw [if_neg h0]
      refine ⟨[], rfl, fun p => ?_⟩
      rw [List.mem_nil_iff, false_iff]
      rintro ⟨hne, hz⟩
      by_cases hp : p = q
      · subst hp
        rw [hrq] at hz
        exact h0 hz
      · rw [hr p hp] at hz
        exact hne hz
  · by_cases hp : p = q
    · subst hp
      rw [hrq]
      omega
    · rw [hr p hp]
  · have hne : p ≠ q := by
      rintro rfl
      rw [hrq] at hp
      rw [hp] at hlt
      omega
    unfold Kern.dropRef
    split
    · simp only [Kern.push, Kern.setLink, Kern.setRef, Function.update_of_ne hne]
    · simp only [Kern.setRef, Function.update_of_ne hne]

end Released

namespace Sys

variable {dirs : Finset Nat} {held : Nat → Nat} {k : Kern} {free : List Nat} {D T i : Nat}

/-! ## The inner loop -/

structure PteLoop (dirs : Finset Nat) (held : Nat → Nat) (T : Nat) (k : Kern) (free : List Nat) (j : Nat) (t : Kern)
    (free' : List Nat) : Prop where
  inv : Inv dirs userIx held t free'
  released : Released k free t free'
  mem : ∀ p, p ≠ T → t.mem p = k.mem p
  empty : ∀ i < j, target (t.mem T i) = none

section
variable (hD : D ∈ dirs) (hi : i < 955) (ht : target (k.mem D i) = some T)
include hD hi

theorem freePte_ok {t : Kern} {free' : List Nat} {j : Nat} (ht : target (t.mem D i) = some T)
    (h : PteLoop dirs held T k free j t free') (hj : j < 1024) :
    ∃ t' free'', freePte (kva D) (kva T) i t j = .ok t' ∧ PteLoop dirs held T k free (j + 1) t' free'' := by
  have hix : i ∈ userIx := mem_userIx.mpr hi
  have hpx : pdx (pgaddr i j 0) = i := pdx_pgaddr (by omega) hj
  have htx : ptx (pgaddr i j 0) = j := ptx_pgaddr (by omega) hj
  have hT : T ∈ tables t.mem dirs userIx := mem_tables.mpr ⟨D, hD, i, hix, ht⟩
  have hload : t.load (entry (kva T) j) = .ok (t.mem T j) := Kern.load_entry t (h.inv.table_lt' hT) hj
  cases hq : target (t.mem T j) with
  | none =>
    refine ⟨t, free', ?_, h.inv, h.released, h.mem, fun l hl => ?_⟩
    · rw [freePte, hload, ok_bind, if_neg (not_not.mpr (target_eq_none.mp hq)), pure_ok]
    · rcases Nat.lt_succ_iff_lt_or_eq.mp hl with hl | rfl
      · exact h.empty l hl
      · exact hq
  | some q =>
    have ht' : target (t.mem D (pdx (pgaddr i j 0))) = some T := by rw [hpx]; exact ht
    have hq' : target (t.mem T (ptx (pgaddr i j 0))) = some q := by rw [htx]; exact hq
    obtain ⟨he, hinv⟩ := h.inv.remove_mapped hD (by rw [hpx]; exact hix) ht' hq'
    have hne : t.ref q ≠ 0 :=
      h.inv.ref_ne_zero (h.inv.entry_lt T hT j hj q hq) (Nat.add_pos_right _ (refs_entry hT hj hq))
    have hrel : Released (t.dropRef q) (Inv.dropFree t free' q)
        (((t.dropRef q).write T (ptx (pgaddr i j 0)) 0).invlpg (pgaddr i j 0)) (Inv.dropFree t free' q) :=
      Released.of_pages rfl rfl
    have hm : ∀ p l, (((t.dropRef q).write T (ptx (pgaddr i j 0)) 0).invlpg (pgaddr i j 0)).mem p l =
        t.mem.set T j 0 p l := fun p l => by
      rw [Kern.invlpg_mem, Kern.write_mem, Kern.dropRef_mem, htx]
    refine ⟨_, _, ?_, hinv, (h.released.trans (Released.dropRef t free' hne)).trans hrel, fun p hp => ?_, fun l hl => ?_⟩
    · rw [freePte, hload, ok_bind, if_pos (target_eq_some.mp hq).1, he]
    · funext l
      rw [hm, Mem.set_of_page_ne _ hp, h.mem p hp]
    · rw [hm]
      by_cases hlj : l = j
      · subst hlj
        rw [Mem.set_self, target_zero]
      · rw [Mem.set_of_ne _ fun e => hlj (Prod.mk.inj e).2]
        exact h.empty l (by omega)

include ht

theorem freePtes_ok (h : Inv dirs userIx held k free) : ∃ t free',
    (List.range (ptx (~~~0) + 1)).foldlM (freePte (kva D) (kva T) i) k = .ok t ∧
    PteLoop dirs held T k free 1024 t free' := by
  have hT : T ∈ tables k.mem dirs userIx := mem_tables.mpr ⟨D, hD, i, mem_userIx.mpr hi, ht⟩
  have hTD : D ≠ T := fun e => h.table_dir T hT (e ▸ hD)
  have h0 : PteLoop dirs held T k free 0 k free :=
    ⟨h, Released.refl k free, fun _ _ => rfl, fun i hi => absurd hi (Nat.not_lt_zero i)⟩
  have hloop := Loop.range_ok (f := freePte (kva D) (kva T) i) (n := 1024)
    (fun j t => ∃ free', PteLoop dirs held T k free j t free') ⟨free, h0⟩ ?_
  · obtain ⟨t, he, free', hp⟩ := hloop
    exact ⟨t, free', he, hp⟩
  · rintro j hj t ⟨free', hp⟩
    obtain ⟨t', free'', he, hp'⟩ := freePte_ok hD hi (by rw [hp.mem D hTD]; exact ht) hp hj
    exact ⟨t', he, free'', hp'⟩

end

/-! ## The outer loop -/

/-- After `i` turns of the outer loop: of memory, only directory `D` and its tables differ. -/
structure PdeLoop (dirs : Finset Nat) (held : Nat → Nat) (D : Nat) (k : Kern) (free : List Nat) (i : Nat) (t : Kern)
    (free' : List Nat) : Prop where
  inv : Inv dirs userIx held t free'
  released : Released k free t free'
  mem : ∀ p, p ≠ D → p ∉ tables k.mem {D} userIx → t.mem p = k.mem p
  empty : ∀ j < i, target (t.mem D j) = none
  rest : ∀ j, i ≤ j → t.mem D j = k.mem D j

section
variable (hD : D ∈ dirs)
include hD

theorem freePde_ok {t : Kern} {free' : List Nat} (h : PdeLoop dirs held D k free i t free') (hi : i < 955) :
    ∃ t' free'', freePde (kva D) t i = .ok t' ∧ PdeLoop dirs held D k free (i + 1) t' free'' := by
  have hix : i ∈ userIx := mem_userIx.mpr hi
  have hload : t.load (entry (kva D) i) = .ok (t.mem D i) := Kern.load_entry t (h.inv.dir_lt D hD) (by omega)
  cases ht : target (t.mem D i) with
  | none =>
    refine ⟨t, free', ?_, h.inv, h.released, h.mem, fun j hj => ?_, fun j hj => h.rest j (by omega)⟩
    · rw [freePde, hload, ok_bind, if_pos (target_eq_none.mp ht), pure_ok]
    · rcases Nat.lt_succ_iff_lt_or_eq.mp hj with hj | rfl
      · exact h.empty j hj
      · exact ht
  | some T =>
    have hT : T ∈ tables t.mem dirs userIx := mem_tables.mpr ⟨D, hD, i, hix, ht⟩
    have hTD : D ≠ T := fun e => h.inv.table_dir T hT (e ▸ hD)
    have hTn := h.inv.table_lt T hT
    have hTl := h.inv.table_lt' hT
    have hTk : T ∈ tables k.mem {D} userIx :=
      mem_tables.mpr ⟨D, Finset.mem_singleton_self D, i, hix, by rw [← h.rest i (Nat.le_refl i)]; exact ht⟩
    obtain ⟨t₁, free₁, he, hp⟩ := freePtes_ok hD hi ht h.inv
    have hn : t₁.npages = t.npages := hp.released.npages
    have ht₁ : target (t₁.mem D i) = some T := by
      rw [hp.mem D hTD]
      exact ht
    have hinv := hp.inv.write_dir_none hD hix ht₁ hp.empty
    have hTn₁ : T < (t₁.write D i 0).npages := by
      rw [Kern.write_npages, hn]
      exact hTn
    have hTd : T ∉ dirs := h.inv.table_dir T hT
    have hinv' := hinv.dropRef hTn₁ fun hm => absurd hm hTd
    have hpos : 0 < bump held T T + refs (t₁.write D i 0).mem dirs userIx T := by
      rw [bump_self]
      omega
    have hne : (t₁.write D i 0).ref T ≠ 0 := hinv.ref_ne_zero hTn₁ hpos
    have hrel : Released t₁ free₁ (t₁.write D i 0) free₁ := Released.of_pages rfl rfl
    have hdrop := Released.dropRef (t₁.write D i 0) free₁ hne
    have hm : ∀ p l, ((t₁.write D i 0).dropRef T).mem p l = t₁.mem.set D i 0 p l := fun p l => by
      rw [Kern.dropRef_mem, Kern.write_mem]
    refine ⟨(t₁.write D i 0).dropRef T, _, ?_, hinv', ((h.released.trans hp.released).trans hrel).trans hdrop,
      fun p hpD hpT => ?_, fun j hj => ?_, fun j hj => ?_⟩
    · have hk : t.kaddr (pteAddr (t.mem D i)) = .ok (kva T) := by
        rw [pteAddr_eq_page2pa, (target_eq_some.mp ht).2]
        exact Kern.kaddr_page2pa t (by omega) hTn
      have hst : t₁.store (entry (kva D) i) 0 = .ok (t₁.write D i 0) :=
        Kern.store_entry t₁ (h.inv.dir_lt D hD) (by omega) 0
      have hpp : (t₁.write D i 0).pa2page (pteAddr (t.mem D i)) = .ok T := by
        rw [Kern.pa2page, pgnum_pteAddr, (target_eq_some.mp ht).2, if_neg (Nat.not_le.mpr hTn₁)]
      rw [freePde, hload, ok_bind, if_neg (target_eq_some.mp ht).1]
      simp only [hk, ok_bind, he, hst, hpp]
      exact Kern.pageDecref_eq fun _ => hinv.link_none T hTn₁ (hinv.not_free_of_ref hpos)
    · funext l
      have hpT' : p ≠ T := fun e => hpT (e ▸ hTk)
      rw [hm, Mem.set_of_page_ne _ hpD, hp.mem p hpT', h.mem p hpD hpT]
    · rw [hm]
      by_cases hji : j = i
      · subst hji
        rw [Mem.set_self, target_zero]
      · rw [Mem.set_of_ne _ fun e => hji (Prod.mk.inj e).2, hp.mem D hTD]
        exact h.empty j (by omega)
    · have hji : j ≠ i := by omega
      rw [hm, Mem.set_of_ne _ fun e => hji (Prod.mk.inj e).2, hp.mem D hTD]
      exact h.rest j (by omega)

theorem freePdes_ok (h : Inv dirs userIx held k free) : ∃ t free',
    (List.range (pdx utop)).foldlM (freePde (kva D)) k = .ok t ∧ PdeLoop dirs held D k free 955 t free' := by
  have h0 : PdeLoop dirs held D k free 0 k free :=
    ⟨h, Released.refl k free, fun _ _ _ => rfl, fun j hj => absurd hj (Nat.not_lt_zero j), fun _ _ => rfl⟩
  have hloop := Loop.range_ok (f := freePde (kva D)) (n := 955)
    (fun i t => ∃ free', PdeLoop dirs held D k free i t free') ⟨free, h0⟩ ?_
  · obtain ⟨t, he, free', hp⟩ := hloop
    exact ⟨t, free', he, hp⟩
  · rintro i hi t ⟨free', hp⟩
    obtain ⟨t', free'', he, hp'⟩ := freePde_ok hD hp hi
    exact ⟨t', he, free'', hp'⟩

end

/-! ## The directory -/

def envRefs (m : Mem) (D p : Nat) : Nat := (if p = D then 1 else 0) + refs m {D} userIx p

structure DirFreed (dirs : Finset Nat) (D : Nat) (k : Kern) (free : List Nat) (t : Kern) : Prop where
  count : ∀ p < k.npages, (t.ref p).toNat + envRefs k.mem D p = (k.ref p).toNat
  pushed : ∃ fs, Chain t.link t.pageFreeList (fs ++ free) ∧
    ∀ p, p ∈ fs ↔ p < k.npages ∧ 0 < envRefs k.mem D p ∧ t.ref p = 0
  mem : ∀ p, p ≠ D → p ∉ tables k.mem {D} userIx → t.mem p = k.mem p
  pages : ∀ p < k.npages, envRefs k.mem D p = 0 → t.pages p = k.pages p ∧ t.mem p = k.mem p
  /-- Above `UTOP` as well, where an entry does not lead to a table of `D`. -/
  translation : ∀ E ∈ dirs, E ≠ D → ∀ va, (utop ≤ va → ∀ T, target (k.mem E (pdx va)) = some T →
    T ≠ D ∧ T ∉ tables k.mem {D} userIx) → pte t.mem E va = pte k.mem E va

section
variable (h : Inv dirs userIx held k free) (hD : D ∈ dirs)
include h hD

theorem table_other (hT : T ∈ tables k.mem (dirs.erase D) userIx) : T ≠ D ∧ T ∉ tables k.mem {D} userIx :=
  ⟨fun e => h.table_dir T (tables_mono (Finset.erase_subset D dirs) hT) (e ▸ hD), table_apart hD h.table_inj hT⟩

theorem dir_other {E : Nat} (hE : E ∈ dirs) : E ∉ tables k.mem {D} userIx :=
  fun hT => h.table_dir E (tables_mono (Finset.singleton_subset_iff.mpr hD) hT) hE

theorem refs_other {t : Kern} (hm : ∀ p, p ≠ D → p ∉ tables k.mem {D} userIx → t.mem p = k.mem p) (p : Nat) :
    refs t.mem (dirs.erase D) userIx p = refs k.mem (dirs.erase D) userIx p := by
  refine refs_congr (fun E hE i _ => ?_) (fun T hT j _ => ?_) p
  · obtain ⟨hne, hE⟩ := Finset.mem_erase.mp hE
    rw [hm E hne (dir_other h hD hE)]
  · obtain ⟨hne, hTD⟩ := table_other h hD hT
    rw [hm T hne hTD]

theorem pte_other {t : Kern} (hm : ∀ p, p ≠ D → p ∉ tables k.mem {D} userIx → t.mem p = k.mem p) {E : Nat} (hE : E ∈ dirs)
    (hED : E ≠ D) {va : Word} (hva : utop ≤ va → ∀ T, target (k.mem E (pdx va)) = some T →
      T ≠ D ∧ T ∉ tables k.mem {D} userIx) : pte t.mem E va = pte k.mem E va := by
  rw [pte, pte, hm E hED (dir_other h hD hE)]
  cases hT : target (k.mem E (pdx va)) with
  | none => rfl
  | some T =>
    have hTo : T ≠ D ∧ T ∉ tables k.mem {D} userIx := by
      by_cases hv : va < utop
      · refine table_other h hD (mem_tables.mpr ⟨E, Finset.mem_erase.mpr ⟨hED, hE⟩, _, ?_, hT⟩)
        exact mem_userIx.mpr (pdx_of_lt_utop hv)
      · exact hva (BitVec.not_lt.mp hv) T hT
    refine congrArg present ?_
    rw [hm T hTo.1 hTo.2]

theorem freeDir_ok (hheld : 0 < held D) (hn : D < k.npages) : ∃ t t',
    (List.range (pdx utop)).foldlM (freePde (kva D)) k = .ok t ∧ t.pa2page (page2pa D) = .ok D ∧
    t.pageDecref D = .ok t' ∧ DirFreed dirs D k free t' := by
  have hl := h.dir_lt D hD
  obtain ⟨t, free₁, he, hp⟩ := freePdes_ok hD h
  have hnt : t.npages = k.npages := hp.released.npages
  have hDt : D < t.npages := by
    rw [hnt]
    exact hn
  -- the directory is empty, and its page is held once less
  have hinv₁ := hp.inv.eraseDir hD fun i hi => hp.empty i (mem_userIx.mp hi)
  have hheld' : bump (fun p => held p - if p = D then 1 else 0) D = held := by
    funext p
    by_cases hpD : p = D
    · subst hpD
      rw [bump_self, if_pos rfl]
      omega
    · rw [bump_of_ne hpD, if_neg hpD, Nat.sub_zero]
  rw [← hheld'] at hinv₁
  have hne : D ∉ dirs.erase D := Finset.notMem_erase D dirs
  have hpos : 0 < bump (fun p => held p - if p = D then 1 else 0) D D + refs t.mem (dirs.erase D) userIx D := by
    rw [bump_self]
    omega
  have hinv := hinv₁.dropRef hDt fun hm => absurd hm hne
  have hrel := hp.released.trans (Released.dropRef t free₁ (hinv₁.ref_ne_zero hDt hpos))
  have hmem : ∀ p, p ≠ D → p ∉ tables k.mem {D} userIx → (t.dropRef D).mem p = k.mem p := by
    intro p h1 h2
    rw [Kern.dropRef_mem]
    exact hp.mem p h1 h2
  have hcount : ∀ p < k.npages, ((t.dropRef D).ref p).toNat + envRefs k.mem D p = (k.ref p).toNat := by
    intro p hpn
    have h1 := hinv.refs_eq p (by rw [Kern.dropRef_npages, hnt]; exact hpn)
    have h2 := h.refs_eq p hpn
    rw [refs_erase hD h.table_dir h.table_inj] at h2
    rw [refs_other h hD hmem] at h1
    have h3 := congrFun hheld' p
    unfold bump at h3
    rw [envRefs]
    omega
  refine ⟨t, t.dropRef D, he, ?_, ?_, hcount, ?_, hmem, fun p hpn h0 => ⟨?_, ?_⟩, fun E hE hED va hva => ?_⟩
  · rw [Kern.pa2page, pgnum_page2pa (by omega), if_neg (Nat.not_le.mpr hDt)]
  · exact Kern.pageDecref_eq fun _ => hinv₁.link_none D hDt (hinv₁.not_free_of_ref hpos)
  · obtain ⟨fs, hfs, hiff⟩ := hrel.pushed
    refine ⟨fs, hfs ▸ hinv.chain, fun p => ?_⟩
    have hlt : p ∈ fs → p < k.npages := fun hpf => by
      have := hinv.free_lt p (by rw [hfs]; exact List.mem_append_left _ hpf)
      rw [Kern.dropRef_npages, hnt] at this
      exact this
    constructor
    · intro hpf
      obtain ⟨hr, hr'⟩ := (hiff p).mp hpf
      have := hcount p (hlt hpf)
      have hrp : (k.ref p).toNat ≠ 0 := fun e => hr (BitVec.eq_of_toNat_eq e)
      rw [hr', show (0 : BitVec 16).toNat = 0 from rfl] at this
      exact ⟨hlt hpf, by omega, hr'⟩
    · rintro ⟨hpn, hr, hr'⟩
      refine (hiff p).mpr ⟨fun e => ?_, hr'⟩
      have := hcount p hpn
      rw [e, show (0 : BitVec 16).toNat = 0 from rfl] at this
      omega
  · have := hcount p hpn
    rw [h0, Nat.add_zero] at this
    exact hrel.pages p (BitVec.eq_of_toNat_eq this)
  · rw [envRefs] at h0
    refine hmem p (fun e => ?_) (fun hT => ?_)
    · rw [if_pos e] at h0
      omega
    · have := refs_table hT
      omega
  · exact pte_other h hD hmem hE hED hva

end

/-- **`env_free`** ends, and takes back exactly the references that the environment held. -/
theorem envFree_sound {s : Sys} {e : Nat} (h : Inv dirs userIx held s.kern free) (hD : D ∈ dirs) (hheld : 0 < held D)
    (hn : D < s.kern.npages) (he : (s.envs e).envPgdir = kva D)
    (hcur : s.curenv = some e → kernbase ≤ s.kern.kernPgdir) : ∃ s', s.envFree e = .ok s' ∧
    DirFreed dirs D s.kern free s'.kern ∧
    (s'.envs e).envStatus = .free ∧ (s'.envs e).envPgdir = 0 ∧
    s'.envFreeList = some e ∧ (s'.envs e).envLink = s.envFreeList ∧ ∀ x, x ≠ e → s'.envs x = s.envs x := by
  have hstart : ∃ v, s.leavePgdir e = .ok (lcr3 s.kern v) := by
    by_cases hc : s.curenv = some e
    · refine ⟨s.kern.kernPgdir - kernbase, ?_⟩
      rw [leavePgdir, if_pos hc, paddr, if_neg (BitVec.not_lt.mpr (hcur hc)), ok_bind, pure_ok]
    · refine ⟨s.kern.cr3, ?_⟩
      rw [leavePgdir, if_neg hc, pure_ok]
      rfl
  obtain ⟨v, hv⟩ := hstart
  have hinv : Inv dirs userIx held (lcr3 s.kern v) free :=
    ⟨h.npages_le, h.chain, h.free_lt, h.free_ref, h.link_none, h.dir_lt, h.dir_free, h.dir_own, h.table_lt,
      h.table_dir, h.table_inj, h.entry_lt, h.refs_eq⟩
  obtain ⟨t, t', hloop, hpp, hdec, hfree⟩ := freeDir_ok hinv hD hheld hn
  refine ⟨s.putFree e t', envFree_eq hv (he ▸ hloop) (he ▸ paddr_kva (h.dir_lt D hD)) hpp hdec,
    ⟨hfree.count, hfree.pushed, hfree.mem, hfree.pages, hfree.translation⟩, ?_, ?_, rfl, ?_, fun x hx => ?_⟩
  · rw [putFree_envs, Function.update_self]
  · rw [putFree_envs, Function.update_self]
  · rw [putFree_envs, Function.update_self]
  · rw [putFree_envs, Function.update_of_ne hx]

/-! ## An environment that shares a page -/

def twiceOps : List Op := [.alloc 0, .insert 398 511 0 pteU, .insert 398 511 pgsize pteU]

def shareOps : List Op := twiceOps ++ [.alloc 0, .insert 398 509 ptsize pteU, .insert 399 511 0 pteU]

structure Twice (k : Kern) : Prop where
  run : twiceOps.foldlM (fun c op => op.exec c) ⟨{398, 399}, smallBoot⟩ = .ok ⟨{398, 399}, k⟩
  inv : Inv {398, 399} userIx (bootRefs smallEnd) k (initFree smallEnd 510)
  npages : k.npages = 512
  ref : ∀ p < 512, (k.ref p).toNat = if p = 511 then 2 else if p = 510 then 1 else bootRefs smallEnd p
  zero : ∀ i, k.mem 399 i = 0
  absent : k.mem 398 (pdx ptsize) = 0

structure Shared (k : Kern) : Prop where
  run : shareOps.foldlM (fun c op => op.exec c) ⟨{398, 399}, smallBoot⟩ = .ok ⟨{398, 399}, k⟩
  inv : Inv {398, 399} userIx (bootRefs smallEnd) k (initFree smallEnd 507)
  npages : k.npages = 512
  ref : k.ref 511 = 3
  ref_once : ∀ p, p = 398 ∨ p = 508 ∨ p = 509 ∨ p = 510 → k.ref p = 1
  envRefs : ∀ p < 512, envRefs k.mem 398 p =
    if p = 511 then 2 else if p = 398 ∨ p = 508 ∨ p = 509 ∨ p = 510 then 1 else 0
  shared : pte k.mem 399 0 = some (page2pa 511 ||| pteU ||| pteP)

theorem bootRefs_above {p : Nat} (hlo : 400 < p) (hhi : p < 512) : bootRefs smallEnd p = 0 :=
  if_neg (not_reserved_above hlo hhi)

theorem notMem_dirs {p : Nat} {P : Prop} (hp : 400 < p) (hm : p ∈ ({398, 399} : Finset Nat)) : P := by
  rw [Finset.mem_insert, Finset.mem_singleton] at hm
  omega

theorem map_twice : ∃ k, Twice k := by
  have h : Inv {398, 399} userIx (bootRefs smallEnd) smallBoot (511 :: initFree smallEnd 511) :=
    smallBoot_head ▸ (smallMachine_boots userIx fun D hD => by simpa using hD).inv
  have hD : 398 ∈ ({398, 399} : Finset Nat) := by decide
  have hi : ∀ {va : Word}, pdx va < 955 → pdx va ∈ userIx := mem_userIx.mpr
  have e510 : initFree smallEnd 511 = 510 :: initFree smallEnd 510 := smallBoot_free (by decide) (by decide)
  have hz : ∀ p, 400 < p → p < 512 → smallBoot.ref p = 0 := fun p h1 h2 =>
    BitVec.eq_of_toNat_eq (by rw [smallBoot_ref h2, bootRefs_above h1 h2]; rfl)
  have f511 : 511 ∉ initFree smallEnd 511 := (List.nodup_cons.mp h.chain.nodup).1
  -- page 511, mapped at 0 through a new table
  rw [e510] at h f511
  have b₁ := h.alloc_cons 0
  obtain ⟨k₂, b₂, h₂, t₂, r₂⟩ := h.insert_taken 0 pteU hD (hi (by decide)) (by decide) (by rw [smallBoot_mem, target_zero])
  generalize smallBoot.pop 511 = k₁ at b₁ b₂
  have n₂ := t₂.npages.trans smallBoot_npages
  -- and at the next page
  have o₂ : target (k₂.mem 398 (pdx pgsize)) = some 510 := by rw [t₂.dir, if_pos (by decide), target_table (by decide)]
  obtain ⟨b₃, h₃⟩ : k₂.pageInsert (kva 398) 511 pgsize pteU = .ok (0, _) ∧ _ := h₂.insert_fresh hD (hi (by decide)) (by rw [n₂]; decide)
    (fun hm => f511 (List.mem_cons_of_mem _ hm)) (by decide) (notMem_dirs (by decide)) (Or.inl ⟨o₂, rfl, rfl⟩)
    (by rw [t₂.entry _ (by decide), if_neg (by decide), target_zero]) (by rw [r₂]; decide)
    (h₂.wf.walk_present hD (hi (by decide)) o₂ true)
  have hm : ∀ q i, q ≠ 510 →
      ((k₂.setRef 511 (k₂.ref 511 + 1)).write 510 (ptx pgsize) (page2pa 511 ||| pteU ||| pteP)).mem q i = k₂.mem q i :=
    fun q i hq => by rw [Kern.write_mem, Mem.set_of_page_ne _ hq, Kern.setRef_mem]
  refine ⟨_, ?_, h₃, n₂, fun p hp => ?_, fun i => ?_, ?_⟩
  · rw [twiceOps, List.foldlM_cons, Op.exec_alloc b₁, ok_bind, List.foldlM_cons, Op.exec_insert b₂, ok_bind, List.foldlM_cons,
      Op.exec_insert b₃, ok_bind, List.foldlM_nil, pure_ok]
  · rw [Kern.write_ref, Kern.setRef_ref]
    by_cases hp11 : p = 511
    · rw [if_pos hp11, hp11, Function.update_self, r₂]
      rfl
    rw [if_neg hp11, Function.update_of_ne hp11, t₂.ref, if_neg hp11]
    by_cases hp10 : p = 510
    · rw [if_pos hp10, if_pos hp10, hz 510 (by decide) (by decide)]
      rfl
    · rw [if_neg hp10, if_neg hp10, smallBoot_ref hp]
  · rw [hm _ _ (by decide), t₂.other 399 (by decide) (by decide), smallBoot_mem]
  · rw [hm _ _ (by decide), t₂.dir, if_neg (by decide), smallBoot_mem]

theorem share_page : ∃ k, Shared k := by
  obtain ⟨k₃, hk⟩ := map_twice
  have hD : 398 ∈ ({398, 399} : Finset Nat) := by decide
  have hE : 399 ∈ ({398, 399} : Finset Nat) := by decide
  have hi : ∀ {va : Word}, pdx va < 955 → pdx va ∈ userIx := mem_userIx.mpr
  have e509 : initFree smallEnd 510 = 509 :: initFree smallEnd 509 := smallBoot_free (by decide) (by decide)
  have e508 : initFree smallEnd 509 = 508 :: initFree smallEnd 508 := smallBoot_free (by decide) (by decide)
  have e507 : initFree smallEnd 508 = 507 :: initFree smallEnd 507 := smallBoot_free (by decide) (by decide)
  have hb : bootRefs smallEnd 398 = 1 := by decide
  -- page 509, mapped in directory 398 through another table
  have h₃ := hk.inv
  have f511 : 511 ∉ initFree smallEnd 510 := fun hm => by
    have := congrArg BitVec.toNat (h₃.free_ref 511 hm)
    rw [hk.ref 511 (by decide), if_pos rfl] at this
    exact absurd this (by decide)
  rw [e509, e508] at h₃
  have b₄ := h₃.alloc_cons 0
  obtain ⟨k₅, b₅, h₅, t₅, r509⟩ := h₃.insert_taken ptsize pteU hD (hi (by decide)) (by decide) (by rw [hk.absent, target_zero])
  generalize k₃.pop 509 = k₄ at b₄ b₅
  have n₅ := t₅.npages.trans hk.npages
  rw [e507] at h₅
  have r₅ : ∀ p < 512, (k₅.ref p).toNat =
      if p = 511 then 2 else if p = 508 ∨ p = 509 ∨ p = 510 then 1 else bootRefs smallEnd p := by
    intro p hp
    by_cases hp9 : p = 509
    · rw [hp9, r509]
      rfl
    rw [t₅.ref, if_neg hp9]
    by_cases hp8 : p = 508
    · rw [hp8, h₃.free_ref 508 (List.mem_cons_of_mem _ List.mem_cons_self)]
      rfl
    rw [if_neg hp8, hk.ref p hp]
    split_ifs <;> omega
  have z₅ : ∀ i, k₅.mem 399 i = 0 := fun i => by rw [t₅.other 399 (by decide) (by decide), hk.zero]
  -- page 511 again, in directory 399
  have f₅ : 511 ∉ 507 :: initFree smallEnd 507 := fun hm => f511 (by
    rw [e509, e508, e507]
    exact List.mem_cons_of_mem _ (List.mem_cons_of_mem _ hm))
  have r511 : k₅.ref 511 = 2 := BitVec.eq_of_toNat_eq (r₅ 511 (by decide))
  obtain ⟨k₆, b₆, h₆, t₆⟩ := h₅.insert_new 511 0 pteU hE (hi (by decide))
    (by rw [n₅]; decide) f₅ (by decide) (notMem_dirs (by decide)) (by rw [r511]; decide) (by rw [z₅, target_zero])
  -- directory 399 was empty, and its new table changes nothing in directory 398
  have hrefs : ∀ p < 512, (k₅.ref p).toNat = bootRefs smallEnd p + refs k₆.mem {398} userIx p := by
    intro p hp
    have hz : refs k₅.mem {399} userIx p = 0 := (refs_empty fun D hD i _ => by
      rw [Finset.mem_singleton.mp hD, z₅, target_zero]).2 p
    have hsplit := refs_erase hD h₅.table_dir h₅.table_inj p
    rw [show ({398, 399} : Finset Nat).erase 398 = {399} from rfl, hz, Nat.zero_add] at hsplit
    have hnew := h₅.refs_new (x := p) hE t₆
    rw [show ({398, 399} : Finset Nat).erase 399 = {398} by decide] at hnew
    rw [h₅.refs_eq p (by rw [n₅]; exact hp), hsplit, hnew]
  refine ⟨k₆, ?_, h₆, t₆.npages.trans n₅, ?_, fun p hp => ?_, fun p hp => ?_, ?_⟩
  · rw [shareOps, List.foldlM_append, hk.run, ok_bind, List.foldlM_cons, Op.exec_alloc b₄, ok_bind, List.foldlM_cons,
      Op.exec_insert b₅, ok_bind, List.foldlM_cons, Op.exec_insert b₆, ok_bind, List.foldlM_nil, pure_ok]
  · rw [t₆.ref, if_pos rfl, r511]
    rfl
  · have h5 := r₅ p (by omega)
    rw [if_neg (by omega)] at h5
    rw [t₆.ref, if_neg (by omega), if_neg (by omega)]
    refine BitVec.eq_of_toNat_eq (h5.trans ?_)
    rcases hp with rfl | hp
    · rw [if_neg (by decide), hb]
      rfl
    · rw [if_pos hp]
      rfl
  · have h1 := hrefs p hp
    rw [r₅ p hp] at h1
    rw [envRefs]
    by_cases hp9 : 400 < p
    · rw [bootRefs_above hp9 hp] at h1
      split_ifs at h1 ⊢ <;> omega
    · split_ifs at h1 ⊢ <;> omega
  · have ht : target (k₆.mem 399 (pdx 0)) = some 507 := by rw [t₆.dir, if_pos rfl, target_table (by decide)]
    rw [pte_eq ht, t₆.entry _ (ptx_lt 0), if_pos rfl]
    exact present_of_target (target_pte (by decide) (by decide))

def smallSys (k : Kern) : Sys where
  kern := k
  envs _ := ⟨Trapframe.zero, none, 4096, 0, .user, .runnable, 0, kva 398⟩
  envFreeList := some 1
  curenv := none
  printed := []

/-- The page that is mapped twice and shared goes from three references to one and stays mapped in directory 399; the
other page, both tables and the directory are free. -/
theorem envFree_sound_small : ∃ k s', shareOps.foldlM (fun c op => op.exec c) ⟨{398, 399}, smallBoot⟩ = .ok ⟨{398, 399}, k⟩ ∧
    (smallSys k).envFree 0 = .ok s' ∧ k.ref 511 = 3 ∧ s'.kern.ref 511 = 1 ∧
    pte s'.kern.mem 399 0 = some (page2pa 511 ||| pteU ||| pteP) ∧
    (∃ fs, Chain s'.kern.link s'.kern.pageFreeList (fs ++ initFree smallEnd 507) ∧
      ∀ p, p ∈ fs ↔ p = 398 ∨ p = 508 ∨ p = 509 ∨ p = 510) ∧
    (s'.envs 0).envStatus = .free ∧ (s'.envs 0).envPgdir = 0 ∧ s'.envFreeList = some 0 ∧ (s'.envs 0).envLink = some 1 := by
  obtain ⟨k, hk⟩ := share_page
  obtain ⟨s', he, hd, hst, hpd, hfl, hln, _⟩ := envFree_sound (s := smallSys k) (e := 0) hk.inv (by decide : 398 ∈ _) (by decide)
    (by rw [smallSys, hk.npages]; decide) rfl (fun h => by cases h)
  have hn : (smallSys k).kern.npages = 512 := hk.npages
  have hcount : ∀ p < 512, (s'.kern.ref p).toNat + envRefs k.mem 398 p = (k.ref p).toNat := fun p hp =>
    hd.count p (by rw [hn]; exact hp)
  have h511 : (s'.kern.ref 511).toNat = 1 := by
    have := hcount 511 (by decide)
    rw [hk.envRefs 511 (by decide), if_pos rfl, hk.ref, show (3 : BitVec 16).toNat = 3 from rfl] at this
    omega
  refine ⟨k, s', hk.run, he, hk.ref, BitVec.eq_of_toNat_eq h511, ?_, ?_, hst, hpd, hfl, hln⟩
  · rw [hd.translation 399 (by decide) (by decide) 0 fun hu => absurd hu (by decide)]
    exact hk.shared
  · obtain ⟨fs, hc, hfs⟩ := hd.pushed
    refine ⟨fs, hc, fun p => ?_⟩
    rw [hfs, hn]
    constructor
    · rintro ⟨hp, hpos, h0⟩
      rw [show (smallSys k).kern.mem = k.mem from rfl, hk.envRefs p hp] at hpos
      by_cases hp11 : p = 511
      · subst hp11
        rw [h0] at h511
        cases h511
      · rw [if_neg hp11] at hpos
        by_contra hne
        rw [if_neg hne] at hpos
        exact absurd hpos (lt_irrefl 0)
    · intro hp
      have hlt : p < 512 := by omega
      have h1 := hk.envRefs p hlt
      rw [if_neg (by omega), if_pos hp] at h1
      have h2 := hcount p hlt
      rw [h1, hk.ref_once p hp, show (1 : BitVec 16).toNat = 1 from rfl] at h2
      refine ⟨hlt, ?_, BitVec.eq_of_toNat_eq (show _ = 0 by omega)⟩
      rw [show (smallSys k).kern.mem = k.mem from rfl, h1]
      exact Nat.one_pos

end Sys

end Jos
