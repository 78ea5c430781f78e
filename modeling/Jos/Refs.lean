import Jos.PmapLemmas
import Jos.Lib.RefCount

/-!
# The references held by page tables

For a set `dirs` of page directories and a set `ix` of directory indices, the
tables are the pages that present directory entries refer to, the slots are the
directory entries and the entries of the tables, and `refs` counts the present
entries that refer to a page. The lemmas follow one change of memory each.
-/

namespace Jos

open RefCount

def slotTarget (m : Mem) (x : Nat × Nat) : Option Nat := target (m x.1 x.2)

def tables (m : Mem) (dirs ix : Finset Nat) : Finset Nat :=
  (dirs ×ˢ ix).biUnion fun x => (slotTarget m x).toFinset

def slots (m : Mem) (dirs ix : Finset Nat) : Finset (Nat × Nat) :=
  dirs ×ˢ ix ∪ tables m dirs ix ×ˢ Finset.range nptentries

def refs (m : Mem) (dirs ix : Finset Nat) (p : Nat) : Nat := count (slots m dirs ix) (slotTarget m) p

def userIx : Finset Nat := Finset.range (pdx utop)

def allIx : Finset Nat := Finset.range npdentries

theorem mem_userIx {i : Nat} : i ∈ userIx ↔ i < 955 := by rw [userIx, Finset.mem_range]; rfl

theorem mem_allIx {i : Nat} : i ∈ allIx ↔ i < npdentries := Finset.mem_range

attribute [irreducible] userIx allIx

section
variable {m m' : Mem} {dirs ix : Finset Nat} {T p : Nat}

theorem mem_tables : T ∈ tables m dirs ix ↔ ∃ D ∈ dirs, ∃ i ∈ ix, target (m D i) = some T := by
  simp only [tables, Finset.mem_biUnion, Finset.mem_product, Option.mem_toFinset, Option.mem_def, slotTarget,
    Prod.exists]
  constructor
  · rintro ⟨D, i, ⟨hD, hi⟩, ht⟩; exact ⟨D, hD, i, hi, ht⟩
  · rintro ⟨D, hD, i, hi, ht⟩; exact ⟨D, i, ⟨hD, hi⟩, ht⟩

theorem mem_slots {q j : Nat} : (q, j) ∈ slots m dirs ix ↔
    (q ∈ dirs ∧ j ∈ ix) ∨ (q ∈ tables m dirs ix ∧ j < nptentries) := by
  simp only [slots, Finset.mem_union, Finset.mem_product, Finset.mem_range]

theorem refs_pos : 0 < refs m dirs ix p ↔ ∃ x ∈ slots m dirs ix, slotTarget m x = some p := count_pos

theorem refs_table (h : T ∈ tables m dirs ix) : 0 < refs m dirs ix T := by
  obtain ⟨D, hD, i, hi, ht⟩ := mem_tables.mp h
  exact refs_pos.mpr ⟨(D, i), mem_slots.mpr (Or.inl ⟨hD, hi⟩), ht⟩

theorem refs_entry {j : Nat} (h : T ∈ tables m dirs ix) (hj : j < nptentries) (ht : target (m T j) = some p) :
    0 < refs m dirs ix p :=
  refs_pos.mpr ⟨(T, j), mem_slots.mpr (Or.inr ⟨h, hj⟩), ht⟩

theorem refs_empty (h : ∀ D ∈ dirs, ∀ i ∈ ix, target (m D i) = none) :
    tables m dirs ix = ∅ ∧ ∀ p, refs m dirs ix p = 0 := by
  have ht : tables m dirs ix = ∅ := by
    ext T
    rw [mem_tables]
    refine iff_of_false ?_ (Finset.notMem_empty T)
    rintro ⟨D, hD, i, hi, ht⟩
    rw [h D hD i hi] at ht
    cases ht
  refine ⟨ht, fun p => ?_⟩
  rw [refs, RefCount.count_eq_zero]
  rintro ⟨D, i⟩ hx
  rw [mem_slots, ht] at hx
  obtain ⟨hD, hi⟩ := hx.resolve_right fun h => Finset.notMem_empty _ h.1
  rw [slotTarget, h D hD i hi]
  exact (Option.some_ne_none p).symm

theorem tables_congr (h : ∀ D ∈ dirs, ∀ i ∈ ix, target (m' D i) = target (m D i)) :
    tables m' dirs ix = tables m dirs ix := by
  ext T
  rw [mem_tables, mem_tables]
  constructor
  · rintro ⟨D, hD, i, hi, ht⟩; exact ⟨D, hD, i, hi, (h D hD i hi).symm.trans ht⟩
  · rintro ⟨D, hD, i, hi, ht⟩; exact ⟨D, hD, i, hi, (h D hD i hi).trans ht⟩

theorem refs_congr (hd : ∀ D ∈ dirs, ∀ i ∈ ix, target (m' D i) = target (m D i))
    (ht : ∀ T ∈ tables m dirs ix, ∀ j < nptentries, target (m' T j) = target (m T j)) (p : Nat) :
    refs m' dirs ix p = refs m dirs ix p := by
  have hs : slots m' dirs ix = slots m dirs ix := by rw [slots, slots, tables_congr hd]
  rw [refs, refs, hs]
  refine count_congr (fun x hx => ?_) p
  obtain ⟨q, j⟩ := x
  rcases mem_slots.mp hx with ⟨hq, hj⟩ | ⟨hq, hj⟩
  · exact hd q hq j hj
  · exact ht q hq j hj

theorem slotTarget_set (m : Mem) (pp i : Nat) (v : Word) :
    slotTarget (m.set pp i v) = Function.update (slotTarget m) (pp, i) (target v) := by
  funext x
  by_cases h : x = (pp, i)
  · subst h; simp [slotTarget, Mem.set]
  · rw [Function.update_of_ne h, slotTarget, Mem.set_of_ne m h]; rfl

/-! ## Rewriting an entry of a table -/

theorem tables_set_entry (hT : T ∉ dirs) (j : Nat) (v : Word) :
    tables (m.set T j v) dirs ix = tables m dirs ix :=
  tables_congr fun D hD i _ => by rw [Mem.set_of_page_ne m (fun e : D = T => hT (e ▸ hD))]

theorem refs_set_entry (hT : T ∉ dirs) (hm : T ∈ tables m dirs ix) {j : Nat} (hj : j < nptentries) (v : Word)
    (p : Nat) : refs (m.set T j v) dirs ix p + (if target (m T j) = some p then 1 else 0) =
      refs m dirs ix p + (if target v = some p then 1 else 0) := by
  have hx : (T, j) ∈ slots m dirs ix := mem_slots.mpr (Or.inr ⟨hm, hj⟩)
  rw [refs, refs, slots, tables_set_entry hT, ← slots, slotTarget_set]
  exact count_update hx (target v) p

/-! ## A new table -/

section
variable {D i : Nat} {v : Word} (hD : D ∈ dirs) (hi : i ∈ ix) (ho : target (m D i) = none) (hv : target v = some T)
include hD hi ho hv

theorem tables_set_dir : tables (m.set D i v) dirs ix = insert T (tables m dirs ix) := by
  ext U
  rw [Finset.mem_insert, mem_tables, mem_tables]
  constructor
  · rintro ⟨E, hE, k, hk, ht⟩
    by_cases he : (E, k) = (D, i)
    · cases he; rw [Mem.set_self, hv] at ht; exact Or.inl (Option.some.inj ht).symm
    · rw [Mem.set_of_ne m he] at ht; exact Or.inr ⟨E, hE, k, hk, ht⟩
  · rintro (rfl | ⟨E, hE, k, hk, ht⟩)
    · exact ⟨D, hD, i, hi, by rw [Mem.set_self, hv]⟩
    · refine ⟨E, hE, k, hk, ?_⟩
      rw [Mem.set_of_ne m (fun e => ?_), ht]
      cases e; rw [ho] at ht; cases ht

theorem refs_set_dir (hTd : T ∉ dirs) (hz : ∀ j < nptentries, target (m T j) = none) (p : Nat) :
    refs (m.set D i v) dirs ix p = refs m dirs ix p + (if p = T then 1 else 0) := by
  have hne : ∀ j, (T, j) ≠ (D, i) := fun j e => by cases e; exact hTd hD
  have hs : slots (m.set D i v) dirs ix = slots m dirs ix ∪ ({T} : Finset Nat) ×ˢ Finset.range nptentries := by
    ext ⟨q, j⟩
    rw [Finset.mem_union, mem_slots, mem_slots, tables_set_dir hD hi ho hv]
    simp only [Finset.mem_insert, Finset.mem_product, Finset.mem_singleton, Finset.mem_range]
    rw [or_and_right, or_left_comm, or_comm]
  have hn : ∀ x ∈ ({T} : Finset Nat) ×ˢ Finset.range nptentries, slotTarget (m.set D i v) x = none := by
    rintro ⟨q, j⟩ hx
    obtain ⟨hq, hj⟩ := Finset.mem_product.mp hx
    rw [Finset.mem_singleton] at hq
    subst hq
    rw [slotTarget, Mem.set_of_ne m (hne j)]
    exact hz j (Finset.mem_range.mp hj)
  have hx : (D, i) ∈ slots m dirs ix := mem_slots.mpr (Or.inl ⟨hD, hi⟩)
  have hu : count (slots m dirs ix) (Function.update (slotTarget m) (D, i) (target v)) p + _ = _ :=
    count_update hx (target v) p
  rw [refs, refs, hs, count_union_none hn, slotTarget_set]
  rw [show slotTarget m (D, i) = none from ho, hv] at *
  simp only [reduceCtorEq, if_false, Nat.add_zero, Option.some.injEq] at hu
  rw [hu]
  by_cases h : p = T
  · rw [if_pos h, if_pos h.symm]
  · rw [if_neg h, if_neg (Ne.symm h)]

end

/-! ## A new directory -/

section
variable {D : Nat} (hz : ∀ i ∈ ix, target (m D i) = none)
include hz

theorem tables_insert : tables m (insert D dirs) ix = tables m dirs ix := by
  ext T
  rw [mem_tables, mem_tables]
  constructor
  · rintro ⟨E, hE, i, hi, ht⟩
    rcases Finset.mem_insert.mp hE with rfl | hE
    · rw [hz i hi] at ht; cases ht
    · exact ⟨E, hE, i, hi, ht⟩
  · rintro ⟨E, hE, i, hi, ht⟩; exact ⟨E, Finset.mem_insert_of_mem hE, i, hi, ht⟩

theorem refs_insert (p : Nat) : refs m (insert D dirs) ix p = refs m dirs ix p := by
  have hs : slots m (insert D dirs) ix = slots m dirs ix ∪ ({D} : Finset Nat) ×ˢ ix := by
    ext ⟨q, j⟩
    rw [Finset.mem_union, mem_slots, mem_slots, tables_insert hz]
    simp only [Finset.mem_insert, Finset.mem_product, Finset.mem_singleton]
    rw [or_and_right, or_assoc, or_comm]
  rw [refs, refs, hs]
  refine count_union_none ?_ p
  rintro ⟨q, i⟩ hx
  obtain ⟨hq, hi⟩ := Finset.mem_product.mp hx
  rw [Finset.mem_singleton] at hq
  subst hq
  exact hz i hi

end

/-! ## One directory among the others -/

section
variable {D : Nat}

theorem tables_mono {dirs' : Finset Nat} (h : dirs' ⊆ dirs) (hT : T ∈ tables m dirs' ix) : T ∈ tables m dirs ix := by
  obtain ⟨E, hE, i, hi, ht⟩ := mem_tables.mp hT
  exact mem_tables.mpr ⟨E, h hE, i, hi, ht⟩

theorem mem_tables_erase (hD : D ∈ dirs) :
    T ∈ tables m dirs ix ↔ T ∈ tables m (dirs.erase D) ix ∨ T ∈ tables m {D} ix := by
  constructor
  · intro hT
    obtain ⟨E, hE, i, hi, ht⟩ := mem_tables.mp hT
    by_cases he : E = D
    · exact Or.inr (mem_tables.mpr ⟨E, Finset.mem_singleton.mpr he, i, hi, ht⟩)
    · exact Or.inl (mem_tables.mpr ⟨E, Finset.mem_erase.mpr ⟨he, hE⟩, i, hi, ht⟩)
  · rintro (hT | hT)
    · exact tables_mono (Finset.erase_subset D dirs) hT
    · exact tables_mono (Finset.singleton_subset_iff.mpr hD) hT

section
variable (hD : D ∈ dirs) (hTd : ∀ T ∈ tables m dirs ix, T ∉ dirs)
  (hinj : ∀ E ∈ dirs, ∀ E' ∈ dirs, ∀ i ∈ ix, ∀ i' ∈ ix, ∀ T,
    target (m E i) = some T → target (m E' i') = some T → E = E' ∧ i = i')
include hD hinj

theorem table_apart (hT : T ∈ tables m (dirs.erase D) ix) : T ∉ tables m {D} ix := by
  intro hT'
  obtain ⟨E, hE, i, hi, ht⟩ := mem_tables.mp hT
  obtain ⟨E', hE', i', hi', ht'⟩ := mem_tables.mp hT'
  rw [Finset.mem_singleton] at hE'
  subst hE'
  obtain ⟨hne, hE⟩ := Finset.mem_erase.mp hE
  exact hne (hinj E hE E' hD i hi i' hi' T ht ht').1

include hTd

theorem refs_erase (p : Nat) : refs m dirs ix p = refs m (dirs.erase D) ix p + refs m {D} ix p := by
  have hs : slots m dirs ix = slots m (dirs.erase D) ix ∪ slots m {D} ix := by
    ext ⟨q, j⟩
    rw [Finset.mem_union, mem_slots, mem_slots, mem_slots, mem_tables_erase hD, Finset.mem_singleton]
    have hq : q ∈ dirs ↔ q ∈ dirs.erase D ∨ q = D := by
      constructor
      · intro hq
        by_cases he : q = D
        · exact Or.inr he
        · exact Or.inl (Finset.mem_erase.mpr ⟨he, hq⟩)
      · rintro (hq | rfl)
        · exact Finset.mem_of_mem_erase hq
        · exact hD
    rw [hq, or_and_right, or_and_right, or_or_or_comm]
  have hd : Disjoint (slots m (dirs.erase D) ix) (slots m {D} ix) := by
    rw [Finset.disjoint_left]
    rintro ⟨q, j⟩ hx hy
    rw [mem_slots, Finset.mem_erase] at hx
    rw [mem_slots, Finset.mem_singleton] at hy
    rcases hx with ⟨⟨hne, hq⟩, _⟩ | ⟨hq, _⟩
    · rcases hy with ⟨he, _⟩ | ⟨hq', _⟩
      · exact hne he
      · exact hTd q (tables_mono (Finset.singleton_subset_iff.mpr hD) hq') hq
    · rcases hy with ⟨he, _⟩ | ⟨hq', _⟩
      · subst he
        exact hTd q (tables_mono (Finset.erase_subset q dirs) hq) hD
      · exact table_apart hD hinj hq hq'
  rw [refs, refs, refs, hs]
  exact count_union hd p

end

end

end

end Jos
