import Jos.Refs
import Jos.Lib.IntrusiveList

/-!
# Page tables and what addresses translate to

`Wf dirs ix s free` is the shape of the page tables and of the free list, with
nothing said of counts: the tables of the directories `dirs` (through the
indices `ix`) are distinct pages, no directory, and off the free list `free`.
In such a state `pgdir_walk` does not panic and leaves such a state.

`pte m D va` is the present entry that the processor finds for `va` when it
walks the tables of directory `D`. A store to a table entry changes it at one
page of one directory, and making a page table changes it nowhere.
-/

namespace Jos

open IntrusiveList

def mapped (m : Mem) (D : Nat) (va : Word) : Option Nat :=
  (target (m D (pdx va))).bind fun T => target (m T (ptx va))

theorem mapped_eq {m : Mem} {D T : Nat} {va : Word} (h : target (m D (pdx va)) = some T) :
    mapped m D va = target (m T (ptx va)) := by
  rw [mapped, h]; rfl

theorem mapped_eq_some {m : Mem} {D q : Nat} {va : Word} : mapped m D va = some q ↔
    ∃ T, target (m D (pdx va)) = some T ∧ target (m T (ptx va)) = some q := by
  simp only [mapped, Option.bind_eq_some_iff]

/-- `pgdir_walk` with `create` reaches table `T`, an old one or the head of the free list. -/
def WalkTo (D : Nat) (va : Word) (s : Kern) (free : List Nat) (T : Nat) (s' : Kern) (free' : List Nat) : Prop :=
  (target (s.mem D (pdx va)) = some T ∧ s' = s ∧ free' = free) ∨
  (target (s.mem D (pdx va)) = none ∧ free = T :: free' ∧ s' = s.addTable D T va)

/-- A table entry as the processor takes it: only if it is present. -/
def present (w : Word) : Option Word := if w &&& pteP = 0 then none else some w

@[simp] theorem present_zero : present 0 = none := rfl

theorem present_eq_none {w : Word} : present w = none ↔ target w = none := by
  unfold present target; split <;> simp

theorem target_eq_present (w : Word) : target w = (present w).map pgnum := by
  unfold present target; split <;> rfl

theorem present_of_target {w : Word} {T : Nat} (h : target w = some T) : present w = some w := by
  rw [present, if_neg (target_eq_some.mp h).1]

def pte (m : Mem) (D : Nat) (va : Word) : Option Word :=
  (target (m D (pdx va))).bind fun T => present (m T (ptx va))

theorem pte_eq {m : Mem} {D T : Nat} {va : Word} (h : target (m D (pdx va)) = some T) :
    pte m D va = present (m T (ptx va)) := by
  rw [pte, h]; rfl

theorem pte_none {m : Mem} {D : Nat} {va : Word} (h : target (m D (pdx va)) = none) : pte m D va = none := by
  rw [pte, h]; rfl

theorem mapped_eq_pte (m : Mem) (D : Nat) (va : Word) : mapped m D va = (pte m D va).map pgnum := by
  unfold mapped pte
  cases target (m D (pdx va)) with
  | none => rfl
  | some T => exact target_eq_present _

theorem mapped_eq_none {m : Mem} {D : Nat} {va : Word} : mapped m D va = none ↔ pte m D va = none := by
  rw [mapped_eq_pte, Option.map_eq_none_iff]

def userReadable (m : Mem) (D : Nat) (va : Word) : Prop :=
  m D (pdx va) &&& pteU ≠ 0 ∧ ∃ w, pte m D va = some w ∧ w &&& pteU ≠ 0

def userWritable (m : Mem) (D : Nat) (va : Word) : Prop :=
  m D (pdx va) &&& pteU ≠ 0 ∧ m D (pdx va) &&& pteW ≠ 0 ∧
    ∃ w, pte m D va = some w ∧ w &&& pteU ≠ 0 ∧ w &&& pteW ≠ 0

structure Wf (dirs ix : Finset Nat) (s : Kern) (free : List Nat) : Prop where
  npages_le : s.npages ≤ 65536
  chain : Chain s.link s.pageFreeList free
  free_lt : ∀ p ∈ free, p < s.npages
  dir_lt : ∀ D ∈ dirs, D < 65536
  dir_free : ∀ D ∈ dirs, D ∉ free
  table_lt : ∀ T ∈ tables s.mem dirs ix, T < s.npages
  table_dir : ∀ T ∈ tables s.mem dirs ix, T ∉ dirs
  table_free : ∀ T ∈ tables s.mem dirs ix, T ∉ free
  table_inj : ∀ D ∈ dirs, ∀ D' ∈ dirs, ∀ i ∈ ix, ∀ i' ∈ ix, ∀ T,
    target (s.mem D i) = some T → target (s.mem D' i') = some T → D = D' ∧ i = i'

theorem table_of_dir {m : Mem} {dirs ix : Finset Nat} {D T : Nat} {va : Word} (hD : D ∈ dirs) (hi : pdx va ∈ ix)
    (ht : target (m D (pdx va)) = some T) : T ∈ tables m dirs ix :=
  mem_tables.mpr ⟨D, hD, pdx va, hi, ht⟩

namespace Wf

variable {dirs ix : Finset Nat} {s s' : Kern} {free free' : List Nat} {D E T p : Nat} {va a : Word}

theorem head (h : Wf dirs ix s free) : s.pageFreeList = free.head? := h.chain.head

theorem table_lt' (h : Wf dirs ix s free) (hT : T ∈ tables s.mem dirs ix) : T < 65536 :=
  Nat.lt_of_lt_of_le (h.table_lt T hT) h.npages_le

theorem setRef (h : Wf dirs ix s free) (p : Nat) (r : BitVec 16) : Wf dirs ix (s.setRef p r) free :=
  ⟨h.npages_le, (Kern.setRef_link s p r).symm ▸ h.chain, h.free_lt, h.dir_lt, h.dir_free, h.table_lt, h.table_dir,
    h.table_free, h.table_inj⟩

theorem write_table (h : Wf dirs ix s free) (hT : T ∈ tables s.mem dirs ix) (j : Nat) (v : Word) :
    Wf dirs ix (s.write T j v) free := by
  have hTd := h.table_dir T hT
  have hts : tables (s.mem.set T j v) dirs ix = tables s.mem dirs ix := tables_set_entry hTd j v
  refine ⟨h.npages_le, h.chain, h.free_lt, h.dir_lt, h.dir_free, hts ▸ h.table_lt, hts ▸ h.table_dir,
    hts ▸ h.table_free, ?_⟩
  intro E hE E' hE' i hi i' hi' U h1 h2
  rw [Kern.write_mem, Mem.set_of_page_ne _ fun e : E = T => hTd (e ▸ hE)] at h1
  rw [Kern.write_mem, Mem.set_of_page_ne _ fun e : E' = T => hTd (e ▸ hE')] at h2
  exact h.table_inj E hE E' hE' i hi i' hi' U h1 h2

/-! ## `pgdir_walk` -/

section
variable (h : Wf dirs ix s free) (hD : D ∈ dirs) (hi : pdx va ∈ ix)
include h hD hi

theorem walk_present (ht : target (s.mem D (pdx va)) = some T) (create : Bool) :
    s.pgdirWalk (kva D) va create = .ok (some (entry (kva T) (ptx va)), s) :=
  Kern.pgdirWalk_present (h.dir_lt D hD) ht (h.table_lt T (table_of_dir hD hi ht))

omit hi in
theorem walk_create_absent (ht : target (s.mem D (pdx va)) = none) :
    (free = [] ∧ s.pgdirWalk (kva D) va true = .ok (none, s)) ∨
    ∃ T t, free = T :: t ∧ s.pgdirWalk (kva D) va true = .ok (some (entry (kva T) (ptx va)), s.addTable D T va) := by
  have hlt := h.dir_lt D hD
  cases free with
  | nil => exact Or.inl ⟨rfl, Kern.pgdirWalk_noMem hlt ht h.head⟩
  | cons T t =>
    have hn := h.free_lt T List.mem_cons_self
    have := h.npages_le
    exact Or.inr ⟨T, t, rfl, Kern.pgdirWalk_create hlt ht h.head hn (by omega)⟩

theorem walk_create : (target (s.mem D (pdx va)) = none ∧ free = [] ∧
      s.pgdirWalk (kva D) va true = .ok (none, s)) ∨
    ∃ T s' free', WalkTo D va s free T s' free' ∧
      s.pgdirWalk (kva D) va true = .ok (some (entry (kva T) (ptx va)), s') := by
  cases ht : target (s.mem D (pdx va)) with
  | some T => exact Or.inr ⟨T, s, free, Or.inl ⟨ht, rfl, rfl⟩, h.walk_present hD hi ht true⟩
  | none =>
    rcases h.walk_create_absent hD ht with ⟨hf, he⟩ | ⟨T, t, hf, he⟩
    · exact Or.inl ⟨rfl, hf, he⟩
    · exact Or.inr ⟨T, s.addTable D T va, t, Or.inr ⟨ht, hf, rfl⟩, he⟩

end

/-! ## The state after a walk -/

theorem addTable_dir (h : Wf dirs ix s free) (hE : E ∈ dirs) (hT : T ∈ free) (i : Nat) :
    (s.addTable D T va).mem E i = s.mem.set D (pdx va) (page2pa T ||| tableFlags) E i := by
  have hne : E ≠ T := fun e => h.dir_free E hE (e ▸ hT)
  simp only [Kern.addTable, Kern.write_mem, Kern.setRef_mem, Kern.clear_mem, Kern.pop_mem]
  by_cases hi : (E, i) = (D, pdx va)
  · cases hi; rw [Mem.set_self, Mem.set_self]
  · rw [Mem.set_of_ne _ hi, Mem.set_of_ne _ hi, Mem.clear_of_ne _ hne]

theorem target_addTable (h : Wf dirs ix s (T :: free)) (hD : D ∈ dirs) :
    target ((s.addTable D T va).mem D (pdx va)) = some T := by
  have := h.free_lt T List.mem_cons_self
  have := h.npages_le
  rw [h.addTable_dir hD List.mem_cons_self, Mem.set_self, target_table (by omega)]

theorem tables_addTable (h : Wf dirs ix s (T :: free)) (hD : D ∈ dirs) (hi : pdx va ∈ ix)
    (ho : target (s.mem D (pdx va)) = none) :
    tables (s.addTable D T va).mem dirs ix = insert T (tables s.mem dirs ix) := by
  have := h.free_lt T List.mem_cons_self
  have := h.npages_le
  have hd : tables (s.addTable D T va).mem dirs ix = tables (s.mem.set D (pdx va) (page2pa T ||| tableFlags)) dirs ix :=
    tables_congr fun E hE i _ => by rw [h.addTable_dir hE List.mem_cons_self]
  rw [hd, tables_set_dir hD hi ho (target_table (by omega))]

theorem addTable (h : Wf dirs ix s (T :: free)) (hD : D ∈ dirs) (hi : pdx va ∈ ix)
    (ho : target (s.mem D (pdx va)) = none) : Wf dirs ix (s.addTable D T va) free := by
  have hT : T ∈ T :: free := List.mem_cons_self
  have hTd : T ∉ dirs := fun hm => h.dir_free T hm hT
  have hTf : T ∉ free := (List.nodup_cons.mp h.chain.nodup).1
  have hlt := Nat.lt_of_lt_of_le (h.free_lt T hT) h.npages_le
  have hold : ∀ E ∈ dirs, ∀ i ∈ ix, ∀ U, target ((s.addTable D T va).mem E i) = some U →
      (E, i) = (D, pdx va) ∧ U = T ∨ (E, i) ≠ (D, pdx va) ∧ target (s.mem E i) = some U ∧ U ≠ T := by
    intro E hE i hi' U hU
    by_cases he : (E, i) = (D, pdx va)
    · cases he
      rw [h.target_addTable hD] at hU
      exact Or.inl ⟨rfl, (Option.some.inj hU).symm⟩
    · rw [h.addTable_dir hE hT, Mem.set_of_ne _ he] at hU
      exact Or.inr ⟨he, hU, fun e => h.table_free U (mem_tables.mpr ⟨E, hE, i, hi', hU⟩) (e ▸ hT)⟩
  have hc : Chain (s.addTable D T va).link (s.addTable D T va).pageFreeList free := by
    have hl : (s.addTable D T va).link = Function.update s.link T none := by
      rw [Kern.addTable, Kern.write_link, Kern.setRef_link, Kern.clear_link, Kern.pop_link]
    rw [hl]
    exact h.chain.2.update hTf none
  refine ⟨h.npages_le, hc, fun p hp => h.free_lt p (List.mem_cons_of_mem _ hp), h.dir_lt,
    fun E hE hm => h.dir_free E hE (List.mem_cons_of_mem _ hm), ?_, ?_, ?_, ?_⟩
  · intro U hU
    rw [h.tables_addTable hD hi ho, Finset.mem_insert] at hU
    rcases hU with rfl | hU
    · exact h.free_lt U hT
    · exact h.table_lt U hU
  · intro U hU
    rw [h.tables_addTable hD hi ho, Finset.mem_insert] at hU
    rcases hU with rfl | hU
    · exact hTd
    · exact h.table_dir U hU
  · intro U hU hm
    rw [h.tables_addTable hD hi ho, Finset.mem_insert] at hU
    rcases hU with rfl | hU
    · exact hTf hm
    · exact h.table_free U hU (List.mem_cons_of_mem _ hm)
  · intro E hE E' hE' i hi' i' hi'' U h1 h2
    rcases hold E hE i hi' U h1 with ⟨he, hu⟩ | ⟨_, ht, hu⟩
    · rcases hold E' hE' i' hi'' U h2 with ⟨he', _⟩ | ⟨_, _, hu'⟩
      · exact Prod.mk.injEq .. ▸ he.trans he'.symm
      · exact absurd hu hu'
    · rcases hold E' hE' i' hi'' U h2 with ⟨_, hu'⟩ | ⟨_, ht', _⟩
      · exact absurd hu' hu
      · exact h.table_inj E hE E' hE' i hi' i' hi'' U ht ht'

theorem walkTo_wf (h : Wf dirs ix s free) (hD : D ∈ dirs) (hi : pdx va ∈ ix) (hw : WalkTo D va s free T s' free') :
    Wf dirs ix s' free' ∧ target (s'.mem D (pdx va)) = some T ∧ s'.npages = s.npages := by
  rcases hw with ⟨ht, rfl, rfl⟩ | ⟨ht, rfl, rfl⟩
  · exact ⟨h, ht, rfl⟩
  · exact ⟨h.addTable hD hi ht, h.target_addTable hD, rfl⟩

theorem walkTo_ref (hw : WalkTo D va s free T s' free') (hp : p ∉ free) : s'.ref p = s.ref p := by
  rcases hw with ⟨_, rfl, _⟩ | ⟨_, rfl, rfl⟩
  · rfl
  · have hne : p ≠ T := fun e => hp (e ▸ List.mem_cons_self)
    rw [Kern.addTable, Kern.write_ref, Kern.setRef_ref, Function.update_of_ne hne, Kern.clear_ref, Kern.pop_ref]

theorem walkTo_free (hw : WalkTo D va s free T s' free') (hp : p ∉ free) : p ∉ free' := by
  rcases hw with ⟨_, _, rfl⟩ | ⟨_, rfl, _⟩
  · exact hp
  · exact fun hm => hp (List.mem_cons_of_mem _ hm)

/-! ## Translations -/

/-- Storing to the entry of `va` changes the translation of the page of `va` in its
directory, and of no other address in any directory. -/
theorem pte_write (h : Wf dirs ix s free) (hD : D ∈ dirs) (hi : pdx va ∈ ix)
    (ht : target (s.mem D (pdx va)) = some T) (v : Word) (hE : E ∈ dirs) (ha : pdx a ∈ ix) :
    pte (s.mem.set T (ptx va) v) E a = if E = D ∧ pgnum a = pgnum va then present v else pte s.mem E a := by
  have hTd := h.table_dir T (table_of_dir hD hi ht)
  have hdir : s.mem.set T (ptx va) v E (pdx a) = s.mem E (pdx a) :=
    Mem.set_of_page_ne _ (fun e : E = T => hTd (e ▸ hE)) v _
  by_cases hs : E = D ∧ pgnum a = pgnum va
  · obtain ⟨rfl, hg⟩ := hs
    obtain ⟨hp, hx⟩ := (pgnum_eq_iff a va).mp hg
    rw [if_pos ⟨rfl, hg⟩, pte_eq (T := T) (by rw [hdir, hp]; exact ht), hx, Mem.set_self]
  · rw [if_neg hs, pte, pte, hdir]
    cases hU : target (s.mem E (pdx a)) with
    | none => rfl
    | some U =>
      refine congrArg present (Mem.set_of_ne _ (fun e => hs ?_) v)
      obtain ⟨rfl, hx⟩ := Prod.mk.injEq .. ▸ e
      obtain ⟨rfl, hp⟩ := h.table_inj E hE D hD _ ha _ hi U hU ht
      exact ⟨rfl, (pgnum_eq_iff a va).mpr ⟨hp, hx⟩⟩

theorem pte_addTable {t : List Nat} (h : Wf dirs ix s (T :: t)) (hD : D ∈ dirs)
    (ho : target (s.mem D (pdx va)) = none) (hE : E ∈ dirs) (ha : pdx a ∈ ix) :
    pte (s.addTable D T va).mem E a = pte s.mem E a := by
  have hT : T ∈ T :: t := List.mem_cons_self
  have hTd : ∀ F ∈ dirs, F ≠ T := fun F hF e => h.dir_free F hF (e ▸ hT)
  have := h.free_lt T hT
  have := h.npages_le
  simp only [Kern.addTable, Kern.write_mem, Kern.setRef_mem, Kern.clear_mem, Kern.pop_mem]
  by_cases hs : (E, pdx a) = (D, pdx va)
  · have hx : target ((s.mem.clear T).set D (pdx va) (page2pa T ||| tableFlags) E (pdx a)) = some T := by
      rw [Prod.mk.injEq] at hs
      rw [hs.1, hs.2, Mem.set_self, target_table (by omega)]
    rw [pte_eq hx, Mem.set_of_page_ne _ (hTd D hD).symm, Mem.clear_self _ (ptx_lt a), present_zero]
    rw [Prod.mk.injEq] at hs
    rw [hs.1.symm, hs.2.symm] at ho
    exact (pte_none ho).symm
  · have hx : (s.mem.clear T).set D (pdx va) (page2pa T ||| tableFlags) E (pdx a) = s.mem E (pdx a) := by
      rw [Mem.set_of_ne _ hs, Mem.clear_of_ne _ (hTd E hE)]
    rw [pte, pte, hx]
    cases hU : target (s.mem E (pdx a)) with
    | none => rfl
    | some U =>
      have hUt := table_of_dir hE ha hU
      have hUT : U ≠ T := fun e => h.table_free U hUt (e ▸ hT)
      have hUD : U ≠ D := fun e => h.table_dir U hUt (e ▸ hD)
      refine congrArg present ?_
      rw [Mem.set_of_page_ne _ hUD, Mem.clear_of_ne _ hUT]

theorem pte_walkTo (h : Wf dirs ix s free) (hD : D ∈ dirs) (hw : WalkTo D va s free T s' free')
    (hE : E ∈ dirs) (ha : pdx a ∈ ix) : pte s'.mem E a = pte s.mem E a := by
  rcases hw with ⟨_, rfl, _⟩ | ⟨ho, rfl, rfl⟩
  · rfl
  · exact h.pte_addTable hD ho hE ha

theorem pte_walk_write (h : Wf dirs ix s free) (hD : D ∈ dirs) (hi : pdx va ∈ ix)
    (hw : WalkTo D va s free T s' free') (v : Word) (hE : E ∈ dirs) (ha : pdx a ∈ ix) :
    pte (s'.mem.set T (ptx va) v) E a = if E = D ∧ pgnum a = pgnum va then present v else pte s.mem E a := by
  obtain ⟨h', ht, _⟩ := h.walkTo_wf hD hi hw
  rw [h'.pte_write hD hi ht v hE ha, h.pte_walkTo hD hw hE ha]

theorem dir_walkTo (h : Wf dirs ix s free) (hw : WalkTo D va s free T s' free') (hE : E ∈ dirs) {i : Nat}
    (hi : (E, i) ≠ (D, pdx va)) : s'.mem E i = s.mem E i := by
  rcases hw with ⟨_, rfl, _⟩ | ⟨ho, rfl, rfl⟩
  · rfl
  · have hET : E ≠ T := fun e => h.dir_free E hE (e ▸ List.mem_cons_self)
    simp only [Kern.addTable, Kern.write_mem, Kern.setRef_mem, Kern.clear_mem, Kern.pop_mem]
    rw [Mem.set_of_ne _ hi, Mem.clear_of_ne _ hET]

theorem walkTo_mapped (h : Wf dirs ix s free) (hD : D ∈ dirs) (hi : pdx va ∈ ix)
    (hw : WalkTo D va s free T s' free') : mapped s'.mem D va = mapped s.mem D va := by
  rw [mapped_eq_pte, mapped_eq_pte, h.pte_walkTo hD hw hD hi]

theorem checkVa2pa_eq (h : Wf dirs ix s free) (hE : E ∈ dirs) (ha : pdx a ∈ ix) :
    s.checkVa2pa (kva E) a = .ok ((pte s.mem E a).elim (~~~0) pteAddr) := by
  cases ht : target (s.mem E (pdx a)) with
  | none => rw [Kern.checkVa2pa_absent (h.dir_lt E hE) ht, pte_none ht, Option.elim_none]
  | some T =>
    have hT := table_of_dir hE ha ht
    rw [Kern.checkVa2pa_table (h.dir_lt E hE) ht (h.table_lt T hT) (h.table_lt' hT), pte_eq ht]
    cases hq : target (s.mem T (ptx a)) with
    | none => rw [if_pos rfl, present_eq_none.mpr hq, Option.elim_none]
    | some q => rw [if_neg (Option.some_ne_none q), present_of_target hq, Option.elim_some]

end Wf

end Jos
