import Jos.Pmap

/-!
# What each page operation does

One equation for each way through a function of `kern/pmap.c`: the result and
the state left, in terms of the accesses of `Kern`. Later proofs use these
equations and never unfold the functions. `target w` reads an entry as the page
it refers to.
-/

namespace Jos

def target (w : Word) : Option Nat := if w &&& pteP = 0 then none else some (pgnum w)

theorem target_eq_none {w : Word} : target w = none ↔ w &&& pteP = 0 := by
  unfold target; split <;> simp_all

theorem target_eq_some {w : Word} {T : Nat} : target w = some T ↔ w &&& pteP ≠ 0 ∧ pgnum w = T := by
  unfold target; split <;> simp_all

@[simp] theorem target_zero : target 0 = none := rfl

theorem target_or {a f : Word} (ha : a.toNat % 4096 = 0) (hf : f.toNat < 4096) (hP : f &&& pteP ≠ 0) :
    target (a ||| f) = some (pgnum a) := by
  rw [target_eq_some, or_flags_and ha (by decide)]
  exact ⟨hP, pgnum_or_flags ha hf⟩

def tableFlags : Word := pteP ||| pteW ||| pteU

theorem or_tableFlags (a : Word) : a ||| pteP ||| pteW ||| pteU = a ||| tableFlags := by
  simp only [tableFlags, BitVec.or_assoc]

theorem target_table {T : Nat} (hT : T < 1048576) : target (page2pa T ||| tableFlags) = some T := by
  rw [target_or (page2pa_aligned T) (by decide) (by decide), pgnum_page2pa hT]

theorem or_perm_and (perm : Word) : (perm ||| pteP) &&& pteP ≠ 0 := by
  rw [BitVec.and_comm, BitVec.and_or_distrib_left, BitVec.and_self]
  intro h
  have := congrArg (BitVec.getLsbD · 0) h
  simp [pteP] at this

theorem target_perm {a perm : Word} (ha : a.toNat % 4096 = 0) (hp : perm.toNat < 4096) :
    target (a ||| perm ||| pteP) = some (pgnum a) := by
  rw [BitVec.or_assoc]
  exact target_or ha (or_flags_lt hp (by decide)) (or_perm_and perm)

theorem target_pte {pp : Nat} {perm : Word} (hpp : pp < 1048576) (hp : perm.toNat < 4096) :
    target (page2pa pp ||| perm ||| pteP) = some pp := by
  rw [target_perm (page2pa_aligned pp) hp, pgnum_page2pa hpp]

theorem paddr_kva {pp : Nat} (h : pp < 65536) : paddr (kva pp) = .ok (page2pa pp) := by
  rw [paddr, if_neg (Kern.kva_not_lt h), kva_sub]

namespace Kern

/-! ## The allocator -/

def pop (s : Kern) (pp : Nat) : Kern := { s with pageFreeList := s.link pp }.setLink pp none

def push (s : Kern) (pp : Nat) : Kern := { s.setLink pp s.pageFreeList with pageFreeList := some pp }

section
variable (s : Kern) (pp : Nat)

@[simp] theorem pop_mem : (s.pop pp).mem = s.mem := rfl
@[simp] theorem pop_npages : (s.pop pp).npages = s.npages := rfl
@[simp] theorem pop_ref : (s.pop pp).ref = s.ref := by rw [pop, setLink_ref]; rfl
@[simp] theorem pop_pageFreeList : (s.pop pp).pageFreeList = s.link pp := rfl
@[simp] theorem pop_log : (s.pop pp).log = s.log := rfl
theorem pop_link : (s.pop pp).link = Function.update s.link pp none := by rw [pop, setLink_link]; rfl

@[simp] theorem push_mem : (s.push pp).mem = s.mem := rfl
@[simp] theorem push_npages : (s.push pp).npages = s.npages := rfl
@[simp] theorem push_ref : (s.push pp).ref = s.ref := setLink_ref s pp s.pageFreeList
@[simp] theorem push_pageFreeList : (s.push pp).pageFreeList = some pp := rfl
@[simp] theorem push_log : (s.push pp).log = s.log := rfl
theorem push_link : (s.push pp).link = Function.update s.link pp s.pageFreeList :=
  setLink_link s pp s.pageFreeList

end

theorem kaddr_page2pa (s : Kern) {T : Nat} (h : T < 1048576) (hT : T < s.npages) :
    s.kaddr (page2pa T) = .ok (kva T) := by
  rw [kaddr, pgnum_page2pa h, if_neg (by omega), page2pa_add]

section
variable {s : Kern} {pp : Nat}

theorem pageAlloc_none (h : s.pageFreeList = none) (f : Word) : s.pageAlloc f = .ok (none, s) := by
  rw [pageAlloc, h]; rfl

theorem pageAlloc_zero (h : s.pageFreeList = some pp) : s.pageAlloc 0 = .ok (some pp, s.pop pp) := by
  rw [pageAlloc, h]; rfl

theorem pageAlloc_clear (h : s.pageFreeList = some pp) {f : Word} (hf : f ≠ 0) (hn : pp < s.npages)
    (hp : pp < 65536) : s.pageAlloc f = .ok (some pp, (s.pop pp).clear pp) := by
  have hk : (s.pop pp).page2kva pp = .ok (kva pp) := kaddr_page2pa _ (by omega) hn
  have hc : f ≠ 0 ∧ allocZero ≠ 0 := ⟨hf, by decide⟩
  have he : ({ s with pageFreeList := s.link pp } : Kern).setLink pp none = s.pop pp := rfl
  rw [pageAlloc, h]
  simp only [if_pos hc, he, hk, ok_bind, memset0_kva _ hp, pure_ok]

theorem pageAlloc_error (h : s.pageFreeList = some pp) {f : Word} (hf : f ≠ 0) (hp : pp < 1048576)
    (hn : ¬ (pp < s.npages ∧ pp < 65536)) : ∃ e, s.pageAlloc f = .error e := by
  have hc : f ≠ 0 ∧ allocZero ≠ 0 := ⟨hf, by decide⟩
  have he : ({ s with pageFreeList := s.link pp } : Kern).setLink pp none = s.pop pp := rfl
  rw [pageAlloc, h]
  simp only [if_pos hc, he, page2kva, kaddr, pgnum_page2pa hp, pop_npages]
  by_cases hlt : pp ≥ s.npages
  · exact ⟨_, by rw [if_pos hlt]; rfl⟩
  · have hb : kva pp < kernbase := by
      rw [BitVec.lt_def, kva_toNat_mod, kernbase_toNat]; omega
    exact ⟨_, by rw [if_neg hlt, ok_bind, page2pa_add, memset0, if_pos hb]; rfl⟩

theorem pageAlloc_cases {f : Word} {r : Option Nat} {k : Kern} (h : s.pageAlloc f = .ok (r, k)) :
    (r = none ∧ s.pageFreeList = none ∧ k = s) ∨
    (∃ q, r = some q ∧ s.pageFreeList = some q ∧ (k = s.pop q ∨ ∃ c, k = (s.pop q).clear c)) := by
  cases hf : s.pageFreeList with
  | none =>
    rw [pageAlloc_none hf, Except.ok.injEq, Prod.mk.injEq] at h
    exact Or.inl ⟨h.1.symm, rfl, h.2.symm⟩
  | some q =>
    refine Or.inr ⟨q, ?_⟩
    by_cases h0 : f = 0
    · subst h0
      rw [pageAlloc_zero hf, Except.ok.injEq, Prod.mk.injEq] at h
      exact ⟨h.1.symm, rfl, Or.inl h.2.symm⟩
    · have hc : f ≠ 0 ∧ allocZero ≠ 0 := ⟨h0, by decide⟩
      have he : ({ s with pageFreeList := s.link q } : Kern).setLink q none = s.pop q := rfl
      rw [pageAlloc, hf] at h
      simp only [if_pos hc, he] at h
      obtain ⟨a, _, h⟩ := bind_eq_ok.mp h
      obtain ⟨t, ha, hr⟩ := bind_eq_ok.mp h
      rw [pure_ok, Except.ok.injEq, Prod.mk.injEq] at hr
      rw [memset0] at ha
      by_cases hlt : a < kernbase
      · rw [if_pos hlt] at ha; cases ha
      · rw [if_neg hlt, Except.ok.injEq] at ha
        exact ⟨hr.1.symm, rfl, Or.inr ⟨_, by rw [← hr.2, ← ha]⟩⟩

theorem pageFree_ok (hr : s.ref pp = 0) (hl : s.link pp = none) : s.pageFree pp = .ok (s.push pp) := by
  rw [pageFree, if_pos ⟨hr, hl⟩]; rfl

def dropRef (s : Kern) (pp : Nat) : Kern :=
  if s.ref pp - 1 = 0 then (s.setRef pp (s.ref pp - 1)).push pp else s.setRef pp (s.ref pp - 1)

theorem pageDecref_eq (hl : s.ref pp - 1 = 0 → s.link pp = none) : s.pageDecref pp = .ok (s.dropRef pp) := by
  unfold pageDecref dropRef
  simp only [setRef_ref, Function.update_self]
  by_cases h : s.ref pp - 1 = 0
  · rw [if_pos h, if_pos h]
    exact pageFree_ok (by rw [setRef_ref, Function.update_self, h]) (by rw [setRef_link, hl h])
  · rw [if_neg h, if_neg h, pure_ok]

@[simp] theorem dropRef_mem (s : Kern) (pp : Nat) : (s.dropRef pp).mem = s.mem := by
  unfold dropRef; split <;> rfl

@[simp] theorem dropRef_npages (s : Kern) (pp : Nat) : (s.dropRef pp).npages = s.npages := by
  unfold dropRef; split <;> rfl

@[simp] theorem dropRef_log (s : Kern) (pp : Nat) : (s.dropRef pp).log = s.log := by
  unfold dropRef; split <;> rfl

theorem dropRef_ref (s : Kern) (pp : Nat) : (s.dropRef pp).ref = Function.update s.ref pp (s.ref pp - 1) := by
  unfold dropRef
  split
  · rw [push_ref, setRef_ref]
  · rw [setRef_ref]

theorem dropRef_write (s : Kern) (pp T j : Nat) (v : Word) :
    (s.dropRef pp).write T j v = (s.write T j v).dropRef pp := by
  unfold dropRef
  rw [write_ref]
  split <;> rfl

end

/-! ## Page tables -/

def addTable (s : Kern) (D T : Nat) (va : Word) : Kern :=
  (((s.pop T).clear T).setRef T (s.ref T + 1)).write D (pdx va) (page2pa T ||| tableFlags)

theorem addTable_npages (s : Kern) (D T : Nat) (va : Word) : (s.addTable D T va).npages = s.npages := by
  rw [addTable, write_npages, setRef_npages, clear_npages, pop_npages]

theorem addTable_dir {s : Kern} {D T : Nat} {va : Word} (hne : D ≠ T) (i : Nat) : (s.addTable D T va).mem D i =
    if i = pdx va then page2pa T ||| tableFlags else s.mem D i := by
  rw [addTable, write_mem]
  split
  · rename_i h
    rw [h, Mem.set_self]
  · rename_i h
    rw [Mem.set_of_ne _ fun e => h (Prod.mk.inj e).2, setRef_mem, clear_mem, Mem.clear_of_ne _ hne, pop_mem]

theorem addTable_entry {s : Kern} {D T : Nat} {va : Word} (hne : D ≠ T) {j : Nat} (hj : j < nptentries) :
    (s.addTable D T va).mem T j = 0 := by
  rw [addTable, write_mem, Mem.set_of_page_ne _ hne.symm, setRef_mem, clear_mem, Mem.clear_self _ hj]

section
variable {s : Kern} {D T : Nat} {va : Word} {create : Bool} (hD : D < 65536)
include hD

theorem pgdirWalk_present (h : target (s.mem D (pdx va)) = some T) (hT : T < s.npages) :
    s.pgdirWalk (kva D) va create = .ok (some (entry (kva T) (ptx va)), s) := by
  obtain ⟨hP, hg⟩ := target_eq_some.mp h
  have hlt : T < 1048576 := by rw [← hg]; exact pgnum_lt _
  simp only [pgdirWalk, load_entry s hD (pdx_lt va), ok_bind, if_pos hP]
  simp only [pteAddr_eq_page2pa, hg, kaddr_page2pa s hlt hT, ok_bind, pure_ok]

theorem pgdirWalk_absent (h : target (s.mem D (pdx va)) = none) :
    s.pgdirWalk (kva D) va false = .ok (none, s) := by
  rw [target_eq_none] at h
  simp only [pgdirWalk, load_entry s hD (pdx_lt va), ok_bind, h, ne_eq, not_true, if_false,
    Bool.not_false, if_true, pure_ok]

theorem pgdirWalk_noMem (h : target (s.mem D (pdx va)) = none) (hf : s.pageFreeList = none) :
    s.pgdirWalk (kva D) va true = .ok (none, s) := by
  rw [target_eq_none] at h
  simp only [pgdirWalk, load_entry s hD (pdx_lt va), ok_bind, h, pageAlloc_none hf, ne_eq, not_true,
    if_false, Bool.not_true, Bool.false_eq_true, pure_ok]

theorem pgdirWalk_error (h : target (s.mem D (pdx va)) = none) (hf : s.pageFreeList = some T) (hT : T < 1048576)
    (hn : ¬ (T < s.npages ∧ T < 65536)) : ∃ e, s.pgdirWalk (kva D) va true = .error e := by
  rw [target_eq_none] at h
  obtain ⟨e, he⟩ := pageAlloc_error hf (by decide : (1 : Word) ≠ 0) hT hn
  refine ⟨e, ?_⟩
  simp only [pgdirWalk, load_entry s hD (pdx_lt va), ok_bind, h, he, error_bind, ne_eq, not_true, if_false,
    Bool.not_true, Bool.false_eq_true]

theorem pgdirWalk_create (h : target (s.mem D (pdx va)) = none) (hf : s.pageFreeList = some T)
    (hn : T < s.npages) (hT : T < 65536) :
    s.pgdirWalk (kva D) va true = .ok (some (entry (kva T) (ptx va)), s.addTable D T va) := by
  rw [target_eq_none] at h
  have hk : ((s.pop T).clear T).page2kva T = .ok (kva T) := kaddr_page2pa _ (by omega) hn
  simp only [pgdirWalk, load_entry s hD (pdx_lt va), ok_bind, h,
    pageAlloc_clear hf (by decide : (1 : Word) ≠ 0) hn hT, hk, paddr_kva hT,
    store_entry _ hD (pdx_lt va), or_tableFlags, ne_eq, not_true, if_false, Bool.not_true,
    Bool.false_eq_true, pure_ok, clear_ref, pop_ref, addTable]

end

section
variable {s : Kern} {D T q : Nat} {va : Word} (hD : D < 65536)
include hD

theorem pageLookup_absent (h : target (s.mem D (pdx va)) = none) :
    s.pageLookup (kva D) va = .ok (none, s) := by
  simp only [pageLookup, pgdirWalk_absent hD h, ok_bind, pure_ok]

/-- With a page table, `page_lookup` never answers NULL: it reads the page number
of the entry, present or not. -/
theorem pageLookup_table (h : target (s.mem D (pdx va)) = some T) (hn : T < s.npages) (hT : T < 65536)
    (hq : pgnum (s.mem T (ptx va)) = q) (hqn : q < s.npages) :
    s.pageLookup (kva D) va = .ok (some (q, entry (kva T) (ptx va)), s) := by
  subst hq
  have hp : s.pa2page (pteAddr (s.mem T (ptx va))) = .ok (pgnum (s.mem T (ptx va))) := by
    rw [pa2page, pgnum_pteAddr, if_neg (by omega)]
  simp only [pageLookup, pgdirWalk_present hD h hn, ok_bind, load_entry s hT (ptx_lt va), hp, pure_ok]

theorem checkVa2pa_absent (h : target (s.mem D (pdx va)) = none) : s.checkVa2pa (kva D) va = .ok (~~~0) := by
  rw [target_eq_none] at h
  simp only [checkVa2pa, load_entry s hD (pdx_lt va), ok_bind, if_pos h, pure_ok]

theorem checkVa2pa_table (h : target (s.mem D (pdx va)) = some T) (hn : T < s.npages) (hT : T < 65536) :
    s.checkVa2pa (kva D) va =
      .ok (if target (s.mem T (ptx va)) = none then ~~~0 else pteAddr (s.mem T (ptx va))) := by
  obtain ⟨hP, hg⟩ := target_eq_some.mp h
  simp only [checkVa2pa, load_entry s hD (pdx_lt va), ok_bind, if_neg hP, pteAddr_eq_page2pa, hg,
    kaddr_page2pa s (by omega : T < 1048576) hn, load_entry s hT (ptx_lt va), target_eq_none]
  split <;> rfl

theorem pageRemove_absent (h : target (s.mem D (pdx va)) = none) : s.pageRemove (kva D) va = .ok s := by
  simp only [pageRemove, pageLookup_absent hD h, ok_bind, pure_ok]

theorem pageRemove_table (h : target (s.mem D (pdx va)) = some T) (hn : T < s.npages) (hT : T < 65536)
    (hq : pgnum (s.mem T (ptx va)) = q) (hqn : q < s.npages) {s' : Kern} (hd : s.pageDecref q = .ok s') :
    s.pageRemove (kva D) va = .ok ((s'.write T (ptx va) 0).invlpg va) := by
  simp only [pageRemove, pageLookup_table hD h hn hT hq hqn, ok_bind, hd, store_entry s' hT (ptx_lt va),
    tlbInvalidate, pure_ok]

end

section
variable {s s' : Kern} {D T pp : Nat} {va perm : Word}

theorem pageInsert_noMem (h : s.pgdirWalk (kva D) va true = .ok (none, s')) :
    s.pageInsert (kva D) pp va perm = .ok (-eNoMem, s') := by
  simp only [pageInsert, h, ok_bind, pure_ok]

variable (hw : s.pgdirWalk (kva D) va true = .ok (some (entry (kva T) (ptx va)), s')) (hT : T < 65536)
include hw hT

theorem pageInsert_fresh (hP : target (s'.mem T (ptx va)) = none) :
    s.pageInsert (kva D) pp va perm =
      .ok (0, (s'.setRef pp (s'.ref pp + 1)).write T (ptx va) (page2pa pp ||| perm ||| pteP)) := by
  rw [target_eq_none] at hP
  simp only [pageInsert, hw, ok_bind, load_entry _ hT (ptx_lt va), setRef_mem, hP, ne_eq, not_true,
    if_false, store_entry _ hT (ptx_lt va), pure_ok]

theorem pageInsert_replace (hP : target (s'.mem T (ptx va)) ≠ none) {t : Kern}
    (hr : (s'.setRef pp (s'.ref pp + 1)).pageRemove (kva D) va = .ok t) :
    s.pageInsert (kva D) pp va perm =
      .ok (0, t.write T (ptx va) (page2pa pp ||| perm ||| pteP)) := by
  rw [ne_eq, target_eq_none] at hP
  simp only [pageInsert, hw, ok_bind, load_entry _ hT (ptx_lt va), setRef_mem, if_pos hP, hr,
    store_entry _ hT (ptx_lt va), ne_eq, pure_ok]

end

/-! ## A mapping with a new table -/

def insertNew (s : Kern) (D T p : Nat) (va w : Word) : Kern :=
  ((s.addTable D T va).setRef p ((s.addTable D T va).ref p + 1)).write T (ptx va) w

variable {s : Kern} {D T p : Nat} {va w perm : Word}

theorem pageInsert_new (hD : D < 65536) (ho : target (s.mem D (pdx va)) = none) (hf : s.pageFreeList = some T)
    (hn : T < s.npages) (hT : T < 65536) (hne : D ≠ T) :
    s.pageInsert (kva D) p va perm = .ok (0, s.insertNew D T p va (page2pa p ||| perm ||| pteP)) := by
  refine pageInsert_fresh (pgdirWalk_create hD ho hf hn hT) hT ?_
  rw [addTable_entry hne (ptx_lt va), target_zero]

theorem insertNew_mem : (s.insertNew D T p va w).mem =
    ((s.mem.clear T).set D (pdx va) (page2pa T ||| tableFlags)).set T (ptx va) w := by
  rw [insertNew, write_mem, setRef_mem, addTable, write_mem, setRef_mem, clear_mem, pop_mem]

theorem insertNew_dir (hne : D ≠ T) (i : Nat) : (s.insertNew D T p va w).mem D i =
    if i = pdx va then page2pa T ||| tableFlags else s.mem D i := by
  rw [insertNew, write_mem, Mem.set_of_page_ne _ hne, setRef_mem, addTable_dir hne]

theorem insertNew_ref (hne : p ≠ T) (q : Nat) : (s.insertNew D T p va w).ref q =
    if q = p then s.ref p + 1 else if q = T then s.ref T + 1 else s.ref q := by
  rw [insertNew, write_ref, setRef_ref, addTable, write_ref, setRef_ref, Function.update_of_ne hne, clear_ref, pop_ref,
    Function.update_apply, Function.update_apply]

theorem insertNew_npages : (s.insertNew D T p va w).npages = s.npages := by
  rw [insertNew, write_npages, setRef_npages, addTable_npages]

theorem insertNew_chain : (s.insertNew D T p va w).link = (s.pop T).link ∧
    (s.insertNew D T p va w).pageFreeList = (s.pop T).pageFreeList := by
  constructor
  · rw [insertNew, write_link, setRef_link, addTable, write_link, setRef_link, clear_link]
  · rw [insertNew, write_pageFreeList, setRef_pageFreeList, addTable, write_pageFreeList, setRef_pageFreeList,
      clear_pageFreeList]

end Kern

end Jos
