import Jos.Mmu
import Mathlib.Logic.Function.Basic

/-!
# The state of the memory system

The globals of `kern/pmap.c`, physical memory as pages of 1024 words, and the
accesses the code makes to them. Kernel code reaches physical memory through
its window at `KERNBASE`; a pointer below it is a fault. A `struct PageInfo *`
is its index in `pages`, and NULL is `none`.

`log` records, in program order, what the processor's paging unit can see of
the kernel's work: the stores to physical memory and the `invlpg`s.
-/

namespace Jos

/-- How the kernel stops: a call of `panic`, or a fault. -/
inductive Panic where
  | paddr (kva : Word)
  | kaddr (pa : Word)
  | pa2page
  | pageFree
  | bootMapRegion
  | fault (va : Word)
  deriving DecidableEq, Repr

/-- The format string the source gives to `panic`; a fault has none. -/
def Panic.fmt : Panic → Option String
  | .paddr _ => some "PADDR called with invalid kva %08lx"
  | .kaddr _ => some "KADDR called with invalid pa %08lx"
  | .pa2page => some "pa2page called with invalid pa"
  | .pageFree => some "This page is being used!\n"
  | .bootMapRegion => some "boot_map_region:out ouf memory!\n"
  | .fault _ => none

@[simp] theorem ok_bind {α β : Type} (a : α) (f : α → Except Panic β) : (Except.ok a >>= f) = f a :=
  (rfl)

@[simp] theorem error_bind {α β : Type} (e : Panic) (f : α → Except Panic β) :
    ((Except.error e : Except Panic α) >>= f) = .error e :=
  (rfl)

@[simp] theorem pure_ok {α : Type} (a : α) : (pure a : Except Panic α) = .ok a := (rfl)

theorem bind_eq_ok {α β : Type} {x : Except Panic α} {f : α → Except Panic β} {b : β} :
    x >>= f = .ok b ↔ ∃ a, x = .ok a ∧ f a = .ok b := by
  cases x with
  | error e => simp
  | ok a => simp

structure PageInfo where
  ppLink : Option Nat
  ppRef : BitVec 16
  deriving DecidableEq, Repr

/-- What the paging unit sees: word `i` of page `pp` stored, or a flush. -/
inductive HwEvent where
  | store (pp i : Nat) (v : Word)
  | invlpg (va : Word)
  deriving DecidableEq, Repr

abbrev Mem := Nat → Nat → Word

def Mem.set (m : Mem) (pp i : Nat) (v : Word) : Mem := fun q j => if q = pp ∧ j = i then v else m q j

def Mem.clear (m : Mem) (pp : Nat) : Mem := fun q j => if q = pp ∧ j < nptentries then 0 else m q j

theorem Mem.set_self (m : Mem) (pp i : Nat) (v : Word) : m.set pp i v pp i = v := by simp [Mem.set]

theorem Mem.set_of_ne (m : Mem) {pp i q j : Nat} (h : (q, j) ≠ (pp, i)) (v : Word) : m.set pp i v q j = m q j := by
  rw [Mem.set, if_neg fun e => h (Prod.ext e.1 e.2)]

theorem Mem.set_of_page_ne (m : Mem) {pp i q : Nat} (h : q ≠ pp) (v : Word) (j : Nat) :
    m.set pp i v q j = m q j :=
  Mem.set_of_ne m (fun e => h (congrArg Prod.fst e)) v

theorem Mem.set_of_index_ne (m : Mem) {pp q i j : Nat} (h : j ≠ i) (v : Word) : m.set pp i v q j = m q j :=
  Mem.set_of_ne m (fun e => h (congrArg Prod.snd e)) v

theorem Mem.set_set (m : Mem) (pp i : Nat) (v w : Word) : (m.set pp i v).set pp i w = m.set pp i w := by
  funext q j
  by_cases h : (q, j) = (pp, i)
  · cases h
    rw [Mem.set_self, Mem.set_self]
  · rw [Mem.set_of_ne _ h, Mem.set_of_ne _ h, Mem.set_of_ne _ h]

theorem Mem.set_eq_self (m : Mem) (pp i : Nat) : m.set pp i (m pp i) = m := by
  funext q j
  by_cases h : (q, j) = (pp, i)
  · cases h
    rw [Mem.set_self]
  · rw [Mem.set_of_ne _ h]

theorem Mem.clear_self (m : Mem) {pp j : Nat} (h : j < nptentries) : m.clear pp pp j = 0 := by
  rw [Mem.clear, if_pos ⟨rfl, h⟩]

theorem Mem.clear_of_ne (m : Mem) {pp q : Nat} (h : q ≠ pp) (j : Nat) : m.clear pp q j = m q j := by
  rw [Mem.clear, if_neg fun e => h e.1]

structure Kern where
  npages : Nat
  npagesBasemem : Nat
  kernPgdir : Word
  pagesVa : Word
  pages : Nat → PageInfo
  pageFreeList : Option Nat
  /-- `boot_alloc`'s static variable. -/
  nextfree : Word
  kend : Word
  bootstack : Word
  cr3 : Word
  mem : Mem
  log : List HwEvent

namespace Kern

/-! ## Physical memory -/

def write (s : Kern) (pp i : Nat) (v : Word) : Kern :=
  { s with
    mem := s.mem.set pp i v
    log := s.log ++ [.store pp i v] }

def clear (s : Kern) (pp : Nat) : Kern :=
  { s with
    mem := s.mem.clear pp
    log := s.log ++ (List.range nptentries).map fun i => .store pp i 0 }

def load (s : Kern) (a : Word) : Except Panic Word :=
  if a < kernbase then .error (.fault a)
  else .ok (s.mem (pgnum (a - kernbase)) ((pgoff (a - kernbase)).toNat / 4))

def store (s : Kern) (a v : Word) : Except Panic Kern :=
  if a < kernbase then .error (.fault a)
  else .ok (s.write (pgnum (a - kernbase)) ((pgoff (a - kernbase)).toNat / 4) v)

def memset0 (s : Kern) (a : Word) : Except Panic Kern :=
  if a < kernbase then .error (.fault a) else .ok (s.clear (pgnum (a - kernbase)))

def invlpg (s : Kern) (va : Word) : Kern := { s with log := s.log ++ [.invlpg va] }

/-! ## Page descriptors -/

def setRef (s : Kern) (pp : Nat) (r : BitVec 16) : Kern :=
  { s with pages := Function.update s.pages pp { s.pages pp with ppRef := r } }

def setLink (s : Kern) (pp : Nat) (l : Option Nat) : Kern :=
  { s with pages := Function.update s.pages pp { s.pages pp with ppLink := l } }

def ref (s : Kern) (pp : Nat) : BitVec 16 := (s.pages pp).ppRef

def link (s : Kern) (pp : Nat) : Option Nat := (s.pages pp).ppLink

/-! ## What each access changes -/

section
variable (s : Kern) (pp i : Nat) (v : Word) (r : BitVec 16) (l : Option Nat)

@[simp] theorem write_mem : (s.write pp i v).mem = s.mem.set pp i v := rfl
@[simp] theorem write_npages : (s.write pp i v).npages = s.npages := rfl
@[simp] theorem write_pages : (s.write pp i v).pages = s.pages := rfl
@[simp] theorem write_ref : (s.write pp i v).ref = s.ref := rfl
@[simp] theorem write_link : (s.write pp i v).link = s.link := rfl
@[simp] theorem write_pageFreeList : (s.write pp i v).pageFreeList = s.pageFreeList := rfl
@[simp] theorem write_kernPgdir : (s.write pp i v).kernPgdir = s.kernPgdir := rfl
@[simp] theorem write_pagesVa : (s.write pp i v).pagesVa = s.pagesVa := rfl
@[simp] theorem write_bootstack : (s.write pp i v).bootstack = s.bootstack := rfl
@[simp] theorem write_nextfree : (s.write pp i v).nextfree = s.nextfree := rfl
@[simp] theorem write_kend : (s.write pp i v).kend = s.kend := rfl
@[simp] theorem write_log : (s.write pp i v).log = s.log ++ [.store pp i v] := rfl

@[simp] theorem clear_kernPgdir : (s.clear pp).kernPgdir = s.kernPgdir := rfl
@[simp] theorem clear_nextfree : (s.clear pp).nextfree = s.nextfree := rfl
@[simp] theorem clear_kend : (s.clear pp).kend = s.kend := rfl
@[simp] theorem clear_mem : (s.clear pp).mem = s.mem.clear pp := rfl
@[simp] theorem clear_npages : (s.clear pp).npages = s.npages := rfl
@[simp] theorem clear_pages : (s.clear pp).pages = s.pages := rfl
@[simp] theorem clear_ref : (s.clear pp).ref = s.ref := rfl
@[simp] theorem clear_link : (s.clear pp).link = s.link := rfl
@[simp] theorem clear_log :
    (s.clear pp).log = s.log ++ (List.range nptentries).map fun i => .store pp i 0 := rfl
@[simp] theorem clear_pageFreeList : (s.clear pp).pageFreeList = s.pageFreeList := rfl

@[simp] theorem invlpg_mem : (s.invlpg v).mem = s.mem := rfl
@[simp] theorem invlpg_npages : (s.invlpg v).npages = s.npages := rfl
@[simp] theorem invlpg_pages : (s.invlpg v).pages = s.pages := rfl
@[simp] theorem invlpg_ref : (s.invlpg v).ref = s.ref := rfl
@[simp] theorem invlpg_link : (s.invlpg v).link = s.link := rfl
@[simp] theorem invlpg_pageFreeList : (s.invlpg v).pageFreeList = s.pageFreeList := rfl
@[simp] theorem invlpg_log : (s.invlpg v).log = s.log ++ [.invlpg v] := rfl

@[simp] theorem setRef_mem : (s.setRef pp r).mem = s.mem := rfl
@[simp] theorem setRef_npages : (s.setRef pp r).npages = s.npages := rfl
@[simp] theorem setRef_pageFreeList : (s.setRef pp r).pageFreeList = s.pageFreeList := rfl
@[simp] theorem setRef_log : (s.setRef pp r).log = s.log := rfl

theorem setRef_ref : (s.setRef pp r).ref = Function.update s.ref pp r := by
  funext q
  by_cases h : q = pp
  · subst h; simp [ref, setRef]
  · simp [ref, setRef, h]

@[simp] theorem setRef_link : (s.setRef pp r).link = s.link := by
  funext q
  by_cases h : q = pp
  · subst h; simp [link, setRef]
  · simp [link, setRef, h]

@[simp] theorem setLink_mem : (s.setLink pp l).mem = s.mem := rfl
@[simp] theorem setLink_npages : (s.setLink pp l).npages = s.npages := rfl
@[simp] theorem setLink_pageFreeList : (s.setLink pp l).pageFreeList = s.pageFreeList := rfl
@[simp] theorem setLink_log : (s.setLink pp l).log = s.log := rfl

theorem setLink_link : (s.setLink pp l).link = Function.update s.link pp l := by
  funext q
  by_cases h : q = pp
  · subst h; simp [link, setLink]
  · simp [link, setLink, h]

@[simp] theorem setLink_ref : (s.setLink pp l).ref = s.ref := by
  funext q
  by_cases h : q = pp
  · subst h; simp [ref, setLink]
  · simp [ref, setLink, h]

end

/-! ## Accesses through the window -/

theorem store_entry_ok {s k : Kern} {pp i : Nat} {v : Word} (hp : pp < 1048576) (hi : i < 1024)
    (h : s.store (entry (kva pp) i) v = .ok k) : k = s.write pp i v := by
  have he : (entry (kva pp) i - kernbase).toNat = pp * 4096 + 4 * i := by
    rw [entry_kva_sub, BitVec.toNat_add, page2pa_toNat, BitVec.toNat_ofNat]; omega
  rw [store] at h
  split at h
  · cases h
  · rw [Except.ok.injEq] at h
    have h1 : pgnum (entry (kva pp) i - kernbase) = pp := by rw [pgnum_eq, he]; omega
    have h2 : (pgoff (entry (kva pp) i - kernbase)).toNat / 4 = i := by rw [pgoff_toNat, he]; omega
    rw [← h, h1, h2]

section
variable (s : Kern) {pp i : Nat} (hp : pp < 65536) (hi : i < 1024)
include hp

theorem kva_not_lt : ¬ kva pp < kernbase := by
  rw [BitVec.lt_def, kva_toNat hp, kernbase_toNat]; omega

theorem memset0_kva : s.memset0 (kva pp) = .ok (s.clear pp) := by
  rw [memset0, if_neg (kva_not_lt hp), kva_sub, pgnum_page2pa (by omega)]

include hi

theorem entry_split : ¬ entry (kva pp) i < kernbase ∧ pgnum (entry (kva pp) i - kernbase) = pp ∧
    (pgoff (entry (kva pp) i - kernbase)).toNat / 4 = i := by
  have he := entry_kva_toNat hp hi
  have hs : (entry (kva pp) i - kernbase).toNat = pp * 4096 + 4 * i := by
    rw [BitVec.toNat_sub, he, kernbase_toNat]; omega
  refine ⟨?_, ?_, ?_⟩
  · rw [BitVec.lt_def, he, kernbase_toNat]; omega
  · rw [pgnum_eq, hs]; omega
  · rw [pgoff_toNat, hs]; omega

theorem load_entry : s.load (entry (kva pp) i) = .ok (s.mem pp i) := by
  obtain ⟨h1, h2, h3⟩ := entry_split hp hi
  rw [load, if_neg h1, h2, h3]

theorem store_entry (v : Word) : s.store (entry (kva pp) i) v = .ok (s.write pp i v) := by
  obtain ⟨h1, h2, h3⟩ := entry_split hp hi
  rw [store, if_neg h1, h2, h3]

end

end Kern

end Jos
