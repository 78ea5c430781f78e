import Jos.PmapLemmas
import Jos.Lib.Traced

/-!
# The self-tests of `mem_init`

`mem_init` from `page_init` to the end of its maps, with the self-tests in between. They
run while the processor still uses `entry_pgdir`, so it matters which pages they touch:
the functions that touch pages are written here as computations that leave a trace,
of the pages `page_alloc` returns and of the addresses accessed in pages. Without the
trace they are the functions of `Jos.Pmap` (`forget_pgdirWalk` and the others).
`check_kern_pgdir`, which comes next and changes nothing, is in `Jos.KernCheck`.
-/

namespace Jos

namespace Kern

/-- `mem_init` between `i386_detect_memory` and `page_init`. -/
def memInitAlloc (s : Kern) : Except Panic Kern := do
  let (kernPgdir, s) := s.bootAlloc pgsize
  let s := { s with kernPgdir := kernPgdir }
  let s ← s.memset0 s.kernPgdir
  let pa ← paddr s.kernPgdir
  let s ← s.store (entry s.kernPgdir (pdx uvpt)) (pa ||| pteU ||| pteP)
  let (pagesVa, s) := s.bootAlloc (BitVec.ofNat 32 s.npages * sizeofPageInfo)
  let s := { s with pagesVa := pagesVa }
  s.memsetPages

theorem memInitBoot_eq (cmos : Nat → BitVec 8) (s : Kern) :
    s.memInitBoot cmos = (i386DetectMemory cmos s).memInitAlloc >>= pageInit := by
  unfold memInitBoot memInitAlloc
  simp only [bind_assoc]

def fill (s : Kern) (pp n : Nat) (v : Word) : Kern :=
  { s with
    mem := fun q j => if q = pp ∧ j < n then v else s.mem q j
    log := s.log ++ (List.range n).map fun i => .store pp i v }

/-- `memset(a, c, n)` for a page-aligned `a` and at most a page of whole words. -/
def memset (s : Kern) (a : Word) (c : Byte) (n : Nat) : Except Panic Kern :=
  if a < kernbase then .error (.fault a) else .ok (s.fill (pgnum (a - kernbase)) (n / 4) (c ++ c ++ c ++ c))

def loadByte (s : Kern) (a : Word) : Except Panic Byte :=
  if a < kernbase then .error (.fault a)
  else
    let off := (pgoff (a - kernbase)).toNat
    .ok ((s.mem (pgnum (a - kernbase)) (off / 4) >>> (8 * (off % 4))).setWidth 8)

end Kern

namespace Check

open Traced

inductive Event where
  | alloc (pp : Nat)
  /-- An access at the address, or to the page that starts there. -/
  | access (a : Word)
  deriving DecidableEq, Repr

/-- How the tests stop. `endless` is no way the source has: it is a free list longer than memory. -/
inductive Stop where
  | panic (p : Panic)
  | freeListNull
  | pagesNull
  | assertion (x : String)
  | endless
  deriving DecidableEq, Repr

def Stop.fmt : Stop → Option String
  | .panic p => p.fmt
  | .freeListNull => some "'page_free_list' is a null pointer!"
  | .pagesNull => some "'pages' is a null pointer!"
  | .assertion _ => some "assertion failed: %s"
  | .endless => none

abbrev Checked := Traced Event Stop Kern

/-! ## Accesses -/

section
variable {α : Type}

def step (f : Kern → Except Panic Kern) : Checked Unit :=
  lift fun s => ((f s).map fun t => ((), t)).mapError .panic

def read (f : Kern → Except Panic α) : Checked α :=
  lift fun s => ((f s).map fun a => (a, s)).mapError .panic

end

def require (c : Prop) [Decidable c] (e : Stop) : Checked Unit := if c then pure () else stop e

def assert (c : Prop) [Decidable c] (x : String) : Checked Unit := require c (.assertion x)

def load (a : Word) : Checked Word := do
  let v ← read (·.load a)
  emit (.access a)
  return v

def loadByte (a : Word) : Checked Byte := do
  let v ← read (·.loadByte a)
  emit (.access a)
  return v

def store (a v : Word) : Checked Unit := do
  step (·.store a v)
  emit (.access a)

def memset0 (a : Word) : Checked Unit := do
  step (·.memset0 a)
  emit (.access a)

def memset (a : Word) (c : Byte) (n : Nat) : Checked Unit := do
  step (·.memset a c n)
  emit (.access a)

/-! ## The functions of `kern/pmap.c` with their trace -/

def pageAlloc (allocFlags : Word) : Checked (Option Nat) := do
  let s ← get
  match s.pageFreeList with
  | none => return none
  | some allocSpace =>
    modify fun s => { s with pageFreeList := s.link allocSpace }
    modify (·.setLink allocSpace none)
    if allocFlags ≠ 0 ∧ allocZero ≠ 0 then
      let a ← read (·.page2kva allocSpace)
      memset0 a
    emit (.alloc allocSpace)
    return some allocSpace

def pgdirWalk (pgdir va : Word) (create : Bool) : Checked (Option Word) := do
  let pageDirEntry := entry pgdir (pdx va)
  let pde ← load pageDirEntry
  if pde &&& pteP ≠ 0 then
    let pageTableEntry ← read (·.kaddr (pteAddr pde))
    return some (entry pageTableEntry (ptx va))
  else if !create then return none
  else
    let pp ← pageAlloc 1
    match pp with
    | none => return none
    | some pp =>
      let pageTableEntry ← read (·.page2kva pp)
      modify fun s => s.setRef pp (s.ref pp + 1)
      let pa ← read fun _ => paddr pageTableEntry
      store pageDirEntry (pa ||| pteP ||| pteW ||| pteU)
      return some (entry pageTableEntry (ptx va))

def bootMapLoop (pgdir perm : Word) : Nat → Word → Word → Checked Unit
  | 0, _, _ => return ()
  | n + 1, va, pa => do
    let pte ← pgdirWalk pgdir va true
    match pte with
    | none => stop (.panic .bootMapRegion)
    | some pte =>
      store pte (pa ||| pteP ||| perm)
      bootMapLoop pgdir perm n (va + pgsize) (pa + pgsize)

def bootMapRegion (pgdir va size pa perm : Word) : Checked Unit :=
  let numpage := size / pgsize
  let numpage := if size % pgsize ≠ 0 then numpage + 1 else numpage
  bootMapLoop pgdir perm numpage.toNat va pa

def pageLookup (pgdir va : Word) : Checked (Option (Nat × Word)) := do
  let pt ← pgdirWalk pgdir va false
  match pt with
  | none => return none
  | some pt =>
    let pte ← load pt
    let pp ← read (·.pa2page (pteAddr pte))
    return some (pp, pt)

def pageRemove (pgdir va : Word) : Checked Unit := do
  let pageinfo ← pageLookup pgdir va
  match pageinfo with
  | none => return ()
  | some (pageinfo, pt) =>
    step (·.pageDecref pageinfo)
    store pt 0
    modify (·.tlbInvalidate va)

def pageInsert (pgdir : Word) (pp : Nat) (va perm : Word) : Checked Int := do
  let pt ← pgdirWalk pgdir va true
  match pt with
  | none => return -eNoMem
  | some pt =>
    modify fun s => s.setRef pp (s.ref pp + 1)
    let pte ← load pt
    if pte &&& pteP ≠ 0 then pageRemove pgdir va
    store pt (page2pa pp ||| perm ||| pteP)
    return 0

def checkVa2pa (pgdir va : Word) : Checked Word := do
  let pde ← load (entry pgdir (pdx va))
  if pde &&& pteP = 0 then return ~~~0
  else
    let p ← read (·.kaddr (pteAddr pde))
    let pte ← load (entry p (ptx va))
    if pte &&& pteP = 0 then return ~~~0
    else return pteAddr pte

def memInitMap : Checked Unit := do
  let s ← get
  let pa ← read fun s => paddr s.pagesVa
  bootMapRegion s.kernPgdir upages ptsize pa (pteU ||| pteP)
  let s ← get
  let pa ← read fun s => paddr s.bootstack
  bootMapRegion s.kernPgdir (kstacktop - kstksize) kstksize pa (pteW ||| pteP)
  let s ← get
  bootMapRegion s.kernPgdir kernbase (0xffffffff - kernbase) 0 (pteW ||| pteP)

/-! ## Without the trace -/

section
variable {α β : Type}

def stopped (x : Except Panic α) : Except Stop α := x.mapError .panic

@[simp] theorem stopped_ok (a : α) : stopped (.ok a) = .ok a := rfl

@[simp] theorem stopped_pure (a : α) : stopped (pure a) = .ok a := rfl

@[simp] theorem stopped_error (e : Panic) : stopped (.error e : Except Panic α) = .error (.panic e) := rfl

@[simp] theorem stopped_bind (x : Except Panic α) (f : α → Except Panic β) :
    stopped (x >>= f) = stopped x >>= fun a => stopped (f a) := by
  cases x with
  | error e => rfl
  | ok a => rfl

@[simp] theorem stop_ok_bind (a : α) (f : α → Except Stop β) : (Except.ok a >>= f) = f a := rfl

@[simp] theorem forget_step (f : Kern → Except Panic Kern) (s : Kern) :
    (step f).forget s = stopped (f s) >>= fun t => .ok ((), t) := by
  unfold step
  rw [forget_lift]
  cases f s with
  | error e => rfl
  | ok t => rfl

@[simp] theorem forget_read (f : Kern → Except Panic α) (s : Kern) :
    (read f).forget s = stopped (f s) >>= fun a => .ok (a, s) := by
  unfold read
  rw [forget_lift]
  cases f s with
  | error e => rfl
  | ok t => rfl

end

@[simp] theorem forget_load (a : Word) (s : Kern) : (load a).forget s = stopped (s.load a) >>= fun v => .ok (v, s) := by
  unfold load
  simp

@[simp] theorem forget_store (a v : Word) (s : Kern) :
    (store a v).forget s = stopped (s.store a v) >>= fun t => .ok ((), t) := by
  unfold store
  simp

@[simp] theorem forget_memset0 (a : Word) (s : Kern) :
    (memset0 a).forget s = stopped (s.memset0 a) >>= fun t => .ok ((), t) := by
  unfold memset0
  simp

@[simp] theorem forget_pageAlloc (f : Word) (s : Kern) : (pageAlloc f).forget s = stopped (s.pageAlloc f) := by
  unfold pageAlloc Kern.pageAlloc
  simp only [forget_bind, forget_get, stop_ok_bind]
  cases s.pageFreeList with
  | none => rfl
  | some p =>
    simp only [forget_bind, forget_modify, stop_ok_bind]
    by_cases h : f ≠ 0 ∧ allocZero ≠ 0
    · rw [if_pos h, if_pos h]
      simp
    · rw [if_neg h, if_neg h]
      simp

@[simp] theorem forget_pgdirWalk (pgdir va : Word) (create : Bool) (s : Kern) :
    (pgdirWalk pgdir va create).forget s = stopped (s.pgdirWalk pgdir va create) := by
  unfold pgdirWalk Kern.pgdirWalk
  simp only [forget_bind, forget_load, stopped_bind, bind_assoc, stop_ok_bind]
  congr 1
  funext pde
  split
  · simp
  · split
    · simp
    · simp only [forget_bind, forget_pageAlloc, stopped_bind]
      congr 1
      refine funext fun x => ?_
      obtain ⟨pp, t⟩ := x
      cases pp with
      | none => simp
      | some pp => simp

theorem forget_bootMapLoop (pgdir perm : Word) (n : Nat) (s : Kern) (va pa : Word) :
    (bootMapLoop pgdir perm n va pa).forget s =
      stopped (Kern.bootMapLoop pgdir perm n s va pa) >>= fun t => .ok ((), t) := by
  induction n generalizing s va pa with
  | zero => rfl
  | succ n ih =>
    unfold bootMapLoop Kern.bootMapLoop
    simp only [forget_bind, forget_pgdirWalk, stopped_bind, bind_assoc]
    congr 1
    refine funext fun x => ?_
    obtain ⟨pte, t⟩ := x
    cases pte with
    | none => rfl
    | some pte =>
      simp [ih]

theorem forget_bootMapRegion (pgdir va size pa perm : Word) (s : Kern) : (bootMapRegion pgdir va size pa perm).forget s =
    stopped (s.bootMapRegion pgdir va size pa perm) >>= fun t => .ok ((), t) := by
  unfold bootMapRegion Kern.bootMapRegion
  apply forget_bootMapLoop

@[simp] theorem forget_pageLookup (pgdir va : Word) (s : Kern) :
    (pageLookup pgdir va).forget s = stopped (s.pageLookup pgdir va) := by
  unfold pageLookup Kern.pageLookup
  simp only [forget_bind, forget_pgdirWalk, stopped_bind]
  congr 1
  refine funext fun x => ?_
  obtain ⟨pt, t⟩ := x
  cases pt with
  | none => simp
  | some pt => simp

@[simp] theorem forget_pageRemove (pgdir va : Word) (s : Kern) :
    (pageRemove pgdir va).forget s = stopped (s.pageRemove pgdir va) >>= fun t => .ok ((), t) := by
  unfold pageRemove Kern.pageRemove
  simp only [forget_bind, forget_pageLookup, stopped_bind, bind_assoc]
  congr 1
  refine funext fun x => ?_
  obtain ⟨x, t⟩ := x
  cases x with
  | none => simp
  | some x => simp

theorem forget_pageInsert (pgdir : Word) (pp : Nat) (va perm : Word) (s : Kern) :
    (pageInsert pgdir pp va perm).forget s = stopped (s.pageInsert pgdir pp va perm) := by
  unfold pageInsert Kern.pageInsert
  simp only [forget_bind, forget_pgdirWalk, stopped_bind]
  congr 1
  refine funext fun x => ?_
  obtain ⟨pt, t⟩ := x
  cases pt with
  | none => simp
  | some pt =>
    simp only [forget_bind, forget_modify, forget_load, stop_ok_bind, stopped_bind, bind_assoc]
    congr 1
    funext pte
    split
    · simp
    · simp

theorem forget_checkVa2pa (pgdir va : Word) (s : Kern) :
    (checkVa2pa pgdir va).forget s = stopped (s.checkVa2pa pgdir va) >>= fun a => .ok (a, s) := by
  unfold checkVa2pa Kern.checkVa2pa
  simp only [forget_bind, forget_load, stopped_bind, bind_assoc, stop_ok_bind]
  congr 1
  funext pde
  split
  · simp
  · simp only [forget_bind, forget_load, forget_read, stopped_bind, bind_assoc, stop_ok_bind]
    congr 1
    funext p
    congr 1
    funext pte
    split
    · simp
    · simp

theorem forget_memInitMap (s : Kern) : memInitMap.forget s = stopped s.memInitMap >>= fun t => .ok ((), t) := by
  unfold memInitMap Kern.memInitMap
  simp only [forget_bind, forget_get, forget_read, forget_bootMapRegion, stopped_bind, bind_assoc, stop_ok_bind]
/-! ## `check_page_free_list` -/

section
variable {α : Type}

/-- `for (pp = h; pp; pp = pp->pp_link)` with `body`. -/
def forFree (body : Nat → α → Checked α) : Nat → Option Nat → α → Checked α
  | _, none, x => return x
  | 0, some _, _ => stop .endless
  | n + 1, some pp, x => do
    let x ← body pp x
    let s ← get
    forFree body n (s.link pp) x

end

/-- The locals of the relinking: `tp[t]` points to the link of a page, or to `pp1`, `pp2` themselves. -/
structure Relink where
  pp1 : Option Nat
  pp2 : Option Nat
  tp : Bool → Option Nat

def Relink.put (x : Relink) (t : Bool) (v : Option Nat) : Checked Relink :=
  match x.tp t with
  | some q => do
    modify (·.setLink q v)
    return x
  | none => return if t then { x with pp2 := v } else { x with pp1 := v }

def relinkStep (pdxLimit pp : Nat) (x : Relink) : Checked Relink := do
  let pagetype := decide (pdx (page2pa pp) ≥ pdxLimit)
  let x ← x.put pagetype (some pp)
  return { x with tp := Function.update x.tp pagetype (some pp) }

/-- Pages below the limit first. `pp1` and `pp2` are what the locals hold before they are set. -/
def relink (pdxLimit : Nat) (pp1 pp2 : Option Nat) : Checked Unit := do
  let s ← get
  let x ← forFree (relinkStep pdxLimit) s.npages s.pageFreeList ⟨pp1, pp2, fun _ => none⟩
  let x ← x.put true none
  let x ← x.put false x.pp2
  modify fun s => { s with pageFreeList := x.pp1 }

def spoilFreePage (pdxLimit pp : Nat) (_ : Unit) : Checked Unit :=
  if pdx (page2pa pp) < pdxLimit then do
    let a ← read (·.page2kva pp)
    memset a 0x97 128
  else return ()

/-- The tests of one page, and the counts of pages in base and extended memory. That `pp` points to a
descriptor of the array is so by its type. -/
def checkFreePage (firstFreePage : Word) (pp : Nat) (n : Int × Int) : Checked (Int × Int) := do
  let s ← get
  assert (pp < s.npages) "pp < pages + npages"
  assert (page2pa pp ≠ 0) "page2pa(pp) != 0"
  assert (page2pa pp ≠ iophysmem) "page2pa(pp) != IOPHYSMEM"
  assert (page2pa pp ≠ extphysmem - pgsize) "page2pa(pp) != EXTPHYSMEM - PGSIZE"
  assert (page2pa pp ≠ extphysmem) "page2pa(pp) != EXTPHYSMEM"
  if page2pa pp < extphysmem then return (n.1 + 1, n.2)
  else
    let a ← read (·.page2kva pp)
    assert (a ≥ firstFreePage) "page2pa(pp) < EXTPHYSMEM || (char *) page2kva(pp) >= first_free_page"
    return (n.1, n.2 + 1)

def checkPageFreeList (onlyLowMemory : Bool) : Checked Unit := do
  let pdxLimit := if onlyLowMemory then 1 else npdentries
  let s ← get
  require (s.pageFreeList ≠ none) .freeListNull
  if onlyLowMemory then relink pdxLimit none none
  let s ← get
  forFree (spoilFreePage pdxLimit) s.npages s.pageFreeList ()
  let firstFreePage ← lift fun s => .ok (s.bootAlloc 0)
  let (nfreeBasemem, nfreeExtmem) ← forFree (checkFreePage firstFreePage) s.npages s.pageFreeList (0, 0)
  assert (nfreeBasemem > 0) "nfree_basemem > 0"
  assert (nfreeExtmem > 0) "nfree_extmem > 0"

/-! ## `check_page_alloc` -/

def allocated (allocFlags : Word) (x : String) : Checked Nat := do
  let pp ← pageAlloc allocFlags
  match pp with
  | some pp => return pp
  | none => stop (.assertion x)

def allocThree : Checked (Nat × Nat × Nat) := do
  let pp0 ← allocated 0 "(pp0 = page_alloc(0))"
  let pp1 ← allocated 0 "(pp1 = page_alloc(0))"
  let pp2 ← allocated 0 "(pp2 = page_alloc(0))"
  assert (pp1 ≠ pp0) "pp1 && pp1 != pp0"
  assert (pp2 ≠ pp1 ∧ pp2 ≠ pp0) "pp2 && pp2 != pp1 && pp2 != pp0"
  return (pp0, pp1, pp2)

def noFreeMemory : Checked Unit := do
  let pp ← pageAlloc 0
  assert (pp = none) "!page_alloc(0)"

def pageFree (pp : Nat) : Checked Unit := step (·.pageFree pp)

def freeThree (pp0 pp1 pp2 : Nat) : Checked Unit := do
  pageFree pp0
  pageFree pp1
  pageFree pp2

def setFreeList (fl : Option Nat) : Checked Unit := modify fun s => { s with pageFreeList := fl }

def countFree (nfree d : Int) : Checked Int := do
  let s ← get
  forFree (fun _ n => return n + d) s.npages s.pageFreeList nfree

def checkStolen (pp0 pp1 pp2 : Nat) : Checked (Nat × Nat × Nat) := do
  noFreeMemory
  freeThree pp0 pp1 pp2
  let (pp0, pp1, pp2) ← allocThree
  noFreeMemory
  let a ← read (·.page2kva pp0)
  memset a 1 4096
  pageFree pp0
  let pp ← allocated allocZero "(pp = page_alloc(ALLOC_ZERO))"
  assert (pp0 = pp) "pp && pp0 == pp"
  let c ← read (·.page2kva pp)
  forM (List.range 4096) fun i => do
    let b ← loadByte (c + BitVec.ofNat 32 i)
    assert (b = 0) "c[i] == 0"
  return (pp0, pp1, pp2)

def checkPageAlloc : Checked Unit := do
  let s ← get
  require (s.pagesVa ≠ 0) .pagesNull
  let nfree ← countFree 0 1
  let (pp0, pp1, pp2) ← allocThree
  let s ← get
  assert (page2pa pp0 < BitVec.ofNat 32 s.npages * pgsize) "page2pa(pp0) < npages*PGSIZE"
  assert (page2pa pp1 < BitVec.ofNat 32 s.npages * pgsize) "page2pa(pp1) < npages*PGSIZE"
  assert (page2pa pp2 < BitVec.ofNat 32 s.npages * pgsize) "page2pa(pp2) < npages*PGSIZE"
  let fl := s.pageFreeList
  setFreeList none
  let (pp0, pp1, pp2) ← checkStolen pp0 pp1 pp2
  setFreeList fl
  freeThree pp0 pp1 pp2
  let nfree ← countFree nfree (-1)
  assert (nfree = 0) "nfree == 0"

/-! ## `check_page` -/

def assertVa2pa (pgdir va a : Word) (x : String) : Checked Unit := do
  let r ← checkVa2pa pgdir va
  assert (r = a) x

def assertRef (pp : Nat) (r : BitVec 16) (x : String) : Checked Unit := do
  let s ← get
  assert (s.ref pp = r) x

def inserted (pgdir : Word) (pp : Nat) (va perm : Word) (x : String) : Checked Unit := do
  let r ← pageInsert pgdir pp va perm
  assert (r = 0) x

def notInserted (pgdir : Word) (pp : Nat) (va perm : Word) (x : String) : Checked Unit := do
  let r ← pageInsert pgdir pp va perm
  assert (r < 0) x

def walkEntry (pgdir va : Word) : Checked Word := do
  let ptep ← pgdirWalk pgdir va false
  load (ptep.getD 0)

/-- `check_page` up to the first remapping: `pp0` is a page table, `pp1` at 0 and `pp2` at `PGSIZE`. -/
def checkInsert (pgdir : Word) (pp0 pp1 pp2 : Nat) : Checked Unit := do
  noFreeMemory
  let r ← pageLookup pgdir 0
  assert (r = none) "page_lookup(kern_pgdir, (void *) 0x0, &ptep) == NULL"
  notInserted pgdir pp1 0 pteW "page_insert(kern_pgdir, pp1, 0x0, PTE_W) < 0"
  pageFree pp0
  inserted pgdir pp1 0 pteW "page_insert(kern_pgdir, pp1, 0x0, PTE_W) == 0"
  let pde ← load (entry pgdir 0)
  assert (pteAddr pde = page2pa pp0) "PTE_ADDR(kern_pgdir[0]) == page2pa(pp0)"
  assertVa2pa pgdir 0 (page2pa pp1) "check_va2pa(kern_pgdir, 0x0) == page2pa(pp1)"
  assertRef pp1 1 "pp1->pp_ref == 1"
  assertRef pp0 1 "pp0->pp_ref == 1"
  inserted pgdir pp2 pgsize pteW "page_insert(kern_pgdir, pp2, (void*) PGSIZE, PTE_W) == 0"
  assertVa2pa pgdir pgsize (page2pa pp2) "check_va2pa(kern_pgdir, PGSIZE) == page2pa(pp2)"
  assertRef pp2 1 "pp2->pp_ref == 1"
  noFreeMemory
  inserted pgdir pp2 pgsize pteW "page_insert(kern_pgdir, pp2, (void*) PGSIZE, PTE_W) == 0"
  assertVa2pa pgdir pgsize (page2pa pp2) "check_va2pa(kern_pgdir, PGSIZE) == page2pa(pp2)"
  assertRef pp2 1 "pp2->pp_ref == 1"
  noFreeMemory

def checkRemap (pgdir : Word) (pp0 pp1 pp2 : Nat) : Checked Unit := do
  let pde ← load (entry pgdir (pdx pgsize))
  let ptep ← read (·.kaddr (pteAddr pde))
  let r ← pgdirWalk pgdir pgsize false
  assert (r = some (entry ptep (ptx pgsize))) "pgdir_walk(kern_pgdir, (void*)PGSIZE, 0) == ptep+PTX(PGSIZE)"
  inserted pgdir pp2 pgsize (pteW ||| pteU) "page_insert(kern_pgdir, pp2, (void*) PGSIZE, PTE_W|PTE_U) == 0"
  assertVa2pa pgdir pgsize (page2pa pp2) "check_va2pa(kern_pgdir, PGSIZE) == page2pa(pp2)"
  assertRef pp2 1 "pp2->pp_ref == 1"
  let w ← walkEntry pgdir pgsize
  assert (w &&& pteU ≠ 0) "*pgdir_walk(kern_pgdir, (void*) PGSIZE, 0) & PTE_U"
  let pde ← load (entry pgdir 0)
  assert (pde &&& pteU ≠ 0) "kern_pgdir[0] & PTE_U"
  inserted pgdir pp2 pgsize pteW "page_insert(kern_pgdir, pp2, (void*) PGSIZE, PTE_W) == 0"
  let w ← walkEntry pgdir pgsize
  assert (w &&& pteW ≠ 0) "*pgdir_walk(kern_pgdir, (void*) PGSIZE, 0) & PTE_W"
  let w ← walkEntry pgdir pgsize
  assert (w &&& pteU = 0) "!(*pgdir_walk(kern_pgdir, (void*) PGSIZE, 0) & PTE_U)"
  notInserted pgdir pp0 ptsize pteW "page_insert(kern_pgdir, pp0, (void*) PTSIZE, PTE_W) < 0"
  inserted pgdir pp1 pgsize pteW "page_insert(kern_pgdir, pp1, (void*) PGSIZE, PTE_W) == 0"
  let w ← walkEntry pgdir pgsize
  assert (w &&& pteU = 0) "!(*pgdir_walk(kern_pgdir, (void*) PGSIZE, 0) & PTE_U)"
  assertVa2pa pgdir 0 (page2pa pp1) "check_va2pa(kern_pgdir, 0) == page2pa(pp1)"
  assertVa2pa pgdir pgsize (page2pa pp1) "check_va2pa(kern_pgdir, PGSIZE) == page2pa(pp1)"
  assertRef pp1 2 "pp1->pp_ref == 2"
  assertRef pp2 0 "pp2->pp_ref == 0"

def checkRemove (pgdir : Word) (pp1 pp2 : Nat) : Checked Unit := do
  let pp ← pageAlloc 0
  assert (pp = some pp2) "(pp = page_alloc(0)) && pp == pp2"
  pageRemove pgdir 0
  assertVa2pa pgdir 0 (~~~0) "check_va2pa(kern_pgdir, 0x0) == ~0"
  assertVa2pa pgdir pgsize (page2pa pp1) "check_va2pa(kern_pgdir, PGSIZE) == page2pa(pp1)"
  assertRef pp1 1 "pp1->pp_ref == 1"
  assertRef pp2 0 "pp2->pp_ref == 0"
  inserted pgdir pp1 pgsize 0 "page_insert(kern_pgdir, pp1, (void*) PGSIZE, 0) == 0"
  let s ← get
  assert (s.ref pp1 ≠ 0) "pp1->pp_ref"
  assert (s.link pp1 = none) "pp1->pp_link == NULL"
  pageRemove pgdir pgsize
  assertVa2pa pgdir 0 (~~~0) "check_va2pa(kern_pgdir, 0x0) == ~0"
  assertVa2pa pgdir pgsize (~~~0) "check_va2pa(kern_pgdir, PGSIZE) == ~0"
  assertRef pp1 0 "pp1->pp_ref == 0"
  assertRef pp2 0 "pp2->pp_ref == 0"
  let pp ← pageAlloc 0
  assert (pp = some pp1) "(pp = page_alloc(0)) && pp == pp1"
  noFreeMemory

def takeTable (pgdir : Word) (i pp0 : Nat) : Checked Unit := do
  store (entry pgdir i) 0
  modify (·.setRef pp0 0)

def checkTables (pgdir : Word) (pp0 : Nat) : Checked Unit := do
  pageFree pp0
  let va := pgsize * 1024 + pgsize
  let ptep ← pgdirWalk pgdir va true
  let pde ← load (entry pgdir (pdx va))
  let ptep1 ← read (·.kaddr (pteAddr pde))
  assert (ptep = some (entry ptep1 (ptx va))) "ptep == ptep1 + PTX(va)"
  takeTable pgdir (pdx va) pp0
  let a ← read (·.page2kva pp0)
  memset a 0xFF 4096
  pageFree pp0
  let _ ← pgdirWalk pgdir 0 true
  let ptep ← read (·.page2kva pp0)
  forM (List.range nptentries) fun i => do
    let w ← load (entry ptep i)
    assert (w &&& pteP = 0) "(ptep[i] & PTE_P) == 0"
  takeTable pgdir 0 pp0

def checkPage : Checked Unit := do
  let (pp0, pp1, pp2) ← allocThree
  let s ← get
  let fl := s.pageFreeList
  let pgdir := s.kernPgdir
  setFreeList none
  checkInsert pgdir pp0 pp1 pp2
  checkRemap pgdir pp0 pp1 pp2
  checkRemove pgdir pp1 pp2
  let pde ← load (entry pgdir 0)
  assert (pteAddr pde = page2pa pp0) "PTE_ADDR(kern_pgdir[0]) == page2pa(pp0)"
  store (entry pgdir 0) 0
  assertRef pp0 1 "pp0->pp_ref == 1"
  modify (·.setRef pp0 0)
  checkTables pgdir pp0
  setFreeList fl
  freeThree pp0 pp1 pp2

/-- `mem_init` from `page_init` to the end of its maps. -/
def memInit : Checked Unit := do
  step (·.pageInit)
  checkPageFreeList true
  checkPageAlloc
  checkPage
  memInitMap

end Check

end Jos
