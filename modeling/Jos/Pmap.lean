import Jos.Kern

/-!
# `kern/pmap.c`

The functions of the physical page allocator and of the two-level page
tables, in the order of the source. A function takes the state and returns the
state it leaves, or the panic it ends in.
-/

namespace Jos

def eNoMem : Int := 4

def allocZero : Word := 1

def sizeofPageInfo : Word := 8

/-! ## Detecting memory -/

def nvramRead (cmos : Nat → BitVec 8) (r : Nat) : Word :=
  (cmos r).setWidth 32 ||| (cmos (r + 1)).setWidth 32 <<< 8

def nvramBaselo : Nat := 0x15
def nvramExtlo : Nat := 0x17
def nvramExt16lo : Nat := 0x34

def i386DetectMemory (cmos : Nat → BitVec 8) (s : Kern) : Kern :=
  let basemem := nvramRead cmos nvramBaselo
  let extmem := nvramRead cmos nvramExtlo
  let ext16mem := nvramRead cmos nvramExt16lo * 64
  let totalmem :=
    if ext16mem ≠ 0 then 16 * 1024 + ext16mem
    else if extmem ≠ 0 then 1 * 1024 + extmem
    else basemem
  { s with
    npages := (totalmem / (pgsize / 1024)).toNat
    npagesBasemem := (basemem / (pgsize / 1024)).toNat }

/-! ## Pointers -/

def paddr (kva : Word) : Except Panic Word :=
  if kva < kernbase then .error (.paddr kva) else .ok (kva - kernbase)

namespace Kern

def kaddr (s : Kern) (pa : Word) : Except Panic Word :=
  if pgnum pa ≥ s.npages then .error (.kaddr pa) else .ok (pa + kernbase)

def pa2page (s : Kern) (pa : Word) : Except Panic Nat :=
  if pgnum pa ≥ s.npages then .error .pa2page else .ok (pgnum pa)

def page2kva (s : Kern) (pp : Nat) : Except Panic Word := s.kaddr (page2pa pp)

/-! ## The boot allocator and the page allocator -/

def bootAlloc (s : Kern) (n : Word) : Word × Kern :=
  let nextfree := if s.nextfree = 0 then roundup s.kend pgsize else s.nextfree
  (nextfree, { s with nextfree := roundup (nextfree + n) pgsize })

def pageInitStep (firstFreeExtendAddr : Word) (s : Kern) (i : Nat) : Kern :=
  if i = 0 then s.setRef i 1
  else if BitVec.ofNat 32 i * pgsize ≥ iophysmem ∧ BitVec.ofNat 32 i * pgsize ≤ firstFreeExtendAddr then
    s.setRef i 1
  else { (s.setRef i 0).setLink i s.pageFreeList with pageFreeList := some i }

def pageInit (s : Kern) : Except Panic Kern := do
  let (b, s) := bootAlloc { s with pageFreeList := none } 0
  let firstFreeExtendAddr ← paddr b
  return (List.range s.npages).foldl (pageInitStep firstFreeExtendAddr) s

def pageAlloc (s : Kern) (allocFlags : Word) : Except Panic (Option Nat × Kern) :=
  match s.pageFreeList with
  | none => return (none, s)
  | some allocSpace => do
    let s := { s with pageFreeList := s.link allocSpace }
    let s := s.setLink allocSpace none
    -- the source tests `alloc_flags && ALLOC_ZERO`, so every non-zero flag clears the page
    let s ← if allocFlags ≠ 0 ∧ allocZero ≠ 0 then do
        let a ← s.page2kva allocSpace
        s.memset0 a
      else pure s
    return (some allocSpace, s)

def pageFree (s : Kern) (pp : Nat) : Except Panic Kern :=
  if s.ref pp = 0 ∧ s.link pp = none then
    return { s.setLink pp s.pageFreeList with pageFreeList := some pp }
  else .error .pageFree

def pageDecref (s : Kern) (pp : Nat) : Except Panic Kern :=
  let s := s.setRef pp (s.ref pp - 1)
  if s.ref pp = 0 then s.pageFree pp else return s

/-! ## Page tables -/

def pgdirWalk (s : Kern) (pgdir va : Word) (create : Bool) : Except Panic (Option Word × Kern) := do
  let pageDirEntry := entry pgdir (pdx va)
  let pde ← s.load pageDirEntry
  if pde &&& pteP ≠ 0 then
    let pageTableEntry ← s.kaddr (pteAddr pde)
    return (some (entry pageTableEntry (ptx va)), s)
  else if !create then return (none, s)
  else
    let (pp, s) ← s.pageAlloc 1
    match pp with
    | none => return (none, s)
    | some pp =>
      let pageTableEntry ← s.page2kva pp
      let s := s.setRef pp (s.ref pp + 1)
      let pa ← paddr pageTableEntry
      let s ← s.store pageDirEntry (pa ||| pteP ||| pteW ||| pteU)
      return (some (entry pageTableEntry (ptx va)), s)

def bootMapLoop (pgdir : Word) (perm : Word) : Nat → Kern → Word → Word → Except Panic Kern
  | 0, s, _, _ => return s
  | n + 1, s, va, pa => do
    let (pte, s) ← s.pgdirWalk pgdir va true
    match pte with
    | none => .error .bootMapRegion
    | some pte =>
      let s ← s.store pte (pa ||| pteP ||| perm)
      bootMapLoop pgdir perm n s (va + pgsize) (pa + pgsize)

def bootMapRegion (s : Kern) (pgdir va size pa perm : Word) : Except Panic Kern :=
  let numpage := size / pgsize
  let numpage := if size % pgsize ≠ 0 then numpage + 1 else numpage
  bootMapLoop pgdir perm numpage.toNat s va pa

/-- `page_lookup` with a non-null `pte_store`: the page and the slot stored. -/
def pageLookup (s : Kern) (pgdir va : Word) : Except Panic (Option (Nat × Word) × Kern) := do
  let (pt, s) ← s.pgdirWalk pgdir va false
  match pt with
  | none => return (none, s)
  | some pt =>
    let pte ← s.load pt
    -- no test of `PTE_P` here: an entry that is not present is looked up all the same
    let pp ← s.pa2page (pteAddr pte)
    return (some (pp, pt), s)

def tlbInvalidate (s : Kern) (va : Word) : Kern := s.invlpg va

def pageRemove (s : Kern) (pgdir va : Word) : Except Panic Kern := do
  let (pageinfo, s) ← s.pageLookup pgdir va
  match pageinfo with
  | none => return s
  | some (pageinfo, pt) =>
    let s ← s.pageDecref pageinfo
    let s ← s.store pt 0
    return s.tlbInvalidate va

def pageInsert (s : Kern) (pgdir : Word) (pp : Nat) (va perm : Word) : Except Panic (Int × Kern) := do
  let (pt, s) ← s.pgdirWalk pgdir va true
  match pt with
  | none => return (-eNoMem, s)
  | some pt =>
    let s := s.setRef pp (s.ref pp + 1)
    let pte ← s.load pt
    let s ← if pte &&& pteP ≠ 0 then s.pageRemove pgdir va else pure s
    let s ← s.store pt (page2pa pp ||| perm ||| pteP)
    return (0, s)

def checkVa2pa (s : Kern) (pgdir va : Word) : Except Panic Word := do
  let pde ← s.load (entry pgdir (pdx va))
  if pde &&& pteP = 0 then return ~~~0
  else
    let p ← s.kaddr (pteAddr pde)
    let pte ← s.load (entry p (ptx va))
    if pte &&& pteP = 0 then return ~~~0
    else return pteAddr pte

/-! ## `mem_init` -/

def memsetPages (s : Kern) : Except Panic Kern :=
  if s.npages ≠ 0 ∧ s.pagesVa < kernbase then .error (.fault s.pagesVa)
  else .ok { s with pages := fun _ => ⟨none, 0⟩ }

/-- `mem_init` up to `page_init`. -/
def memInitBoot (cmos : Nat → BitVec 8) (s : Kern) : Except Panic Kern := do
  let s := i386DetectMemory cmos s
  let (kernPgdir, s) := s.bootAlloc pgsize
  let s := { s with kernPgdir := kernPgdir }
  let s ← s.memset0 s.kernPgdir
  let pa ← paddr s.kernPgdir
  let s ← s.store (entry s.kernPgdir (pdx uvpt)) (pa ||| pteU ||| pteP)
  let (pagesVa, s) := s.bootAlloc (BitVec.ofNat 32 s.npages * sizeofPageInfo)
  let s := { s with pagesVa := pagesVa }
  let s ← s.memsetPages
  s.pageInit

/-- The three `boot_map_region` calls of `mem_init`. -/
def memInitMap (s : Kern) : Except Panic Kern := do
  let pa ← paddr s.pagesVa
  let s ← s.bootMapRegion s.kernPgdir upages ptsize pa (pteU ||| pteP)
  let pa ← paddr s.bootstack
  let s ← s.bootMapRegion s.kernPgdir (kstacktop - kstksize) kstksize pa (pteW ||| pteP)
  s.bootMapRegion s.kernPgdir kernbase (0xffffffff - kernbase) 0 (pteW ||| pteP)

end Kern

end Jos
