import Mathlib.Tactic

/-!
# Addresses and page-table entries

The constants and macros of `inc/mmu.h` and `inc/memlayout.h` over 32-bit
words. `pdx`, `ptx` and `pgnum` index arrays and are compared with `npages`,
so they return naturals; everything else stays a word and wraps as on the
machine. The lemmas read each macro as arithmetic on naturals.
-/

namespace Jos

/-- `uint32_t`, `uintptr_t`, `physaddr_t`, `pte_t` and `pde_t`. -/
abbrev Word := BitVec 32

abbrev Byte := BitVec 8

/-! ## Constants -/

def pgsize : Word := 4096
def npdentries : Nat := 1024
def nptentries : Nat := 1024
def ptsize : Word := pgsize * 1024

def kernbase : Word := 0xF0000000
def iophysmem : Word := 0x0A0000
def extphysmem : Word := 0x100000
def kstacktop : Word := kernbase
def kstksize : Word := 8 * pgsize
def mmiolim : Word := kstacktop - ptsize
def mmiobase : Word := mmiolim - ptsize
def ulim : Word := mmiobase
def uvpt : Word := ulim - ptsize
def upages : Word := uvpt - ptsize
def uenvs : Word := upages - ptsize
def utop : Word := uenvs
def ustacktop : Word := utop - 2 * pgsize

def pteP : Word := 0x001
def pteW : Word := 0x002
def pteU : Word := 0x004

/-! ## Macros -/

def pgnum (la : Word) : Nat := (la >>> 12).toNat
def pdx (la : Word) : Nat := ((la >>> 22) &&& 0x3FF).toNat
def ptx (la : Word) : Nat := ((la >>> 12) &&& 0x3FF).toNat
def pgoff (la : Word) : Word := la &&& 0xFFF
def pgaddr (d t : Nat) (o : Word) : Word := BitVec.ofNat 32 d <<< 22 ||| BitVec.ofNat 32 t <<< 12 ||| o
def pteAddr (pte : Word) : Word := pte &&& ~~~0xFFF
def rounddown (a n : Word) : Word := a - a % n
def roundup (a n : Word) : Word := rounddown (a + n - 1) n

def entry (p : Word) (i : Nat) : Word := p + BitVec.ofNat 32 (4 * i)

def page2pa (pp : Nat) : Word := BitVec.ofNat 32 pp <<< 12

/-- The kernel's address of physical page `pp`, once `kaddr` has let it pass. -/
def kva (pp : Nat) : Word := page2pa pp + kernbase

/-! ## Constants as naturals -/

@[simp] theorem pgsize_toNat : pgsize.toNat = 4096 := rfl
@[simp] theorem ptsize_toNat : ptsize.toNat = 4194304 := rfl
@[simp] theorem kernbase_toNat : kernbase.toNat = 4026531840 := rfl
@[simp] theorem iophysmem_toNat : iophysmem.toNat = 655360 := rfl
@[simp] theorem extphysmem_toNat : extphysmem.toNat = 1048576 := rfl
@[simp] theorem mmiolim_toNat : mmiolim.toNat = 4022337536 := rfl
@[simp] theorem ulim_toNat : ulim.toNat = 4018143232 := rfl
@[simp] theorem uvpt_toNat : uvpt.toNat = 4013948928 := rfl
@[simp] theorem upages_toNat : upages.toNat = 4009754624 := rfl
@[simp] theorem utop_toNat : utop.toNat = 4005560320 := rfl
@[simp] theorem pteP_toNat : pteP.toNat = 1 := rfl
@[simp] theorem pteW_toNat : pteW.toNat = 2 := rfl
@[simp] theorem pteU_toNat : pteU.toNat = 4 := rfl

/-! ## Macros as arithmetic -/

theorem pgnum_eq (la : Word) : pgnum la = la.toNat / 4096 := by
  simp [pgnum, Nat.shiftRight_eq_div_pow]

theorem pdx_eq (la : Word) : pdx la = la.toNat / 4194304 := by
  have := la.isLt
  simp only [pdx, BitVec.toNat_and, BitVec.toNat_ushiftRight, Nat.shiftRight_eq_div_pow]
  rw [show (1023 : Word).toNat = 2 ^ 10 - 1 from rfl, Nat.and_two_pow_sub_one_eq_mod]
  omega

theorem ptx_eq (la : Word) : ptx la = la.toNat / 4096 % 1024 := by
  simp only [ptx, BitVec.toNat_and, BitVec.toNat_ushiftRight, Nat.shiftRight_eq_div_pow]
  rw [show (1023 : Word).toNat = 2 ^ 10 - 1 from rfl, Nat.and_two_pow_sub_one_eq_mod]

theorem pgoff_toNat (la : Word) : (pgoff la).toNat = la.toNat % 4096 := by
  simp only [pgoff, BitVec.toNat_and]
  rw [show (4095 : Word).toNat = 2 ^ 12 - 1 from rfl, Nat.and_two_pow_sub_one_eq_mod]

theorem pdx_lt (la : Word) : pdx la < 1024 := by
  have := la.isLt; rw [pdx_eq]; omega

theorem ptx_lt (la : Word) : ptx la < 1024 := by
  rw [ptx_eq]; exact Nat.mod_lt _ (by decide)

theorem pgnum_split (la : Word) : pgnum la = pdx la * 1024 + ptx la := by
  rw [pgnum_eq, pdx_eq, ptx_eq]; omega

theorem pgnum_div (la : Word) : pgnum la / 1024 = pdx la := by
  have := ptx_lt la
  rw [pgnum_split]; omega

theorem pgnum_eq_iff (a b : Word) : pgnum a = pgnum b ↔ pdx a = pdx b ∧ ptx a = ptx b := by
  have := ptx_lt a
  have := ptx_lt b
  rw [pgnum_split, pgnum_split]
  omega

theorem pdx_of_lt_utop {va : Word} (h : va < utop) : pdx va < 955 := by
  rw [BitVec.lt_def, utop_toNat] at h
  rw [pdx_eq]; omega

theorem and_not_ones (w : Word) (k : Nat) (hk : k ≤ 32) : w &&& ~~~(BitVec.ofNat 32 (2 ^ k - 1)) = (w >>> k) <<< k := by
  ext i hi
  have hm : (BitVec.ofNat 32 (2 ^ k - 1))[i] = decide (i < k) := by
    rw [BitVec.getElem_eq_testBit_toNat, BitVec.toNat_ofNat, Nat.mod_eq_of_lt]
    · exact Nat.testBit_two_pow_sub_one k i
    · have := Nat.pow_le_pow_right (show 0 < 2 by decide) hk
      have := Nat.two_pow_pos k
      omega
  simp only [BitVec.getElem_and, BitVec.getElem_not, BitVec.getElem_shiftLeft, hm]
  by_cases h : i < k
  · simp [h]
  · simp only [h, decide_false, Bool.not_false, Bool.and_true, Bool.true_and]
    rw [BitVec.getElem_ushiftRight, BitVec.getLsbD_eq_getElem (by omega)]
    simp only [show k + (i - k) = i by omega]

theorem pteAddr_eq (w : Word) : pteAddr w = (w >>> 12) <<< 12 := and_not_ones w 12 (by decide)

theorem pteAddr_toNat (w : Word) : (pteAddr w).toNat = w.toNat / 4096 * 4096 := by
  have := w.isLt
  simp only [pteAddr_eq, BitVec.toNat_shiftLeft, BitVec.toNat_ushiftRight, Nat.shiftRight_eq_div_pow,
    Nat.shiftLeft_eq]
  omega

@[simp] theorem pgnum_pteAddr (w : Word) : pgnum (pteAddr w) = pgnum w := by
  rw [pgnum_eq, pteAddr_toNat, pgnum_eq]; omega

theorem pgnum_lt (w : Word) : pgnum w < 1048576 := by
  have := w.isLt; rw [pgnum_eq]; omega

theorem page2pa_toNat (pp : Nat) : (page2pa pp).toNat = pp * 4096 % 4294967296 := by
  simp only [page2pa, BitVec.toNat_shiftLeft, BitVec.toNat_ofNat, Nat.shiftLeft_eq]
  omega

theorem pteAddr_eq_page2pa (w : Word) : pteAddr w = page2pa (pgnum w) := by
  have := w.isLt
  apply BitVec.eq_of_toNat_eq
  rw [pteAddr_toNat, page2pa_toNat, pgnum_eq]
  omega

theorem pgnum_page2pa {pp : Nat} (h : pp < 1048576) : pgnum (page2pa pp) = pp := by
  rw [pgnum_eq, page2pa_toNat]; omega

theorem page2pa_inj {p q : Nat} (hp : p < 1048576) (hq : q < 1048576) (h : page2pa p = page2pa q) : p = q := by
  rw [← pgnum_page2pa hp, h, pgnum_page2pa hq]

theorem page2pa_succ (pp : Nat) : page2pa (pp + 1) = page2pa pp + pgsize := by
  apply BitVec.eq_of_toNat_eq
  rw [BitVec.toNat_add, page2pa_toNat, page2pa_toNat, pgsize_toNat]
  omega

theorem pdx_page2pa {pp : Nat} (h : pp < 1048576) : pdx (page2pa pp) = pp / 1024 := by
  rw [pdx_eq, page2pa_toNat]; omega

theorem page2pa_pgnum {a : Word} (h : a.toNat % 4096 = 0) : page2pa (pgnum a) = a := by
  have := a.isLt
  apply BitVec.eq_of_toNat_eq
  rw [page2pa_toNat, pgnum_eq]
  omega

theorem kva_toNat {pp : Nat} (h : pp < 65536) : (kva pp).toNat = 4026531840 + pp * 4096 := by
  rw [kva, BitVec.toNat_add, page2pa_toNat, kernbase_toNat]; omega

theorem kva_sub (pp : Nat) : kva pp - kernbase = page2pa pp := by
  rw [kva, BitVec.add_sub_cancel]

theorem page2pa_add (pp : Nat) : page2pa pp + kernbase = kva pp := rfl

theorem entry_kva_sub (pp i : Nat) : entry (kva pp) i - kernbase = page2pa pp + BitVec.ofNat 32 (4 * i) := by
  rw [entry, kva, BitVec.add_assoc, BitVec.add_comm kernbase, ← BitVec.add_assoc, BitVec.add_sub_cancel]

theorem kva_toNat_mod (pp : Nat) : (kva pp).toNat = (pp * 4096 + 4026531840) % 4294967296 := by
  rw [kva, BitVec.toNat_add, page2pa_toNat, kernbase_toNat]; omega

theorem entry_toNat (p : Word) (i : Nat) : (entry p i).toNat = (p.toNat + 4 * i) % 4294967296 := by
  rw [entry, BitVec.toNat_add, BitVec.toNat_ofNat]; omega

theorem entry_kva_toNat {pp i : Nat} (h : pp < 65536) (hi : i < 1024) :
    (entry (kva pp) i).toNat = 4026531840 + pp * 4096 + 4 * i := by
  rw [entry, BitVec.toNat_add, kva_toNat h, BitVec.toNat_ofNat]; omega

theorem roundup_toNat {a : Word} (h : a.toNat + 4095 < 4294967296) :
    (roundup a pgsize).toNat = (a.toNat + 4095) / 4096 * 4096 := by
  have h1 : (a + pgsize - 1).toNat = a.toNat + 4095 := by
    rw [BitVec.toNat_sub, BitVec.toNat_add, pgsize_toNat, show (1 : Word).toNat = 1 from rfl]; omega
  have h2 : ((a + pgsize - 1) % pgsize).toNat = (a.toNat + 4095) % 4096 := by
    rw [BitVec.toNat_umod, h1, pgsize_toNat]
  rw [roundup, rounddown, BitVec.toNat_sub, h1, h2]
  omega

theorem pgaddr_zero_toNat {d t : Nat} (hd : d < 1024) (ht : t < 1024) :
    (pgaddr d t 0).toNat = d * 4194304 + t * 4096 := by
  have h1 : (BitVec.ofNat 32 d <<< 22).toNat = 2 ^ 22 * d := by
    simp only [BitVec.toNat_shiftLeft, BitVec.toNat_ofNat, Nat.shiftLeft_eq]; omega
  have h2 : (BitVec.ofNat 32 t <<< 12).toNat = t * 4096 := by
    simp only [BitVec.toNat_shiftLeft, BitVec.toNat_ofNat, Nat.shiftLeft_eq]; omega
  rw [pgaddr, show (0 : Word) = 0#32 from rfl, BitVec.or_zero, BitVec.toNat_or, h1, h2,
    ← Nat.two_pow_add_eq_or_of_lt (show t * 4096 < 2 ^ 22 by omega)]
  omega

theorem pdx_pgaddr {d t : Nat} (hd : d < 1024) (ht : t < 1024) : pdx (pgaddr d t 0) = d := by
  rw [pdx_eq, pgaddr_zero_toNat hd ht]; omega

theorem ptx_pgaddr {d t : Nat} (hd : d < 1024) (ht : t < 1024) : ptx (pgaddr d t 0) = t := by
  rw [ptx_eq, pgaddr_zero_toNat hd ht]; omega

-- These two are read through the lemmas above only; unfolding them would leave the
-- unifier with sums of large literals.
attribute [irreducible] kva entry

/-! ## Entries: a page address with flags -/

theorem or_flags_toNat {a b : Word} (ha : a.toNat % 4096 = 0) (hb : b.toNat < 4096) :
    (a ||| b).toNat = a.toNat + b.toNat := by
  have h : a.toNat = 2 ^ 12 * (a.toNat / 4096) := by omega
  rw [BitVec.toNat_or, h, Nat.two_pow_add_eq_or_of_lt hb]

theorem pgnum_or_flags {a b : Word} (ha : a.toNat % 4096 = 0) (hb : b.toNat < 4096) :
    pgnum (a ||| b) = pgnum a := by
  rw [pgnum_eq, pgnum_eq, or_flags_toNat ha hb]; omega

theorem aligned_and_flag {a f : Word} (ha : a.toNat % 4096 = 0) (hf : f.toNat < 4096) : a &&& f = 0 := by
  apply BitVec.eq_of_toNat_eq
  have h : a.toNat = 2 ^ 12 * (a.toNat / 4096) := by omega
  rw [BitVec.toNat_and, h, ← Nat.mod_eq_of_lt (show f.toNat < 2 ^ 12 from hf)]
  apply Nat.eq_of_testBit_eq
  intro i
  rw [Nat.testBit_and, Nat.testBit_two_pow_mul, Nat.testBit_mod_two_pow]
  by_cases hi : i < 12
  · simp [hi, Nat.not_le.mpr hi]
  · simp [hi]

theorem or_flags_and {a b f : Word} (ha : a.toNat % 4096 = 0) (hf : f.toNat < 4096) :
    (a ||| b) &&& f = b &&& f := by
  rw [BitVec.and_comm, BitVec.and_or_distrib_left, BitVec.and_comm f a, aligned_and_flag ha hf,
    show (0 : Word) = 0#32 from rfl, BitVec.zero_or, BitVec.and_comm]

theorem or_flags_lt {a b : Word} (ha : a.toNat < 4096) (hb : b.toNat < 4096) : (a ||| b).toNat < 4096 := by
  rw [BitVec.toNat_or]; exact Nat.or_lt_two_pow (n := 12) ha hb

theorem page2pa_aligned (pp : Nat) : (page2pa pp).toNat % 4096 = 0 := by
  rw [page2pa_toNat]; omega

end Jos
