import Jos.PmapLemmas
import Jos.PageInit

/-!
# The kernel's window on physical memory

`page2kva` adds `KERNBASE` to a physical address modulo 2³², and the guard of
`KADDR` compares page numbers with `npages`. The window has room for 65536
pages. `i386_detect_memory` counts more than that exactly when the CMOS word at
`NVRAM_EXT16LO` is above 3840, and then `page_init` frees pages whose kernel
address wraps below `KERNBASE`.
-/

namespace Jos

open IntrusiveList

/-- Every free page has an address of its own in the window, and clearing it clears nothing else. -/
structure WindowOk (s : Kern) : Prop where
  page2kva : ∀ p, Linked s.link s.pageFreeList p →
    ∃ a, s.page2kva p = .ok a ∧ kernbase ≤ a ∧ paddr a = .ok (page2pa p)
  page2pa_inj : ∀ p q, Linked s.link s.pageFreeList p → Linked s.link s.pageFreeList q →
    page2pa p = page2pa q → p = q
  alloc_zero : ∀ (t : Kern) p, t.npages = s.npages → Linked s.link s.pageFreeList p → t.pageFreeList = some p →
    ∃ k, t.pageAlloc allocZero = .ok (some p, k) ∧ k.mem = t.mem.clear p

/-! ## How many pages there are -/

theorem nvramRead_lt (cmos : Nat → BitVec 8) (r : Nat) : (nvramRead cmos r).toNat < 65536 := by
  have h1 := (cmos r).isLt
  have h2 := (cmos (r + 1)).isLt
  rw [nvramRead, BitVec.toNat_or, BitVec.toNat_shiftLeft, BitVec.toNat_setWidth, BitVec.toNat_setWidth,
    Nat.shiftLeft_eq]
  apply Nat.or_lt_two_pow (n := 16) <;> omega

theorem npages_detect (cmos : Nat → BitVec 8) (s : Kern) :
    (i386DetectMemory cmos s).npages ≤ 65536 ↔ nvramRead cmos nvramExt16lo ≤ 3840 := by
  have hb := nvramRead_lt cmos nvramBaselo
  have he := nvramRead_lt cmos nvramExtlo
  have hx := nvramRead_lt cmos nvramExt16lo
  have hmul : (nvramRead cmos nvramExt16lo * 64).toNat = (nvramRead cmos nvramExt16lo).toNat * 64 := by
    rw [BitVec.toNat_mul, show (64 : Word).toNat = 64 from rfl]; omega
  have hdiv : ∀ m : Word, (m / (pgsize / 1024)).toNat = m.toNat / 4 := fun m => BitVec.toNat_udiv
  have hle : nvramRead cmos nvramExt16lo ≤ 3840 ↔ (nvramRead cmos nvramExt16lo).toNat ≤ 3840 := Iff.rfl
  simp only [i386DetectMemory, hdiv, hle]
  by_cases h : nvramRead cmos nvramExt16lo * 64 = 0
  · have h0 := congrArg BitVec.toNat h
    rw [hmul, show (0 : Word).toNat = 0 from rfl] at h0
    rw [if_neg (not_not.mpr h)]
    split
    · rw [BitVec.toNat_add, show (1 * 1024 : Word).toNat = 1024 from rfl]; omega
    · omega
  · rw [if_pos h, BitVec.toNat_add, hmul, show (16 * 1024 : Word).toNat = 16384 from rfl]; omega

theorem npages_lt (cmos : Nat → BitVec 8) (s : Kern) : (i386DetectMemory cmos s).npages < 1100000 := by
  have hb := nvramRead_lt cmos nvramBaselo
  have he := nvramRead_lt cmos nvramExtlo
  have hx := nvramRead_lt cmos nvramExt16lo
  have hdiv : ∀ m : Word, (m / (pgsize / 1024)).toNat = m.toNat / 4 := fun m => BitVec.toNat_udiv
  simp only [i386DetectMemory, hdiv]
  split
  · have hmul : (nvramRead cmos nvramExt16lo * 64).toNat = (nvramRead cmos nvramExt16lo).toNat * 64 % 2 ^ 32 :=
      BitVec.toNat_mul _ _
    rw [BitVec.toNat_add, hmul, show (16 * 1024 : Word).toNat = 16384 from rfl]
    omega
  · split
    · rw [BitVec.toNat_add, show (1 * 1024 : Word).toNat = 1024 from rfl]; omega
    · omega

namespace Kern

theorem memset0_ok {s k : Kern} {a : Word} (h : s.memset0 a = .ok k) : k = s.clear (pgnum (a - kernbase)) := by
  unfold memset0 at h
  split at h
  · cases h
  · exact (Except.ok.inj h).symm

theorem store_ok {s k : Kern} {a v : Word} (h : s.store a v = .ok k) : ∃ pp i, k = s.write pp i v := by
  unfold store at h
  split at h
  · cases h
  · exact ⟨_, _, (Except.ok.inj h).symm⟩

theorem memsetPages_ok {s k : Kern} (h : s.memsetPages = .ok k) : k = { s with pages := fun _ => ⟨none, 0⟩ } := by
  unfold memsetPages at h
  split at h
  · cases h
  · exact (Except.ok.inj h).symm

theorem memInitBoot_spec {cmos : Nat → BitVec 8} {s₀ s : Kern} (h : memInitBoot cmos s₀ = .ok s) :
    ∃ t ff, t.npages = (i386DetectMemory cmos s₀).npages ∧ paddr (t.bootAlloc 0).1 = .ok ff ∧
      InitLoop ff t t.npages s := by
  unfold memInitBoot at h
  obtain ⟨s₁, h1, h⟩ := bind_eq_ok.mp h
  obtain ⟨pa, _, h⟩ := bind_eq_ok.mp h
  obtain ⟨s₂, h2, h⟩ := bind_eq_ok.mp h
  obtain ⟨pp, i, rfl⟩ := store_ok h2
  obtain ⟨s₃, h3, h⟩ := bind_eq_ok.mp h
  have h4 := memsetPages_ok h3
  obtain ⟨ff, hf, hl⟩ := pageInit_spec (fun p => by rw [h4]) h
  refine ⟨s₃, ff, ?_, hf, hl⟩
  rw [h4, memset0_ok h1]
  rfl

end Kern

/-! ## The window -/

theorem paddr_lt {a ff : Word} (h : paddr a = .ok ff) : ff.toNat < 268435456 := by
  have ha := a.isLt
  unfold paddr at h
  split at h
  · cases h
  · rename_i hlt
    rw [BitVec.lt_def, kernbase_toNat] at hlt
    rw [← Except.ok.inj h, BitVec.toNat_sub, kernbase_toNat]
    omega

section
variable {s t : Kern} {ff : Word} (hl : Kern.InitLoop ff t t.npages s)
include hl

theorem windowOk_of_le (hn : t.npages ≤ 65536) : WindowOk s := by
  have hfree : ∀ p, Linked s.link s.pageFreeList p → p < s.npages ∧ p < 65536 := by
    intro p hp
    rw [hl.chain.linked_iff, mem_initFree] at hp
    rw [hl.npages]
    exact ⟨hp.1, by omega⟩
  refine ⟨?_, ?_, ?_⟩
  · intro p hp
    obtain ⟨hpn, hlt⟩ := hfree p hp
    refine ⟨kva p, Kern.kaddr_page2pa s (by omega) hpn, ?_, paddr_kva hlt⟩
    exact BitVec.not_lt.mp (Kern.kva_not_lt hlt)
  · intro p q hp hq h
    have := (hfree p hp).2
    have := (hfree q hq).2
    exact page2pa_inj (by omega) (by omega) h
  · intro u p hu hp hf
    obtain ⟨hpn, hlt⟩ := hfree p hp
    exact ⟨_, Kern.pageAlloc_clear hf (by decide) (hu ▸ hpn) hlt, rfl⟩

theorem free_65536 (hf : ff.toNat < 268435456) (hn : 65536 < t.npages) : Linked s.link s.pageFreeList 65536 := by
  rw [hl.chain.linked_iff, mem_initFree]
  refine ⟨hn, ?_⟩
  rintro (h0 | ⟨_, h0⟩)
  · cases h0
  · rw [BitVec.le_def, show (BitVec.ofNat 32 65536 * pgsize).toNat = 268435456 from rfl] at h0
    omega

omit hl in
theorem page2kva_65536 (hn : 65536 < s.npages) : s.page2kva 65536 = .ok 0 := by
  rw [Kern.page2kva, Kern.kaddr, pgnum_page2pa (by decide), if_neg (by omega)]
  rfl

theorem not_windowOk (hf : ff.toNat < 268435456) (hn : 65536 < t.npages) : ¬ WindowOk s := by
  intro h
  obtain ⟨a, ha, hge, _⟩ := h.page2kva 65536 (free_65536 hl hf hn)
  rw [page2kva_65536 (hl.npages ▸ hn), Except.ok.injEq] at ha
  subst ha
  exact absurd hge (by decide)

end

/-- **The window holds every free page** exactly on machines with at most 256 MB. -/
theorem windowOk_iff {cmos : Nat → BitVec 8} {s₀ s : Kern} (h : Kern.memInitBoot cmos s₀ = .ok s) :
    WindowOk s ↔ nvramRead cmos nvramExt16lo ≤ 3840 := by
  obtain ⟨t, ff, hn, hf, hl⟩ := Kern.memInitBoot_spec h
  rw [← npages_detect cmos s₀, ← hn]
  constructor
  · intro hw
    by_contra hlt
    exact not_windowOk hl (paddr_lt hf) (by omega) hw
  · exact windowOk_of_le hl

/-! ## A machine with more than 256 MB -/

section
variable {s : Kern} {a : Word} (h : ¬ a < kernbase)
include h

theorem Kern.memset0_window : s.memset0 a = .ok (s.clear (pgnum (a - kernbase))) := if_neg h

theorem Kern.store_window (v : Word) :
    s.store a v = .ok (s.write (pgnum (a - kernbase)) ((pgoff (a - kernbase)).toNat / 4) v) := if_neg h

theorem paddr_window : paddr a = .ok (a - kernbase) := if_neg h

end

theorem exists_bind {α β : Type} {x : Except Panic α} {a : α} {f : α → Except Panic β} (hx : x = .ok a)
    (hf : ∃ b, f a = .ok b) : ∃ b, x >>= f = .ok b := by
  obtain ⟨b, hb⟩ := hf
  exact ⟨b, by rw [hx, ok_bind, hb]⟩

namespace Kern

theorem bootAlloc_first {s : Kern} (h : s.nextfree = 0) (n : Word) : s.bootAlloc n =
    (roundup s.kend pgsize, { s with nextfree := roundup (roundup s.kend pgsize + n) pgsize }) := by
  simp only [bootAlloc, if_pos h]

theorem bootAlloc_next {s : Kern} {a : Word} (h : a ≠ 0) (ha : s.nextfree = a) (n : Word) : s.bootAlloc n =
    (a, { s with nextfree := roundup (a + n) pgsize }) := by
  subst ha
  simp only [bootAlloc, if_neg h]

theorem memsetPages_window {s : Kern} {a : Word} (ha : s.pagesVa = a) (h : ¬ a < kernbase) :
    s.memsetPages = .ok { s with pages := fun _ => ⟨none, 0⟩ } := by
  subst ha
  exact if_neg fun e => h e.2

theorem pageInit_ok {s : Kern} {a : Word} (ha : s.nextfree = a) (h : ¬ a < kernbase) (h0 : a ≠ 0) :
    ∃ k, s.pageInit = .ok k := by
  subst ha
  have hb := bootAlloc_next (s := { s with pageFreeList := none }) h0 rfl 0
  unfold pageInit
  rw [hb]
  exact exists_bind (paddr_window h) ⟨_, rfl⟩

end Kern

theorem memInitBoot_ok (cmos : Nat → BitVec 8) {s : Kern} (h0 : s.nextfree = 0) (hk : kernbase ≤ s.kend)
    (hk' : s.kend < 0xF8000000) : ∃ k, Kern.memInitBoot cmos s = .ok k := by
  rw [BitVec.le_def, kernbase_toNat] at hk
  rw [BitVec.lt_def, show (0xF8000000 : Word).toNat = 4160749568 from rfl] at hk'
  have hn := npages_lt cmos s
  have h1 : (roundup s.kend pgsize).toNat = (s.kend.toNat + 4095) / 4096 * 4096 := roundup_toNat (by omega)
  have h1' : (roundup s.kend pgsize + pgsize).toNat = (roundup s.kend pgsize).toNat + 4096 := by
    rw [BitVec.toNat_add, pgsize_toNat]; omega
  have h2 : (roundup (roundup s.kend pgsize + pgsize) pgsize).toNat = (roundup s.kend pgsize).toNat + 4096 := by
    rw [roundup_toNat (by omega), h1']; omega
  have hm : (BitVec.ofNat 32 (i386DetectMemory cmos s).npages * sizeofPageInfo).toNat =
      (i386DetectMemory cmos s).npages * 8 := by
    rw [BitVec.toNat_mul, BitVec.toNat_ofNat, show sizeofPageInfo.toNat = 8 from rfl]; omega
  have h0' : (i386DetectMemory cmos s).nextfree = 0 := h0
  simp only [Kern.memInitBoot, Kern.bootAlloc_first h0']
  have hK : ¬ roundup s.kend pgsize < kernbase := by rw [BitVec.lt_def, kernbase_toNat]; omega
  have hE : ¬ entry (roundup s.kend pgsize) (pdx uvpt) < kernbase := by
    rw [BitVec.lt_def, kernbase_toNat, entry_toNat, show pdx uvpt = 957 from rfl]; omega
  have hN : ¬ roundup (roundup s.kend pgsize + pgsize) pgsize < kernbase := by
    rw [BitVec.lt_def, kernbase_toNat]; omega
  refine exists_bind (Kern.memset0_window hK) (exists_bind (paddr_window hK) (exists_bind (Kern.store_window hE _) ?_))
  have hN0 : roundup (roundup s.kend pgsize + pgsize) pgsize ≠ 0 := fun e => by
    rw [e, show (0 : Word).toNat = 0 from rfl] at h2; omega
  rw [Kern.bootAlloc_next hN0 ?_]
  swap
  · rfl
  have hM : ∀ a : Word, a = roundup (roundup (roundup s.kend pgsize + pgsize) pgsize +
      BitVec.ofNat 32 (i386DetectMemory cmos s).npages * sizeofPageInfo) pgsize → ¬ a < kernbase ∧ a ≠ 0 := by
    intro a ha
    have : a.toNat ≥ 4026531840 := by
      rw [ha, roundup_toNat (by rw [BitVec.toNat_add, hm]; omega), BitVec.toNat_add, hm]; omega
    refine ⟨?_, fun e => ?_⟩
    · rw [BitVec.lt_def, kernbase_toNat]; omega
    · rw [e, show (0 : Word).toNat = 0 from rfl] at this; omega
  refine exists_bind (Kern.memsetPages_window rfl hN) ?_
  exact Kern.pageInit_ok rfl (hM _ rfl).1 (hM _ rfl).2

def linkedKernel : Kern :=
  { smallMachine with npages := 0, npagesBasemem := 0, kernPgdir := 0, pagesVa := 0, nextfree := 0 }

def cmosExt16 (w : BitVec 16) (r : Nat) : BitVec 8 :=
  if r = nvramExt16lo then w.setWidth 8 else if r = nvramExt16lo + 1 then (w >>> 8).setWidth 8 else 0

theorem windowOk_iff_128MB : ∃ s, Kern.memInitBoot (cmosExt16 1792) linkedKernel = .ok s ∧
    (WindowOk s ↔ nvramRead (cmosExt16 1792) nvramExt16lo ≤ 3840) := by
  obtain ⟨s, hs⟩ := memInitBoot_ok (cmosExt16 1792) (s := linkedKernel) rfl (by decide) (by decide)
  exact ⟨s, hs, windowOk_iff hs⟩

/-- One unit of 64 KB above 256 MB, page 65536 is free and its kernel address is 0. -/
theorem window_over_256MB : ∃ s, Kern.memInitBoot (cmosExt16 3841) linkedKernel = .ok s ∧
    Linked s.link s.pageFreeList 65536 ∧ s.page2kva 65536 = .ok 0 ∧ ¬ WindowOk s := by
  obtain ⟨s, hs⟩ := memInitBoot_ok (cmosExt16 3841) (s := linkedKernel) rfl (by decide) (by decide)
  obtain ⟨t, ff, hn, hf, hl⟩ := Kern.memInitBoot_spec hs
  have hlt : 65536 < t.npages := by
    have h0 : ¬ nvramRead (cmosExt16 3841) nvramExt16lo ≤ 3840 := by decide
    rw [← npages_detect _ linkedKernel, ← hn] at h0
    exact Nat.not_le.mp h0
  exact ⟨s, hs, free_65536 hl (paddr_lt hf) hlt, page2kva_65536 (hl.npages ▸ hlt), not_windowOk hl (paddr_lt hf) hlt⟩

end Jos
