import Jos.PageInit

/-!
# `boot_alloc`

A sequence of requests from the first one on. `boot_alloc` has no test for the end
of memory: the ranges it hands out are disjoint pieces of existing memory only as
long as the requests fit. `Fits` follows the next free address as a natural number,
with the sizes rounded up to pages.
-/

namespace Jos

/-- `ROUNDUP(a, PGSIZE)` without the wrap. -/
def pageCeil (a : Nat) : Nat := (a + 4095) / 4096 * 4096

theorem roundup_pageCeil (a : Word) : (roundup a pgsize).toNat = pageCeil a.toNat % 4294967296 := by
  have := a.isLt
  have h1 : (a + pgsize - 1).toNat = (a.toNat + 4095) % 4294967296 := by
    rw [BitVec.toNat_sub, BitVec.toNat_add, pgsize_toNat, show (1 : Word).toNat = 1 from rfl]; omega
  have h2 : ((a + pgsize - 1) % pgsize).toNat = (a.toNat + 4095) % 4294967296 % 4096 := by
    rw [BitVec.toNat_umod, h1, pgsize_toNat]
  rw [roundup, rounddown, BitVec.toNat_sub, h1, h2, pageCeil]
  omega

def memEnd (npages : Nat) : Nat := kernbase.toNat + min npages 65536 * 4096

namespace Kern

def bootRanges (s : Kern) : List Word → List (Word × Word)
  | [] => []
  | n :: ns => ((s.bootAlloc n).1, n) :: (s.bootAlloc n).2.bootRanges ns

def start (s : Kern) : Word := if s.nextfree = 0 then roundup s.kend pgsize else s.nextfree

def bump (s : Kern) (n : Word) : Kern := { s with nextfree := roundup (s.start + n) pgsize }

@[simp] theorem bump_kend (s : Kern) (n : Word) : (s.bump n).kend = s.kend := by simp only [bump]

@[simp] theorem bump_nextfree (s : Kern) (n : Word) : (s.bump n).nextfree = roundup (s.start + n) pgsize := by
  simp only [bump]

theorem bootAlloc_eq (s : Kern) (n : Word) : s.bootAlloc n = (s.start, s.bump n) := rfl

theorem bootRanges_cons (s : Kern) (n : Word) (ns : List Word) :
    s.bootRanges (n :: ns) = (s.start, n) :: (s.bump n).bootRanges ns := rfl

theorem bump_start (s : Kern) (n : Word) : (s.bump n).start =
    if roundup (s.start + n) pgsize = 0 then roundup s.kend pgsize else roundup (s.start + n) pgsize := by
  rw [start, bump_kend, bump_nextfree]

end Kern

/-- What is asked of the ranges: page-aligned, one behind the other, in memory that exists. -/
structure RangesOk (limit : Nat) (rs : List (Word × Word)) : Prop where
  aligned : ∀ x ∈ rs, x.1.toNat % 4096 = 0
  ordered : rs.Pairwise fun x y => x.1.toNat + x.2.toNat ≤ y.1.toNat
  inside : ∀ x ∈ rs, ∀ b, x.1.toNat ≤ b → b < x.1.toNat + x.2.toNat → kernbase.toNat ≤ b ∧ b < limit

def Fits (limit : Nat) : Nat → List Word → Prop
  | _, [] => True
  | a, n :: ns => a < 4294967296 ∧ (n = 0 ∨ (kernbase.toNat ≤ a ∧ a + n.toNat ≤ limit)) ∧
      Fits limit (pageCeil (a + n.toNat)) ns

section
variable {limit a : Nat} {s : Kern} {ns : List Word} {n r : Word} {rs : List (Word × Word)}

theorem RangesOk.nil : RangesOk limit [] := ⟨by simp, .nil, by simp⟩

theorem RangesOk.tail (h : RangesOk limit ((r, n) :: rs)) : RangesOk limit rs :=
  ⟨fun x hx => h.aligned x (List.mem_cons_of_mem _ hx), (List.pairwise_cons.mp h.ordered).2,
    fun x hx => h.inside x (List.mem_cons_of_mem _ hx)⟩

theorem RangesOk.head_inside (h : RangesOk limit ((r, n) :: rs)) :
    n = 0 ∨ (kernbase.toNat ≤ r.toNat ∧ r.toNat + n.toNat ≤ limit) := by
  by_cases hn : n = 0
  · exact Or.inl hn
  · have hpos : 0 < n.toNat := Nat.pos_of_ne_zero fun e => hn (BitVec.eq_of_toNat_eq e)
    have hb := h.inside _ List.mem_cons_self
    have h1 := hb r.toNat (Nat.le_refl _) (by simp only; omega)
    have h2 := hb (r.toNat + n.toNat - 1) (by simp only; omega) (by simp only; omega)
    exact Or.inr (by omega)

theorem RangesOk.cons (h : RangesOk limit rs) (ha : r.toNat % 4096 = 0)
    (hi : n = 0 ∨ (kernbase.toNat ≤ r.toNat ∧ r.toNat + n.toNat ≤ limit))
    (ho : ∀ x ∈ rs, r.toNat + n.toNat ≤ x.1.toNat) : RangesOk limit ((r, n) :: rs) := by
  refine ⟨fun x hx => ?_, List.pairwise_cons.mpr ⟨ho, h.ordered⟩, fun x hx b h1 h2 => ?_⟩
  · rcases List.mem_cons.mp hx with rfl | hx
    · exact ha
    · exact h.aligned x hx
  · rcases List.mem_cons.mp hx with rfl | hx
    · rcases hi with rfl | hi
      · simp at h1 h2; omega
      · simp only at h1 h2; omega
    · exact h.inside x hx b h1 h2

/-! ## One request -/

structure StartsAt (s : Kern) (a : Nat) : Prop where
  start : s.start.toNat = a
  aligned : a % 4096 = 0
  kend : pageCeil s.kend.toNat ≤ a

theorem StartsAt.lt (h : StartsAt s a) : a < 4294967296 := h.start ▸ s.start.isLt

theorem StartsAt.congr {t : Kern} (h : StartsAt s a) (hn : t.nextfree = s.nextfree) (hk : t.kend = s.kend) :
    StartsAt t a :=
  ⟨by rw [← h.start, Kern.start, Kern.start, hn, hk], h.aligned, by rw [hk]; exact h.kend⟩

theorem StartsAt.next (h : StartsAt s a) (hn : pageCeil (a + n.toNat) < 4294967296) :
    StartsAt (s.bump n) (pageCeil (a + n.toNat)) := by
  have hs := h.start
  have hk := h.kend
  have hr : (roundup (s.start + n) pgsize).toNat = pageCeil (a + n.toNat) := by
    rw [roundup_pageCeil, BitVec.toNat_add, hs]
    unfold pageCeil at hn ⊢
    omega
  have hle : a ≤ pageCeil (a + n.toNat) := by
    unfold pageCeil
    omega
  refine ⟨?_, by unfold pageCeil; omega, by rw [Kern.bump_kend]; omega⟩
  rw [Kern.bump_start]
  split
  · rename_i h0
    rw [h0, show (0 : Word).toNat = 0 from rfl] at hr
    rw [roundup_pageCeil]
    omega
  · exact hr

theorem memEnd_mod (npages : Nat) : memEnd npages % 4096 = 0 := by
  rw [memEnd, kernbase_toNat]; omega

theorem memEnd_le (npages : Nat) : memEnd npages ≤ 4294967296 := by
  rw [memEnd, kernbase_toNat]; omega

/-! ## Sequences of requests -/

theorem StartsAt.ranges_ok (h : StartsAt s a) (hf : Fits limit a ns) :
    RangesOk limit (s.bootRanges ns) ∧ ∀ x ∈ s.bootRanges ns, a ≤ x.1.toNat := by
  induction ns generalizing s a with
  | nil => exact ⟨.nil, by simp [Kern.bootRanges]⟩
  | cons n ns ih =>
    obtain ⟨_, hi, hf⟩ := hf
    rw [Kern.bootRanges_cons]
    have hle : a + n.toNat ≤ pageCeil (a + n.toNat) := by unfold pageCeil; omega
    have htail : RangesOk limit ((s.bump n).bootRanges ns) ∧
        ∀ x ∈ (s.bump n).bootRanges ns, pageCeil (a + n.toNat) ≤ x.1.toNat := by
      cases ns with
      | nil => exact ⟨.nil, by simp [Kern.bootRanges]⟩
      | cons n' ns' => exact ih (h.next hf.1) hf
    have hs := h.start
    refine ⟨htail.1.cons (by rw [hs]; exact h.aligned) (by rw [hs]; exact hi) fun x hx => ?_, fun x hx => ?_⟩
    · have := htail.2 x hx
      rw [hs]
      omega
    · rcases List.mem_cons.mp hx with rfl | hx
      · exact Nat.le_of_eq hs.symm
      · have := htail.2 x hx
        omega

theorem StartsAt.fits (h : StartsAt s a) (hl : limit ≤ 4294967296) (hm : limit % 4096 = 0)
    (hr : RangesOk limit (s.bootRanges ns)) : Fits limit a ns := by
  induction ns generalizing s a with
  | nil => exact trivial
  | cons n ns ih =>
    rw [Kern.bootRanges_cons] at hr
    have hi := hr.head_inside
    rw [h.start] at hi
    refine ⟨h.lt, hi, ?_⟩
    by_cases hlt : pageCeil (a + n.toNat) < 4294967296
    · exact ih (h.next hlt) hr.tail
    · -- all memory is taken; a further request would start at the end of the kernel again
      cases ns with
      | nil => exact trivial
      | cons n' ns' =>
        exfalso
        have ha := h.lt
        have ham := h.aligned
        have hk := h.kend
        have hs := h.start
        have hpos : 0 < n.toNat ∧ a + n.toNat ≤ limit := by
          rcases hi with rfl | hi
          · simp only [pageCeil, show (0 : Word).toNat = 0 from rfl] at hlt; omega
          · simp only [pageCeil] at hlt; omega
        have hr0 : roundup (s.start + n) pgsize = 0 := by
          apply BitVec.eq_of_toNat_eq
          rw [roundup_pageCeil, BitVec.toNat_add, hs]
          unfold pageCeil at hlt ⊢
          simp only [show (0 : Word).toNat = 0 from rfl]
          omega
        rw [Kern.bootRanges_cons] at hr
        have ho := (List.pairwise_cons.mp hr.ordered).1 _ List.mem_cons_self
        rw [Kern.bump_start, if_pos hr0, roundup_pageCeil] at ho
        simp only at ho
        omega

theorem ranges_zero (h0 : s.nextfree = 0 ∨ s.nextfree = roundup s.kend pgsize) (hz : ∀ n ∈ ns, n = 0) :
    ∀ x ∈ s.bootRanges ns, x = (roundup s.kend pgsize, 0) := by
  induction ns generalizing s with
  | nil => simp [Kern.bootRanges]
  | cons n ns ih =>
    have hs : s.start = roundup s.kend pgsize := by
      unfold Kern.start
      rcases h0 with h0 | h0
      · rw [if_pos h0]
      · rw [h0]; split <;> rfl
    have hr : roundup (s.start + n) pgsize = roundup s.kend pgsize := by
      apply BitVec.eq_of_toNat_eq
      rw [hz n List.mem_cons_self, roundup_pageCeil, show (0 : Word) = 0#32 from rfl, BitVec.add_zero, hs,
        roundup_pageCeil]
      unfold pageCeil
      omega
    rw [Kern.bootRanges_cons]
    intro x hx
    rcases List.mem_cons.mp hx with rfl | hx
    · rw [hs, hz n List.mem_cons_self]
    · have hb : (s.bump n).nextfree = roundup (s.bump n).kend pgsize := by rw [Kern.bump_nextfree, hr, Kern.bump_kend]
      have := ih (Or.inr hb) (fun m hm => hz m (List.mem_cons_of_mem _ hm)) x hx
      rwa [Kern.bump_kend] at this

theorem RangesOk.of_eq {x : Word × Word} (ha : x.1.toNat % 4096 = 0) (hx : x.2 = 0) (h : ∀ y ∈ rs, y = x) :
    RangesOk limit rs := by
  induction rs with
  | nil => exact .nil
  | cons y rs ih =>
    obtain rfl := h y List.mem_cons_self
    have ht := fun z hz => h z (List.mem_cons_of_mem _ hz)
    refine (ih ht).cons ha (Or.inl hx) fun z hz => ?_
    rw [ht z hz, hx]
    exact Nat.le_refl _

theorem zero_of_ranges (h0 : s.nextfree = 0) (hk : roundup s.kend pgsize = 0)
    (hr : RangesOk limit (s.bootRanges ns)) : ∀ n ∈ ns, n = 0 := by
  induction ns generalizing s with
  | nil => simp
  | cons n ns ih =>
    have hs : s.start = 0 := by rw [Kern.start, if_pos h0, hk]
    rw [Kern.bootRanges_cons, hs] at hr
    have hn : n = 0 := by
      rcases hr.head_inside with hn | ⟨h, _⟩
      · exact hn
      · exact absurd h (by decide)
    subst hn
    have hb : (s.bump 0).nextfree = 0 := by rw [Kern.bump_nextfree, hs]; rfl
    have := ih hb (by rw [Kern.bump_kend]; exact hk) hr.tail
    exact fun m hm => (List.mem_cons.mp hm).elim id (this m)

end

/-- **`boot_alloc`.** From the first call on, the ranges of a sequence of requests are page-aligned, one
behind the other and in existing memory just when the requests fit, or nothing is requested at all. -/
theorem bootAlloc_sound_iff {s : Kern} (h0 : s.nextfree = 0) (ns : List Word) :
    RangesOk (memEnd s.npages) (s.bootRanges ns) ↔
      (∀ n ∈ ns, n = 0) ∨ Fits (memEnd s.npages) (pageCeil s.kend.toNat) ns := by
  have hle : pageCeil s.kend.toNat ≤ 4294967296 := by
    have := s.kend.isLt
    unfold pageCeil
    omega
  have hal : (roundup s.kend pgsize).toNat % 4096 = 0 := by
    rw [roundup_pageCeil, pageCeil]; omega
  have hstart : pageCeil s.kend.toNat < 4294967296 → StartsAt s (pageCeil s.kend.toNat) := fun hlt =>
    ⟨by rw [Kern.start, if_pos h0, roundup_pageCeil, Nat.mod_eq_of_lt hlt], by unfold pageCeil; omega, Nat.le_refl _⟩
  constructor
  · intro hr
    rcases Nat.lt_or_eq_of_le hle with hlt | heq
    · exact Or.inr ((hstart hlt).fits (memEnd_le _) (memEnd_mod _) hr)
    · refine Or.inl (zero_of_ranges h0 (BitVec.eq_of_toNat_eq ?_) hr)
      rw [roundup_pageCeil, heq]; rfl
  · rintro (hz | hf)
    · exact .of_eq (x := (roundup s.kend pgsize, 0)) hal rfl (ranges_zero (Or.inl h0) hz)
    · cases ns with
      | nil => exact .nil
      | cons n ns => exact ((hstart hf.1).ranges_ok hf).1

theorem bootAlloc_sound_small : RangesOk (memEnd 512) (Kern.bootRanges { smallMachine with nextfree := 0 } [0x1000, 0x1001]) ↔
    (∀ n ∈ [(0x1000 : Word), 0x1001], n = 0) ∨ Fits (memEnd 512) (pageCeil smallMachine.kend.toNat) [0x1000, 0x1001] :=
  bootAlloc_sound_iff (s := { smallMachine with nextfree := 0 }) rfl _

/-- On 2 MB a request for 1 MB behind the kernel is granted beyond the end of memory. -/
theorem bootAlloc_beyond : ¬ ∀ (s : Kern) (ns : List Word), s.nextfree = 0 → RangesOk (memEnd s.npages) (s.bootRanges ns) := by
  intro h
  have := (h { smallMachine with nextfree := 0 } [0x100000] rfl).head_inside
  exact absurd this (by decide)

end Jos
