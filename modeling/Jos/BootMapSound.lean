import Jos.KernMapSound
import Jos.UvptSound
import Mathlib.Data.Finset.Card

/-!
# `boot_map_region`

Where the page tables are distinct pages off the free list and free pages have no
references, `boot_map_region` maps its pages, or panics for want of page tables, and
leaves such a state again, whatever the pages are that it maps. The translations it
leaves alone are all the others outside `[UVPT, ULIM)`; in that window the directory
shows its own tables, so the tables that it makes appear there.
-/

namespace Jos

open IntrusiveList

section
variable {dirs ix : Finset Nat} {D : Nat} {perm : Word} (hD : D ∈ dirs)
include hD

theorem bootMapLoop_dir : ∀ (n lo q : Nat) {s s' : Kern} {free : List Nat} {E : Nat}, Wf dirs ix s free →
    lo + n ≤ 1048576 → (∀ j, lo ≤ j → j < lo + n → j / 1024 ∈ ix) → E ∈ dirs → E ≠ D →
    Kern.bootMapLoop (kva D) perm n s (page2pa lo) (page2pa q) = .ok s' → ∀ i, s'.mem E i = s.mem E i
  | 0, lo, q, s, s', free, E, _, _, _, _, _, hl, i => by
    rw [Kern.bootMapLoop, pure_ok, Except.ok.injEq] at hl
    rw [hl]
  | n + 1, lo, q, s, s', free, E, h, hlo, hix, hE, hne, hl, i => by
    have hi : pdx (page2pa lo) ∈ ix := by
      rw [pdx_page2pa (by omega)]
      exact hix lo (by omega) (by omega)
    rcases h.walk_create hD hi with ⟨_, _, he⟩ | ⟨T, s₁, free₁, hw, he⟩
    · rw [Kern.bootMapLoop, he] at hl
      cases hl
    · obtain ⟨hs₁, ht, _⟩ := h.walkTo_wf hD hi hw
      have hT := table_of_dir hD hi ht
      have hst := Kern.store_entry s₁ (hs₁.table_lt' hT) (ptx_lt (page2pa lo)) (page2pa q ||| pteP ||| perm)
      rw [Kern.bootMapLoop, he, ok_bind] at hl
      dsimp only at hl
      rw [hst, ok_bind, ← page2pa_succ, ← page2pa_succ] at hl
      have := bootMapLoop_dir n (lo + 1) (q + 1) (hs₁.write_entry hT _ _) (by omega)
        (fun j h1 h2 => hix j (by omega) (by omega)) hE hne hl i
      rw [this, hs₁.write_dir_eq hT _ _ hE, h.dir_walkTo hw hE fun e => hne (Prod.mk.inj e).1]

end

/-! ## The pages taken are the tables made -/

def made (m m' : Mem) (D : Nat) (R : Finset Nat) : Finset Nat :=
  (R.filter fun i => target (m D i) = none).filter fun i => ¬ target (m' D i) = none

section
variable {dirs ix : Finset Nat} {D T : Nat} {g : Nat → Option Word} {s s' : Kern} {free free' new : List Nat}
  (m : Maps dirs ix D g s s' free free' new)
include m

theorem Maps.new_free (hT : T ∈ new) : T ∈ free := m.took ▸ List.mem_append_left free' hT

theorem Maps.mem_made {i : Nat} (hi : i ∈ made s.mem s'.mem D ix) : i ∈ ix ∧ target (s.mem D i) = none ∧
    ∃ T ∈ new, s'.mem D i = page2pa T ||| tableFlags := by
  obtain ⟨hb, ha⟩ := Finset.mem_filter.mp hi
  obtain ⟨hix, hb⟩ := Finset.mem_filter.mp hb
  rcases m.dir i with he | ⟨_, _, hT⟩
  · rw [he] at ha
    exact absurd hb ha
  · exact ⟨hix, hb, hT⟩

theorem Maps.card_made (hR : ∀ j w, g j = some w → j / 1024 ∈ ix) : (made s.mem s'.mem D ix).card = new.length := by
  have hc := m.count ix hR
  have hs := Finset.card_filter_add_card_filter_not (s := ix.filter fun i => target (s.mem D i) = none)
    fun i => target (s'.mem D i) = none
  have he : (ix.filter fun i => target (s.mem D i) = none).filter (fun i => target (s'.mem D i) = none) =
      ix.filter fun i => target (s'.mem D i) = none := by
    rw [Finset.filter_filter]
    refine Finset.filter_congr fun i _ => and_iff_right_of_imp fun ha => ?_
    -- an entry that was present stays
    rcases m.dir i with hi | ⟨_, hb, _⟩
    · rw [← hi]; exact ha
    · exact hb
  rw [he] at hs
  unfold need at hc
  unfold made
  omega

variable (h : Wf dirs ix s free)
include h

theorem Maps.new_nodup : new.Nodup := (List.nodup_append.mp (m.took ▸ h.chain.nodup)).1

theorem Maps.target_new (hT : T ∈ new) : target (page2pa T ||| tableFlags) = some T := by
  have := h.free_lt T (m.new_free hT)
  have := h.npages_le
  exact target_table (by omega)

theorem Maps.free_ref (h0 : ∀ p ∈ free, s.ref p = 0) : ∀ p ∈ free', s'.ref p = 0 := by
  intro p hp
  have hn : p ∉ new := fun hm => (List.nodup_append.mp (m.took ▸ h.chain.nodup)).2.2 p hm p hp rfl
  rw [m.ref, if_neg hn, h0 p (m.took ▸ List.mem_append_right new hp)]
  rfl

theorem Maps.new_table (hD : D ∈ dirs) (hR : ∀ j w, g j = some w → j / 1024 ∈ ix) (hT : T ∈ new) :
    ∃ i, target (s.mem D i) = none ∧ s'.mem D i = page2pa T ||| tableFlags := by
  have hmap : Set.MapsTo (fun i => (target (s'.mem D i)).getD 0) (made s.mem s'.mem D ix) new.toFinset := by
    intro i hi
    obtain ⟨_, _, U, hU, he⟩ := m.mem_made hi
    simp only [he, m.target_new h hU, Option.getD_some, Finset.mem_coe, List.mem_toFinset]
    exact hU
  have hinj : Set.InjOn (fun i => (target (s'.mem D i)).getD 0) (made s.mem s'.mem D ix) := by
    intro i hi j hj hij
    obtain ⟨hix, _, U, hU, he⟩ := m.mem_made hi
    obtain ⟨hjx, _, V, hV, hf⟩ := m.mem_made hj
    simp only [he, hf, m.target_new h hU, m.target_new h hV, Option.getD_some] at hij
    subst hij
    refine (m.wf.table_inj D hD D hD i hix j hjx U ?_ ?_).2
    · rw [he]; exact m.target_new h hU
    · rw [hf]; exact m.target_new h hU
  have hcard : new.toFinset.card ≤ (made s.mem s'.mem D ix).card := by
    rw [m.card_made hR, List.toFinset_card_of_nodup (m.new_nodup h)]
  obtain ⟨i, hi, hiT⟩ := Finset.surjOn_of_injOn_of_card_le _ hmap hinj hcard (List.mem_toFinset.mpr hT)
  obtain ⟨_, hb, U, hU, he⟩ := m.mem_made hi
  simp only [he, m.target_new h hU, Option.getD_some] at hiT
  exact ⟨i, hb, by rw [he, hiT]⟩

end

/-! ## `boot_map_region` -/

def pageAt (a : Word) (k : Nat) : Word := a + BitVec.ofNat 32 k * pgsize

theorem page2pa_pageAt {a : Word} (ha : a.toNat % 4096 = 0) (k : Nat) : page2pa (pgnum a + k) = pageAt a k := by
  apply BitVec.eq_of_toNat_eq
  rw [pageAt, page2pa_toNat, pgnum_eq, BitVec.toNat_add, BitVec.toNat_mul, BitVec.toNat_ofNat, pgsize_toNat]
  omega

theorem pgnum_pageAt {a : Word} {n k : Nat} (hle : a.toNat + n * 4096 ≤ 4294967296) (hk : k < n) :
    pgnum (pageAt a k) = pgnum a + k := by
  rw [pageAt, pgnum_eq, pgnum_eq, BitVec.toNat_add, BitVec.toNat_mul, BitVec.toNat_ofNat, pgsize_toNat]
  omega

theorem pdx_pageAt {a : Word} {n k : Nat} (hle : a.toNat + n * 4096 ≤ 4294967296) (hk : k < n) :
    pdx (pageAt a k) = (pgnum a + k) / 1024 := by
  rw [← pgnum_div, pgnum_pageAt hle hk]

/-- What mapping `n` pages from `va` on to `pa` in directory `D` leaves, with the page tables `new` made. -/
structure RegionMapped (dirs : Finset Nat) (D n : Nat) (va pa perm : Word) (s s' : Kern) (new : List Nat) : Prop where
  pte : ∀ k < n, pte s'.mem D (pageAt va k) = some (pageAt pa k ||| perm ||| pteP)
  other : ∀ E ∈ dirs, ∀ a, OutsideUvpt a → ¬ (E = D ∧ ∃ k < n, pgnum a = pgnum (pageAt va k)) →
    Jos.pte s'.mem E a = Jos.pte s.mem E a
  /-- At `UVPT` the directory shows its page tables: those that were there stay, and the new ones appear. -/
  window : target (s.mem D (pdx uvpt)) = some D ∨ target (s.mem D (pdx uvpt)) = none → ∀ a, ¬ OutsideUvpt a →
    Jos.pte s'.mem D a = Jos.pte s.mem D a ∨
      (Jos.pte s.mem D a = none ∧ ∃ T ∈ new, Jos.pte s'.mem D a = some (page2pa T ||| tableFlags))
  window_other : ∀ E ∈ dirs, E ≠ D → target (s.mem E (pdx uvpt)) = some E ∨ target (s.mem E (pdx uvpt)) = none →
    ∀ a, ¬ OutsideUvpt a → Jos.pte s'.mem E a = Jos.pte s.mem E a
  ref : ∀ p, p ∉ new → s'.ref p = s.ref p
  ref_new : ∀ T ∈ new, s.ref T = 0 ∧ s'.ref T = 1
  new_table : ∀ T ∈ new, s.onFree T ∧ ∃ i, target (s.mem D i) = none ∧ s'.mem D i = page2pa T ||| tableFlags

theorem pte_self {m : Mem} {E : Nat} {a : Word} (hE : target (m E (pdx uvpt)) = some E) (ha : ¬ OutsideUvpt a) :
    pte m E a = present (m E (ptx a)) := by
  rw [outsideUvpt_iff, not_not] at ha
  exact pte_eq (ha ▸ hE)

theorem pte_window_none {m : Mem} {E : Nat} {a : Word} (hE : target (m E (pdx uvpt)) = none) (ha : ¬ OutsideUvpt a) :
    pte m E a = none := by
  rw [outsideUvpt_iff, not_not] at ha
  exact pte_none (ha ▸ hE)

section
variable {dirs ix : Finset Nat} {D n : Nat} {s s' : Kern} {free free' new : List Nat}
  {va pa perm : Word} (h : Wf dirs ix s free) (h0 : ∀ p ∈ free, s.ref p = 0) (hix : ∀ i ∈ mapIx, i ∈ ix) (hD : D ∈ dirs)
  (hle : va.toNat + n * 4096 ≤ 4294967296) (hout : ∀ k < n, OutsideUvpt (pageAt va k))
include hle hout

theorem region_ix {j : Nat} (h1 : pgnum va ≤ j) (h2 : j < pgnum va + n) : j / 1024 ∈ mapIx := by
  have hk : j - pgnum va < n := by omega
  have hj : j = pgnum (pageAt va (j - pgnum va)) := by
    rw [pgnum_pageAt hle hk]
    omega
  rw [hj, pgnum_div]
  exact pdx_mapIx (outsideUvpt_iff.mp (hout _ hk))

include h h0 hix hD

theorem RegionMapped.of_maps (hpa : pa.toNat % 4096 = 0)
    (m : Maps dirs ix D (region (pgnum va) n (pgnum pa) perm) s s' free free' new)
    (hdir : ∀ E ∈ dirs, E ≠ D → ∀ i, s'.mem E i = s.mem E i) : RegionMapped dirs D n va pa perm s s' new := by
  have hu : s'.mem D (pdx uvpt) = s.mem D (pdx uvpt) := m.dir_none _ fun j hj => by
    refine region_out (Nat.lt_or_ge j (pgnum va) |>.imp_right fun h1 => ?_) _ _
    by_contra h2
    exact (mem_mapIx.mp (region_ix hle hout h1 (by omega))).1 hj
  have hmi : ∀ a, OutsideUvpt a → pdx a ∈ ix := fun a ha => hix _ (pdx_mapIx (outsideUvpt_iff.mp ha))
  constructor
  · intro k hk
    have hg := pgnum_pageAt hle hk
    rw [m.pte _ (hmi _ (hout k hk)), hg, region_in (by omega) (by omega), Nat.add_sub_cancel_left,
      page2pa_pageAt hpa, BitVec.or_assoc, BitVec.or_comm pteP, ← BitVec.or_assoc]
    rfl
  · intro E hE a ha hne
    by_cases hED : E = D
    · subst hED
      rw [m.pte a (hmi a ha), region_out]
      · cases Jos.pte s.mem E a <;> rfl
      · by_contra hr
        refine hne ⟨rfl, pgnum a - pgnum va, by omega, ?_⟩
        rw [pgnum_pageAt hle (by omega)]
        omega
    · exact m.pte_other E hE hED a (hmi a ha)
  · intro hself a ha
    rcases hself with hself | hnone
    · rw [pte_self hself ha, pte_self (hu ▸ hself) ha]
      rcases m.dir (ptx a) with he | ⟨_, hb, T, hT, he⟩
      · exact Or.inl (by rw [he])
      · exact Or.inr ⟨present_eq_none.mpr hb, T, hT, by rw [he, present_of_target (m.target_new h hT)]⟩
    · exact Or.inl (by rw [pte_window_none hnone ha, pte_window_none (hu ▸ hnone) ha])
  · intro E hE hne hself a ha
    have hd := hdir E hE hne
    rcases hself with hself | hnone
    · rw [pte_self hself ha, pte_self ((hd _).symm ▸ hself) ha, hd]
    · rw [pte_window_none hnone ha, pte_window_none ((hd _).symm ▸ hnone) ha]
  · intro p hpn
    rw [m.ref, if_neg hpn]
    exact BitVec.add_zero _
  · intro T hT
    have hT0 := h0 T (m.new_free hT)
    exact ⟨hT0, by rw [m.ref, if_pos hT, hT0]; rfl⟩
  · intro T hT
    refine ⟨h.chain.linked_iff.mpr (m.new_free hT), m.new_table h hD (fun j w hj => ?_) hT⟩
    obtain ⟨h1, h2⟩ := region_range hj
    exact hix _ (region_ix hle hout h1 h2)

end

/-- **`boot_map_region`** maps the region and nothing else outside the window at `UVPT`, where the new page
tables appear, or panics because the free list is shorter than the number of page tables it needs. What it asks of
the state holds again in the state it leaves. -/
theorem bootMapRegion_sound {dirs ix : Finset Nat} {D : Nat} {s : Kern} {free : List Nat}
    (va size pa perm : Word) (h : Wf dirs ix s free) (h0 : ∀ p ∈ free, s.ref p = 0) (hix : ∀ i ∈ mapIx, i ∈ ix)
    (hD : D ∈ dirs) (hp : perm.toNat < 4096) (hva : va.toNat % 4096 = 0) (hpa : pa.toNat % 4096 = 0)
    (hle : va.toNat + (size.toNat + 4095) / 4096 * 4096 ≤ 4294967296)
    (hout : ∀ k < (size.toNat + 4095) / 4096, OutsideUvpt (pageAt va k)) :
    (s.bootMapRegion (kva D) va size pa perm = .error .bootMapRegion ∧
      free.length < need s.mem D ((Finset.range ((size.toNat + 4095) / 4096)).image fun k => pdx (pageAt va k))) ∨
    ∃ s' free' new, s.bootMapRegion (kva D) va size pa perm = .ok s' ∧
      RegionMapped dirs D ((size.toNat + 4095) / 4096) va pa perm s s' new ∧
      free = new ++ free' ∧
      new.length = need s.mem D ((Finset.range ((size.toNat + 4095) / 4096)).image fun k => pdx (pageAt va k)) ∧
      Wf dirs ix s' free' ∧ ∀ p ∈ free', s'.ref p = 0 := by
  have hpg : pgnum va + (size.toNat + 4095) / 4096 ≤ 1048576 := by
    rw [pgnum_eq]
    omega
  have hr : ∀ j, pgnum va ≤ j → j < pgnum va + (size.toNat + 4095) / 4096 → j / 1024 ∈ ix := fun j h1 h2 =>
    hix _ (region_ix hle hout h1 h2)
  have himg : ∀ j, pgnum va ≤ j → j < pgnum va + (size.toNat + 4095) / 4096 →
      j / 1024 ∈ (Finset.range ((size.toNat + 4095) / 4096)).image fun k => pdx (pageAt va k) := fun j h1 h2 => by
    refine Finset.mem_image.mpr ⟨j - pgnum va, Finset.mem_range.mpr (by omega), ?_⟩
    rw [pdx_pageAt hle (by omega), Nat.add_sub_cancel' h1]
  rcases bootMapRegion_maps va size pa perm h hD hp hva hpa hpg hr with ⟨he, hlt⟩ | ⟨s', free', new, he, m⟩
  · exact Or.inl ⟨he, hlt _ himg⟩
  · refine Or.inr ⟨s', free', new, he, .of_maps h h0 hix hD hle hout hpa m fun E hE hne => ?_, m.took, ?_, m.wf,
      m.free_ref h h0⟩
    · rw [Kern.bootMapRegion, numpage_toNat, ← page2pa_pgnum hva, ← page2pa_pgnum hpa] at he
      exact bootMapLoop_dir hD _ _ _ h hpg hr hE hne he
    · have hmade : need s'.mem D ((Finset.range ((size.toNat + 4095) / 4096)).image fun k => pdx (pageAt va k)) = 0 := by
        rw [need, Finset.card_eq_zero, Finset.filter_eq_empty_iff]
        intro i hi
        obtain ⟨k, hk, rfl⟩ := Finset.mem_image.mp hi
        have hk := Finset.mem_range.mp hk
        rw [pdx_pageAt hle hk]
        exact m.dir_made _ _ (region_in (by omega) (by omega) _ _)
      have hcount := m.count _ fun j w hj => himg j (region_range hj).1 (region_range hj).2
      rw [hmade, Nat.zero_add] at hcount
      exact hcount.symm

/-! ## The small machine -/

theorem smallKern_inv : Inv {398} mapIx (bootRefs smallEnd) smallKern (511 :: initFree smallEnd 511) := by
  have h := smallBoot_inv mapIx
  rw [smallKern_eq]
  refine h.frame (Kern.write_npages ..) (Kern.write_link ..) (Kern.write_ref ..) (Kern.write_pageFreeList ..) (fun E hE i hi => ?_) (fun T hT j _ => ?_)
  · have hne : (E, i) ≠ (398, pdx uvpt) := fun e => (mem_mapIx.mp hi).1 (Prod.mk.inj e).2
    rw [Kern.write_mem, Mem.set_of_ne _ hne]
  · have hne : T ≠ 398 := fun e => h.table_dir T hT (Finset.mem_singleton.mpr e)
    rw [Kern.write_mem, Mem.set_of_page_ne _ hne]

/-- The first two maps of `mem_init`: 4 MB at `UPAGES`, of which many pages are free and some beyond the end of memory,
and then the kernel stack. -/
theorem bootMapRegion_sound_small : ∃ s₁ s₂ new₁ new₂,
    smallKern.bootMapRegion (kva 398) upages ptsize 0x190000 pteU = .ok s₁ ∧
    RegionMapped {398} 398 1024 upages 0x190000 pteU smallKern s₁ new₁ ∧
    s₁.bootMapRegion (kva 398) (kstacktop - kstksize) kstksize 0x10d000 pteW = .ok s₂ ∧
    RegionMapped {398} 398 8 (kstacktop - kstksize) 0x10d000 pteW s₁ s₂ new₂ := by
  have hD : 398 ∈ ({398} : Finset Nat) := Finset.mem_singleton_self 398
  have hlen : 110 ≤ (initFree smallEnd 511).length := smallBoot_length 110 (Nat.le_refl _)
  have hn₁ : (ptsize.toNat + 4095) / 4096 = 1024 := rfl
  have hn₂ : (kstksize.toNat + 4095) / 4096 = 8 := rfl
  have hle₁ : upages.toNat + 1024 * 4096 ≤ 4294967296 := by decide
  have hle₂ : (kstacktop - kstksize).toNat + 8 * 4096 ≤ 4294967296 := by decide
  have hi₁ : ∀ k < 1024, pdx (pageAt upages k) = 956 := fun k hk => by
    rw [pdx_pageAt hle₁ hk, show pgnum upages = 978944 from rfl]
    omega
  have hi₂ : ∀ k < 8, pdx (pageAt (kstacktop - kstksize) k) = 959 := fun k hk => by
    rw [pdx_pageAt hle₂ hk, show pgnum (kstacktop - kstksize) = 983032 from rfl]
    omega
  -- each map needs one page table at most
  have hneed : ∀ (m : Mem) (i n : Nat) (va : Word), (∀ k < n, pdx (pageAt va k) = i) →
      need m 398 ((Finset.range n).image fun k => pdx (pageAt va k)) ≤ 1 := fun m i n va hi => by
    refine Nat.le_trans (Finset.card_filter_le _ _) (Finset.card_le_one.mpr fun a ha b hb => ?_)
    obtain ⟨k, hk, rfl⟩ := Finset.mem_image.mp ha
    obtain ⟨l, hl, rfl⟩ := Finset.mem_image.mp hb
    rw [hi k (Finset.mem_range.mp hk), hi l (Finset.mem_range.mp hl)]
  have h₁ := bootMapRegion_sound upages ptsize 0x190000 pteU smallKern_inv.wf smallKern_inv.free_ref (fun _ hi => hi) hD
    (by decide) (by decide) (by decide) hle₁ fun k hk => outsideUvpt_iff.mpr (by rw [hi₁ k hk]; decide)
  rw [hn₁] at h₁
  rcases h₁ with ⟨_, hlt⟩ | ⟨s₁, free₁, new₁, he₁, hm₁, htook, hlen₁, hwf, hfree⟩
  · have := hneed smallKern.mem 956 1024 upages hi₁
    rw [List.length_cons] at hlt
    omega
  have h₂ := bootMapRegion_sound (kstacktop - kstksize) kstksize 0x10d000 pteW hwf hfree (fun _ hi => hi) hD
    (by decide) (by decide) (by decide) hle₂ fun k hk => outsideUvpt_iff.mpr (by rw [hi₂ k hk]; decide)
  rw [hn₂] at h₂
  rcases h₂ with ⟨_, hlt⟩ | ⟨s₂, free₂, new₂, he₂, hm₂, _⟩
  · have := hneed smallKern.mem 956 1024 upages hi₁
    have := hneed s₁.mem 959 8 (kstacktop - kstksize) hi₂
    have htook := congrArg List.length htook
    rw [List.length_cons, List.length_append] at htook
    omega
  · exact ⟨s₁, s₂, new₁, new₂, he₁, hm₁, he₂, hm₂⟩

/-- The table made for `UPAGES` appears as page 956 of the window. -/
theorem bootMapRegion_shows_table : ¬ ∀ (dirs ix : Finset Nat) (D : Nat) (s : Kern) (free : List Nat)
    (va size pa perm : Word), Wf dirs ix s free → (∀ p ∈ free, s.ref p = 0) → (∀ i ∈ mapIx, i ∈ ix) → D ∈ dirs →
    perm.toNat < 4096 → va.toNat % 4096 = 0 → pa.toNat % 4096 = 0 → va.toNat + (size.toNat + 4095) / 4096 * 4096 ≤ 4294967296 →
    (∀ k < (size.toNat + 4095) / 4096, OutsideUvpt (pageAt va k)) →
    s.bootMapRegion (kva D) va size pa perm = .error .bootMapRegion ∨
    ∃ s', s.bootMapRegion (kva D) va size pa perm = .ok s' ∧
      ∀ a, (∀ k < (size.toNat + 4095) / 4096, pgnum a ≠ pgnum (pageAt va k)) → pte s'.mem D a = pte s.mem D a := by
  intro hall
  have hn : ((4096 : Word).toNat + 4095) / 4096 = 1 := rfl
  have hc := hall {398} mapIx 398 smallKern _ upages 4096 0 pteU smallKern_inv.wf smallKern_inv.free_ref (fun _ hi => hi)
    (Finset.mem_singleton_self 398) (by decide) (by decide) (by decide) (by decide)
  have hm := bootMapRegion_maps upages 4096 0 pteU smallKern_inv.wf (Finset.mem_singleton_self 398) (by decide)
    (by decide) (by decide)
  rw [hn, show pgnum upages = 978944 from rfl] at hm
  rw [hn] at hc
  have hk := smallKern_start
  have hself : target (smallKern.mem 398 (pdx uvpt)) = some 398 := by
    rw [hk.uvpt]
    exact target_pte (by decide) (by decide)
  have h956 : target (smallKern.mem 398 956) = none := by rw [hk.zero 956 (by decide) (by decide), target_zero]
  have hw : ¬ OutsideUvpt (pageAt uvpt 956) := by rw [outsideUvpt_iff]; decide
  rcases hm (by decide) (fun j h1 h2 => mem_mapIx.mpr ⟨by rw [show pdx uvpt = 957 from rfl]; omega, by omega⟩) with
    ⟨_, hlt⟩ | ⟨s', free', new, he, m⟩
  · have hneed := hlt {956} fun j h1 h2 => Finset.mem_singleton.mpr (by omega)
    have : need smallKern.mem 398 {956} ≤ 1 := Finset.card_filter_le _ _
    have := smallBoot_length 110 (Nat.le_refl _)
    rw [List.length_cons] at hneed
    omega
  · rcases hc fun k hk0 => by
        obtain rfl : k = 0 := by omega
        exact outsideUvpt_iff.mpr (by decide) with herr | ⟨t, ht, hother⟩
    · rw [he] at herr
      cases herr
    · rw [he, Except.ok.injEq] at ht
      subst ht
      have hu : s'.mem 398 (pdx uvpt) = smallKern.mem 398 (pdx uvpt) := m.dir_none _ fun j hj =>
        region_out (by rw [show pdx uvpt = 957 from rfl] at hj; omega) _ _
      have hsame := hother (pageAt uvpt 956) fun k hk0 => by
        obtain rfl : k = 0 := by omega
        decide
      rw [pte_self hself hw, pte_self (hu ▸ hself) hw, show ptx (pageAt uvpt 956) = 956 from rfl,
        present_eq_none.mpr h956, present_eq_none] at hsame
      exact m.dir_made 978944 _ (region_in (by omega) (by omega) _ _) hsame

end Jos
