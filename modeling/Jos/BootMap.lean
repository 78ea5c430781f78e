import Jos.Walk

/-!
# Mapping a region

`Maps dirs ix D g s s' free free' new` says what mapping pages in directory `D`
makes of `s`: page `j` gets the entry `g j` where `g` gives one, every other
translation stays, and the tables made are the pages `new` taken off the front
of the free list. `boot_map_region` maps its region, or panics for want of a page.
-/

namespace Jos

open IntrusiveList

namespace Wf

variable {dirs ix : Finset Nat} {s s' : Kern} {free : List Nat} {T j : Nat} {v : Word}

theorem frame (h : Wf dirs ix s free) (hn : s'.npages = s.npages) (hl : s'.link = s.link)
    (hf : s'.pageFreeList = s.pageFreeList)
    (hd : ∀ D ∈ dirs, ∀ i ∈ ix, target (s'.mem D i) = target (s.mem D i)) : Wf dirs ix s' free := by
  have ht := tables_congr hd
  refine ⟨by rw [hn]; exact h.npages_le, by rw [hl, hf]; exact h.chain, by rw [hn]; exact h.free_lt, h.dir_lt,
    h.dir_free, by rw [ht, hn]; exact h.table_lt, by rw [ht]; exact h.table_dir, by rw [ht]; exact h.table_free, ?_⟩
  intro D hD D' hD' i hi i' hi' U h1 h2
  rw [hd D hD i hi] at h1
  rw [hd D' hD' i' hi'] at h2
  exact h.table_inj D hD D' hD' i hi i' hi' U h1 h2

theorem write_dir_eq (h : Wf dirs ix s free) (hT : T ∈ tables s.mem dirs ix) (j : Nat) (v : Word) {D : Nat}
    (hD : D ∈ dirs) (i : Nat) : (s.write T j v).mem D i = s.mem D i := by
  rw [Kern.write_mem, Mem.set_of_page_ne _ fun e : D = T => h.table_dir T hT (e ▸ hD)]

theorem write_entry (h : Wf dirs ix s free) (hT : T ∈ tables s.mem dirs ix) (j : Nat) (v : Word) :
    Wf dirs ix (s.write T j v) free :=
  h.frame rfl rfl rfl fun D hD i _ => by rw [h.write_dir_eq hT j v hD]

end Wf

/-- How many of the directory entries `R` still need a page table. -/
def need (m : Mem) (D : Nat) (R : Finset Nat) : Nat := (R.filter fun i => target (m D i) = none).card

theorem need_congr {m m' : Mem} {D : Nat} (h : ∀ i, m' D i = m D i) (R : Finset Nat) : need m' D R = need m D R := by
  simp only [need, h]

theorem need_set {m m' : Mem} {D i : Nat} {R : Finset Nat} (hi : i ∈ R) (ho : target (m D i) = none)
    (hn : target (m' D i) ≠ none) (h : ∀ k, k ≠ i → m' D k = m D k) : need m D R = need m' D R + 1 := by
  have he : (R.filter fun k => target (m' D k) = none) = (R.filter fun k => target (m D k) = none).erase i := by
    ext k
    simp only [Finset.mem_filter, Finset.mem_erase]
    by_cases hk : k = i
    · subst hk; simp [hn]
    · rw [h k hk]; simp [hk]
  have hm : i ∈ R.filter fun k => target (m D k) = none := Finset.mem_filter.mpr ⟨hi, ho⟩
  have hc := Finset.card_pos.mpr ⟨i, hm⟩
  rw [need, need, he, Finset.card_erase_of_mem hm]
  omega

structure Maps (dirs ix : Finset Nat) (D : Nat) (g : Nat → Option Word) (s s' : Kern) (free free' new : List Nat) :
    Prop where
  wf : Wf dirs ix s' free'
  npages : s'.npages = s.npages
  kernPgdir : s'.kernPgdir = s.kernPgdir
  bootstack : s'.bootstack = s.bootstack
  took : free = new ++ free'
  count : ∀ R, (∀ j w, g j = some w → j / 1024 ∈ R) → need s.mem D R = need s'.mem D R + new.length
  ref : ∀ p, s'.ref p = s.ref p + if p ∈ new then 1 else 0
  pte : ∀ a, pdx a ∈ ix → pte s'.mem D a = (g (pgnum a) <|> pte s.mem D a)
  pte_other : ∀ E ∈ dirs, E ≠ D → ∀ a, pdx a ∈ ix → Jos.pte s'.mem E a = Jos.pte s.mem E a
  dir : ∀ i, s'.mem D i = s.mem D i ∨
    (i ∈ ix ∧ target (s.mem D i) = none ∧ ∃ T ∈ new, s'.mem D i = page2pa T ||| tableFlags)
  dir_made : ∀ j w, g j = some w → target (s'.mem D (j / 1024)) ≠ none
  dir_none : ∀ i, (∀ j, j / 1024 = i → g j = none) → s'.mem D i = s.mem D i

namespace Maps

variable {dirs ix : Finset Nat} {D : Nat} {g g' : Nat → Option Word} {s s' s'' : Kern}
  {free free' free'' new new' : List Nat}

theorem refl (h : Wf dirs ix s free) : Maps dirs ix D (fun _ => none) s s free free [] where
  wf := h
  npages := rfl
  kernPgdir := rfl
  bootstack := rfl
  took := rfl
  count := fun _ _ => rfl
  ref := fun p => by simp
  pte := fun a _ => by simp
  pte_other := fun _ _ _ _ _ => rfl
  dir := fun _ => Or.inl rfl
  dir_made := fun j w hg => by cases hg
  dir_none := fun _ _ => rfl

theorem trans (hn : free.Nodup) (h : Maps dirs ix D g s s' free free' new)
    (h' : Maps dirs ix D g' s' s'' free' free'' new') :
    Maps dirs ix D (fun j => g' j <|> g j) s s'' free free'' (new ++ new') where
  wf := h'.wf
  npages := h'.npages.trans h.npages
  kernPgdir := h'.kernPgdir.trans h.kernPgdir
  bootstack := h'.bootstack.trans h.bootstack
  took := by rw [h.took, h'.took, List.append_assoc]
  count := by
    intro R hR
    have h1 : ∀ j w, g j = some w → j / 1024 ∈ R := fun j w hg => by
      cases hj : g' j with
      | none => exact hR j w (by rw [hj]; exact hg)
      | some w' => exact hR j w' (by rw [hj]; rfl)
    have h2 : ∀ j w, g' j = some w → j / 1024 ∈ R := fun j w hg => hR j w (by rw [hg]; rfl)
    rw [h.count R h1, h'.count R h2, List.length_append]
    omega
  ref := by
    intro p
    rw [h'.ref, h.ref]
    rw [h.took] at hn
    by_cases h1 : p ∈ new
    · have h2 : p ∉ new' := fun h2 =>
        (List.nodup_append.mp hn).2.2 p h1 p (by rw [h'.took]; exact List.mem_append_left _ h2) rfl
      simp [h1, h2]
    · simp [h1]
  pte := by
    intro a ha
    rw [h'.pte a ha, h.pte a ha]
    cases g' (pgnum a) <;> rfl
  pte_other := fun E hE hne a ha => (h'.pte_other E hE hne a ha).trans (h.pte_other E hE hne a ha)
  dir := by
    intro i
    rcases h'.dir i with h2 | ⟨hi, h2, T, hT, h3⟩
    · rcases h.dir i with h1 | ⟨hi, h1, T, hT, h3⟩
      · exact Or.inl (h2.trans h1)
      · exact Or.inr ⟨hi, h1, T, List.mem_append_left _ hT, h2.trans h3⟩
    · rcases h.dir i with h1 | ⟨_, _, U, hU, h1⟩
      · exact Or.inr ⟨hi, h1 ▸ h2, T, List.mem_append_right _ hT, h3⟩
      · -- an entry made in the first part is present, so the second part leaves it
        rw [h1, target_eq_none, or_flags_and (page2pa_aligned U) (by decide)] at h2
        exact absurd h2 (by decide)
  dir_made := by
    intro j w hg
    cases hj : g' j with
    | some w' => exact h'.dir_made j w' hj
    | none =>
      rw [hj] at hg
      have h1 := h.dir_made j w hg
      rcases h'.dir (j / 1024) with h2 | ⟨_, h2, _⟩
      · rw [h2]; exact h1
      · exact absurd h2 h1
  dir_none := by
    intro i hi
    have h2 : ∀ j, j / 1024 = i → g' j = none := fun j hj => by
      have := hi j hj
      cases hg : g' j with
      | none => rfl
      | some w => rw [hg] at this; cases this
    have h1 : ∀ j, j / 1024 = i → g j = none := fun j hj => by
      have := hi j hj
      rw [h2 j hj] at this
      exact this
    rw [h'.dir_none i h2, h.dir_none i h1]

end Maps

/-! ## One page -/

def single (j : Nat) (w : Word) : Nat → Option Word := fun k => if k = j then some w else none

theorem Kern.addTable_ref (s : Kern) (D T : Nat) (va : Word) (p : Nat) :
    (s.addTable D T va).ref p = s.ref p + if p ∈ [T] then 1 else 0 := by
  rw [addTable, write_ref, setRef_ref]
  by_cases h : p = T
  · subst h; simp
  · rw [Function.update_of_ne h, clear_ref, pop_ref]; simp [h]

section
variable {dirs ix : Finset Nat} {s s' : Kern} {free free' : List Nat} {D T : Nat} {va w : Word}

theorem Wf.walkTo_new (h : Wf dirs ix s free) (hD : D ∈ dirs) (hi : pdx va ∈ ix)
    (hw : WalkTo D va s free T s' free') : ∃ new, free = new ++ free' ∧
      (∀ p, s'.ref p = s.ref p + if p ∈ new then 1 else 0) ∧
      (∀ i, s'.mem D i = s.mem D i ∨ (i = pdx va ∧ i ∈ ix ∧ target (s.mem D i) = none ∧
        ∃ U ∈ new, s'.mem D i = page2pa U ||| tableFlags)) ∧
      (∀ R, pdx va ∈ R → need s.mem D R = need s'.mem D R + new.length) := by
  rcases hw with ⟨_, rfl, rfl⟩ | ⟨ho, rfl, rfl⟩
  · exact ⟨[], rfl, fun p => by simp, fun i => Or.inl rfl, fun _ _ => rfl⟩
  · have hd : ∀ i, i ≠ pdx va → (s.addTable D T va).mem D i = s.mem D i := fun i he => by
      rw [h.addTable_dir hD List.mem_cons_self]
      exact Mem.set_of_ne _ (fun e => he (congrArg Prod.snd e)) _
    refine ⟨[T], rfl, s.addTable_ref D T va, fun i => ?_, fun R hR => ?_⟩
    · by_cases he : i = pdx va
      · subst he
        refine Or.inr ⟨rfl, hi, ho, T, List.mem_cons_self, ?_⟩
        rw [h.addTable_dir hD List.mem_cons_self]
        exact Mem.set_self ..
      · exact Or.inl (hd i he)
    · exact need_set hR ho (by rw [h.target_addTable hD]; exact Option.some_ne_none T) hd

theorem Wf.map_page (h : Wf dirs ix s free) (hD : D ∈ dirs) (hi : pdx va ∈ ix)
    (hw : WalkTo D va s free T s' free') (hP : target w ≠ none) :
    ∃ new, Maps dirs ix D (single (pgnum va) w) s (s'.write T (ptx va) w) free free' new := by
  obtain ⟨hs', ht, hn⟩ := h.walkTo_wf hD hi hw
  have hT := table_of_dir hD hi ht
  obtain ⟨new, hnew, href, hdir, hneed⟩ := h.walkTo_new hD hi hw
  have hd : ∀ i, (s'.write T (ptx va) w).mem D i = s'.mem D i := hs'.write_dir_eq hT _ w hD
  have hpte : ∀ E ∈ dirs, ∀ a, pdx a ∈ ix → pte (s'.write T (ptx va) w).mem E a =
      if E = D ∧ pgnum a = pgnum va then present w else pte s.mem E a := fun E hE a ha =>
    h.pte_walk_write hD hi hw w hE ha
  have hpw : present w = some w := by
    obtain ⟨U, hU⟩ := Option.ne_none_iff_exists'.mp hP
    exact present_of_target hU
  refine ⟨new, hs'.write_entry hT _ w, hn, ?_, ?_, hnew, fun R hR => ?_, href, ?_, ?_, ?_, ?_, ?_⟩
  · rcases hw with ⟨_, rfl, _⟩ | ⟨_, _, rfl⟩ <;> rfl
  · rcases hw with ⟨_, rfl, _⟩ | ⟨_, _, rfl⟩ <;> rfl
  · rw [hneed R (pgnum_div va ▸ hR (pgnum va) w (if_pos rfl)), need_congr hd]
  · intro a ha
    rw [hpte D hD a ha, single]
    by_cases hg : pgnum a = pgnum va
    · rw [if_pos ⟨rfl, hg⟩, if_pos hg, hpw]; rfl
    · rw [if_neg fun e => hg e.2, if_neg hg]; rfl
  · intro E hE hne a ha
    rw [hpte E hE a ha, if_neg fun e => hne e.1]
  · intro i
    rw [hd i]
    exact Or.imp_right (fun e => ⟨e.2.1, e.2.2⟩) (hdir i)
  · intro j w' hj
    unfold single at hj
    split at hj
    · rename_i he
      rw [hd, he, pgnum_div, ht]
      exact Option.some_ne_none T
    · cases hj
  · intro i hi'
    rw [hd i]
    refine (hdir i).resolve_right fun e => ?_
    have := hi' (pgnum va) (by rw [pgnum_div]; exact e.1.symm)
    rw [single, if_pos rfl] at this
    cases this

end

/-! ## `boot_map_region` -/

def region (lo n q : Nat) (perm : Word) : Nat → Option Word := fun j =>
  if lo ≤ j ∧ j < lo + n then some (page2pa (q + (j - lo)) ||| pteP ||| perm) else none

theorem region_range {lo n q j : Nat} {perm w : Word} (h : region lo n q perm j = some w) : lo ≤ j ∧ j < lo + n := by
  unfold region at h
  split at h
  · rename_i hr; exact hr
  · cases h

theorem region_in {lo n j : Nat} (h1 : lo ≤ j) (h2 : j < lo + n) (q : Nat) (perm : Word) :
    region lo n q perm j = some (page2pa (q + (j - lo)) ||| pteP ||| perm) := if_pos ⟨h1, h2⟩

theorem region_out {lo n j : Nat} (h : j < lo ∨ lo + n ≤ j) (q : Nat) (perm : Word) : region lo n q perm j = none :=
  if_neg (by omega)

theorem region_zero (lo q : Nat) (perm : Word) : region lo 0 q perm = fun _ => none := by
  funext j
  rw [region, if_neg (by omega)]

theorem region_succ (lo n q : Nat) (perm : Word) : region lo (n + 1) q perm = fun j =>
    (region (lo + 1) n (q + 1) perm j <|> single lo (page2pa q ||| pteP ||| perm) j) := by
  funext j
  unfold region single
  by_cases h0 : j = lo
  · subst h0; simp
  · by_cases h1 : lo + 1 ≤ j ∧ j < lo + 1 + n
    · rw [if_pos h1, if_pos (by omega), show q + (j - lo) = q + 1 + (j - (lo + 1)) by omega]; rfl
    · rw [if_neg h1, if_neg (by omega), if_neg h0]; rfl

theorem target_region {q : Nat} {perm : Word} (hp : perm.toNat < 4096) :
    target (page2pa q ||| pteP ||| perm) ≠ none := by
  rw [BitVec.or_assoc, BitVec.or_comm pteP, ← BitVec.or_assoc, target_perm (page2pa_aligned q) hp]
  exact Option.some_ne_none _

section
variable {dirs ix : Finset Nat} {D : Nat} {perm : Word} (hD : D ∈ dirs) (hp : perm.toNat < 4096)
include hD hp

/-- **The loop of `boot_map_region`** maps its pages, or panics because the free list is
shorter than the number of tables it needs. -/
theorem bootMapLoop_maps : ∀ (n lo q : Nat) {s : Kern} {free : List Nat}, Wf dirs ix s free →
    lo + n ≤ 1048576 → (∀ j, lo ≤ j → j < lo + n → j / 1024 ∈ ix) →
    (Kern.bootMapLoop (kva D) perm n s (page2pa lo) (page2pa q) = .error .bootMapRegion ∧
      ∀ R, (∀ j, lo ≤ j → j < lo + n → j / 1024 ∈ R) → free.length < need s.mem D R) ∨
    ∃ s' free' new, Kern.bootMapLoop (kva D) perm n s (page2pa lo) (page2pa q) = .ok s' ∧
      Maps dirs ix D (region lo n q perm) s s' free free' new
  | 0, lo, q, s, free, h, _, _ => by
    refine Or.inr ⟨s, free, [], rfl, ?_⟩
    rw [region_zero]
    exact Maps.refl h
  | n + 1, lo, q, s, free, h, hlo, hix => by
    have hpd : pdx (page2pa lo) = lo / 1024 := pdx_page2pa (by omega)
    have hi : pdx (page2pa lo) ∈ ix := by rw [hpd]; exact hix lo (by omega) (by omega)
    rcases h.walk_create hD hi with ⟨ho, hnil, he⟩ | ⟨T, s₁, free₁, hw, he⟩
    · left
      refine ⟨by simp only [Kern.bootMapLoop, he, ok_bind], fun R hR => ?_⟩
      rw [hnil]
      exact Finset.card_pos.mpr ⟨lo / 1024, Finset.mem_filter.mpr ⟨hR lo (by omega) (by omega), hpd ▸ ho⟩⟩
    · obtain ⟨new₁, hm₁⟩ := h.map_page hD hi hw (target_region (q := q) hp)
      rw [pgnum_page2pa (by omega)] at hm₁
      obtain ⟨hs₁, ht, _⟩ := h.walkTo_wf hD hi hw
      have hst := Kern.store_entry s₁ (hs₁.table_lt' (table_of_dir hD hi ht)) (ptx_lt (page2pa lo))
        (page2pa q ||| pteP ||| perm)
      have hloop : Kern.bootMapLoop (kva D) perm (n + 1) s (page2pa lo) (page2pa q) =
          Kern.bootMapLoop (kva D) perm n (s₁.write T (ptx (page2pa lo)) (page2pa q ||| pteP ||| perm))
            (page2pa (lo + 1)) (page2pa (q + 1)) := by
        simp only [Kern.bootMapLoop, he, ok_bind, hst, page2pa_succ]
      rw [hloop]
      rcases bootMapLoop_maps n (lo + 1) (q + 1) hm₁.wf (by omega) (fun j h1 h2 => hix j (by omega) (by omega)) with
        ⟨hr, hlt⟩ | ⟨s', free', new, hr, hm⟩
      · refine Or.inl ⟨hr, fun R hR => ?_⟩
        have h1 := hm₁.count R fun j w hj => by
          unfold single at hj
          split at hj
          · exact hR j (by omega) (by omega)
          · cases hj
        have h2 := hlt R fun j h1 h2 => hR j (by omega) (by omega)
        rw [hm₁.took, List.length_append]
        omega
      · refine Or.inr ⟨s', free', new₁ ++ new, hr, ?_⟩
        rw [region_succ]
        exact hm₁.trans h.chain.nodup hm

end

theorem numpage_toNat (size : Word) : (if size % pgsize ≠ 0 then size / pgsize + 1 else size / pgsize).toNat =
    (size.toNat + 4095) / 4096 := by
  have hlt := size.isLt
  have hd : (size / pgsize).toNat = size.toNat / 4096 := BitVec.toNat_udiv
  have hm : (size % pgsize).toNat = size.toNat % 4096 := BitVec.toNat_umod
  by_cases h : size % pgsize = 0
  · rw [if_neg (not_not.mpr h), hd]
    have h0 := congrArg BitVec.toNat h
    rw [hm, show (0 : Word).toNat = 0 from rfl] at h0
    omega
  · have h0 : size.toNat % 4096 ≠ 0 := fun e => h (BitVec.eq_of_toNat_eq (by rw [hm, e]; rfl))
    rw [if_pos h, BitVec.toNat_add, hd, show (1 : Word).toNat = 1 from rfl]
    omega

/-- **`boot_map_region`** of page-aligned addresses. -/
theorem bootMapRegion_maps {dirs ix : Finset Nat} {D : Nat} {s : Kern} {free : List Nat} (va size pa perm : Word)
    (h : Wf dirs ix s free) (hD : D ∈ dirs) (hp : perm.toNat < 4096) (hva : va.toNat % 4096 = 0)
    (hpa : pa.toNat % 4096 = 0) (hle : pgnum va + (size.toNat + 4095) / 4096 ≤ 1048576)
    (hix : ∀ j, pgnum va ≤ j → j < pgnum va + (size.toNat + 4095) / 4096 → j / 1024 ∈ ix) :
    (s.bootMapRegion (kva D) va size pa perm = .error .bootMapRegion ∧
      ∀ R, (∀ j, pgnum va ≤ j → j < pgnum va + (size.toNat + 4095) / 4096 → j / 1024 ∈ R) →
        free.length < need s.mem D R) ∨
    ∃ s' free' new, s.bootMapRegion (kva D) va size pa perm = .ok s' ∧
      Maps dirs ix D (region (pgnum va) ((size.toNat + 4095) / 4096) (pgnum pa) perm) s s' free free' new := by
  have hl := bootMapLoop_maps hD hp ((size.toNat + 4095) / 4096) (pgnum va) (pgnum pa) h hle hix
  rw [page2pa_pgnum hva, page2pa_pgnum hpa] at hl
  rw [Kern.bootMapRegion, numpage_toNat]
  exact hl

end Jos
