import Jos.Refs
import Jos.Lib.IntrusiveList

/-!
# The invariant of the memory system

`Inv dirs ix held s free`: the free list is `free`, the tables of the
directories `dirs` (through the indices `ix`) are distinct pages that are not
themselves directories, and the count of every page is exact: `pp_ref` is the
number of present entries that refer to the page, plus `held`, the references
held from outside the tables. `held` is one for the pages reserved at boot, and
it carries a reference that an operation has taken and not yet stored.
-/

namespace Jos

open IntrusiveList

structure Inv (dirs ix : Finset Nat) (held : Nat → Nat) (s : Kern) (free : List Nat) : Prop where
  npages_le : s.npages ≤ 65536
  chain : Chain s.link s.pageFreeList free
  free_lt : ∀ p ∈ free, p < s.npages
  free_ref : ∀ p ∈ free, s.ref p = 0
  link_none : ∀ p < s.npages, p ∉ free → s.link p = none
  dir_lt : ∀ D ∈ dirs, D < 65536
  dir_free : ∀ D ∈ dirs, D ∉ free
  /-- A directory that nothing else keeps is not mapped, so no unmapping frees it. -/
  dir_own : ∀ D ∈ dirs, held D = 0 → refs s.mem dirs ix D = 0
  table_lt : ∀ T ∈ tables s.mem dirs ix, T < s.npages
  table_dir : ∀ T ∈ tables s.mem dirs ix, T ∉ dirs
  table_inj : ∀ D ∈ dirs, ∀ D' ∈ dirs, ∀ i ∈ ix, ∀ i' ∈ ix, ∀ T,
    target (s.mem D i) = some T → target (s.mem D' i') = some T → D = D' ∧ i = i'
  entry_lt : ∀ T ∈ tables s.mem dirs ix, ∀ j < nptentries, ∀ p, target (s.mem T j) = some p → p < s.npages
  refs_eq : ∀ p < s.npages, (s.ref p).toNat = held p + refs s.mem dirs ix p

def bump (held : Nat → Nat) (p : Nat) : Nat → Nat := fun q => held q + if q = p then 1 else 0

@[simp] theorem bump_self (held : Nat → Nat) (p : Nat) : bump held p p = held p + 1 := by simp [bump]

theorem bump_of_ne {held : Nat → Nat} {p q : Nat} (h : q ≠ p) : bump held p q = held q := by simp [bump, h]

theorem le_bump (held : Nat → Nat) (p q : Nat) : held q ≤ bump held p q := Nat.le_add_right _ _

namespace Inv

variable {dirs ix : Finset Nat} {held : Nat → Nat} {s : Kern} {free : List Nat} {p q T D i j : Nat} {v : Word}

/-! ## What a free page is not -/

theorem free_refs (h : Inv dirs ix held s free) (hp : p ∈ free) : held p = 0 ∧ refs s.mem dirs ix p = 0 := by
  have := h.refs_eq p (h.free_lt p hp)
  rw [h.free_ref p hp] at this
  simp only [BitVec.ofNat_eq_ofNat, BitVec.toNat_ofNat, Nat.zero_mod] at this
  omega

theorem ref_ne_zero (h : Inv dirs ix held s free) (hp : p < s.npages) (hr : 0 < held p + refs s.mem dirs ix p) :
    s.ref p ≠ 0 := by
  intro e
  have := h.refs_eq p hp
  rw [e, show (0 : BitVec 16).toNat = 0 from rfl] at this
  omega

theorem not_free_of_ref (h : Inv dirs ix held s free) (hr : 0 < held p + refs s.mem dirs ix p) : p ∉ free :=
  fun hp => by have := h.free_refs hp; omega

theorem table_free (h : Inv dirs ix held s free) (hT : T ∈ tables s.mem dirs ix) : T ∉ free :=
  h.not_free_of_ref (Nat.lt_of_lt_of_le (refs_table hT) (Nat.le_add_left _ _))

theorem entry_free (h : Inv dirs ix held s free) (hT : T ∈ tables s.mem dirs ix) (hj : j < nptentries)
    (ht : target (s.mem T j) = some p) : p ∉ free :=
  h.not_free_of_ref (Nat.lt_of_lt_of_le (refs_entry hT hj ht) (Nat.le_add_left _ _))

theorem head (h : Inv dirs ix held s free) : s.pageFreeList = free.head? := h.chain.head

theorem table_lt' (h : Inv dirs ix held s free) (hT : T ∈ tables s.mem dirs ix) : T < 65536 :=
  Nat.lt_of_lt_of_le (h.table_lt T hT) h.npages_le

/-! ## Page descriptors -/

theorem setRef {held' : Nat → Nat} {r : BitVec 16} (h : Inv dirs ix held s free) (hp : p ∉ free)
    (hr : r.toNat = held' p + refs s.mem dirs ix p) (he : ∀ q, q ≠ p → held' q = held q)
    (hd : p ∈ dirs → held' p = 0 → refs s.mem dirs ix p = 0) : Inv dirs ix held' (s.setRef p r) free where
  npages_le := h.npages_le
  chain := by rw [Kern.setRef_link]; exact h.chain
  free_lt := h.free_lt
  free_ref := fun q hq => by
    rw [Kern.setRef_ref, Function.update_of_ne (fun e : q = p => hp (e ▸ hq))]
    exact h.free_ref q hq
  link_none := by rw [Kern.setRef_link]; exact h.link_none
  dir_lt := h.dir_lt
  dir_free := h.dir_free
  dir_own := fun D hD h0 => by
    by_cases hDp : D = p
    · subst hDp; exact hd hD h0
    · rw [he D hDp] at h0; exact h.dir_own D hD h0
  table_lt := h.table_lt
  table_dir := h.table_dir
  table_inj := h.table_inj
  entry_lt := h.entry_lt
  refs_eq := fun q hq => by
    rw [Kern.setRef_ref]
    by_cases hqp : q = p
    · subst hqp; rw [Function.update_self]; exact hr
    · rw [Function.update_of_ne hqp, he q hqp]; exact h.refs_eq q hq

theorem push (h : Inv dirs ix held s free) (hp : p < s.npages) (hf : p ∉ free) (hr : s.ref p = 0)
    (hd : p ∉ dirs) : Inv dirs ix held (s.push p) (p :: free) :=
  { h with
    chain := by rw [Kern.push_link]; exact h.chain.push hf
    free_lt := fun q hq => by
      rcases List.mem_cons.mp hq with rfl | hq
      · exact hp
      · exact h.free_lt q hq
    free_ref := fun q hq => by
      rw [Kern.push_ref]
      rcases List.mem_cons.mp hq with rfl | hq
      · exact hr
      · exact h.free_ref q hq
    link_none := fun q hq hqf => by
      rw [List.mem_cons, not_or] at hqf
      rw [Kern.push_link, Function.update_of_ne hqf.1]
      exact h.link_none q hq hqf.2
    dir_free := fun D hD hDf => by
      rcases List.mem_cons.mp hDf with rfl | hDf
      · exact hd hD
      · exact h.dir_free D hD hDf
    refs_eq := fun q hq => by rw [Kern.push_ref]; exact h.refs_eq q hq }

theorem pop (h : Inv dirs ix held s (p :: free)) : Inv dirs ix held (s.pop p) free := by
  obtain ⟨hh, hc⟩ := h.chain
  have hn : p ∉ free := (List.nodup_cons.mp h.chain.nodup).1
  exact { h with
    chain := by rw [Kern.pop_link]; exact hc.update hn none
    free_lt := fun q hq => h.free_lt q (List.mem_cons_of_mem _ hq)
    free_ref := fun q hq => by rw [Kern.pop_ref]; exact h.free_ref q (List.mem_cons_of_mem _ hq)
    link_none := fun q hq hqf => by
      rw [Kern.pop_link]
      by_cases hqp : q = p
      · subst hqp; exact Function.update_self ..
      · rw [Function.update_of_ne hqp]
        exact h.link_none q hq (by simp only [List.mem_cons, not_or]; exact ⟨hqp, hqf⟩)
    dir_free := fun D hD hDf => h.dir_free D hD (List.mem_cons_of_mem _ hDf)
    refs_eq := fun q hq => by rw [Kern.pop_ref]; exact h.refs_eq q hq }

theorem invlpg (h : Inv dirs ix held s free) (va : Word) : Inv dirs ix held (s.invlpg va) free :=
  ⟨h.npages_le, h.chain, h.free_lt, h.free_ref, h.link_none, h.dir_lt, h.dir_free, h.dir_own, h.table_lt,
    h.table_dir, h.table_inj, h.entry_lt, h.refs_eq⟩

/-! ## Physical memory -/

theorem frame {s' : Kern} (h : Inv dirs ix held s free) (hn : s'.npages = s.npages) (hl : s'.link = s.link)
    (hr : s'.ref = s.ref) (hf : s'.pageFreeList = s.pageFreeList)
    (hd : ∀ D ∈ dirs, ∀ i ∈ ix, target (s'.mem D i) = target (s.mem D i))
    (ht : ∀ T ∈ tables s.mem dirs ix, ∀ j < nptentries, target (s'.mem T j) = target (s.mem T j)) :
    Inv dirs ix held s' free := by
  have hts := tables_congr hd
  have hrs := refs_congr hd ht
  refine ⟨by rw [hn]; exact h.npages_le, by rw [hl, hf]; exact h.chain, by rw [hn]; exact h.free_lt,
    by rw [hr]; exact h.free_ref, by rw [hn, hl]; exact h.link_none, h.dir_lt, h.dir_free, ?_,
    by rw [hts, hn]; exact h.table_lt, by rw [hts]; exact h.table_dir, ?_, ?_, ?_⟩
  · intro D hD h0; rw [hrs]; exact h.dir_own D hD h0
  · intro D hD D' hD' i hi i' hi' T h1 h2
    rw [hd D hD i hi] at h1
    rw [hd D' hD' i' hi'] at h2
    exact h.table_inj D hD D' hD' i hi i' hi' T h1 h2
  · intro T hT j hj p hp
    rw [hts] at hT
    rw [ht T hT j hj] at hp
    rw [hn]; exact h.entry_lt T hT j hj p hp
  · intro p hp; rw [hn] at hp; rw [hr, hrs]; exact h.refs_eq p hp

theorem clear (h : Inv dirs ix held s free) (hd : p ∉ dirs) (ht : p ∉ tables s.mem dirs ix) :
    Inv dirs ix held (s.clear p) free := by
  refine h.frame rfl rfl rfl rfl (fun D hD i _ => ?_) (fun T hT j _ => ?_)
  · rw [Kern.clear_mem, Mem.clear_of_ne _ fun e : D = p => hd (e ▸ hD)]
  · rw [Kern.clear_mem, Mem.clear_of_ne _ fun e : T = p => ht (e ▸ hT)]

theorem write_entry {held' : Nat → Nat} (h : Inv dirs ix held s free) (hT : T ∈ tables s.mem dirs ix)
    (hv : ∀ p, target v = some p → p < s.npages)
    (hr : ∀ p, held' p + refs (s.mem.set T j v) dirs ix p = held p + refs s.mem dirs ix p)
    (hd : ∀ D ∈ dirs, held' D = 0 → refs (s.mem.set T j v) dirs ix D = 0) :
    Inv dirs ix held' (s.write T j v) free := by
  have hTd := h.table_dir T hT
  have hts : tables (s.mem.set T j v) dirs ix = tables s.mem dirs ix := tables_set_entry hTd j v
  have hm : ∀ D ∈ dirs, ∀ i, s.mem.set T j v D i = s.mem D i := fun D hD i =>
    Mem.set_of_page_ne _ (fun e : D = T => hTd (e ▸ hD)) v i
  refine ⟨h.npages_le, h.chain, h.free_lt, h.free_ref, h.link_none, h.dir_lt, h.dir_free, hd, ?_, ?_, ?_, ?_, ?_⟩
  · rw [Kern.write_mem, hts]; exact h.table_lt
  · rw [Kern.write_mem, hts]; exact h.table_dir
  · intro D hD D' hD' i hi i' hi' U h1 h2
    rw [Kern.write_mem, hm D hD] at h1
    rw [Kern.write_mem, hm D' hD'] at h2
    exact h.table_inj D hD D' hD' i hi i' hi' U h1 h2
  · intro U hU k hk p hp
    rw [Kern.write_mem] at hU hp
    rw [hts] at hU
    by_cases he : (U, k) = (T, j)
    · cases he; rw [Mem.set_self] at hp; exact hv p hp
    · rw [Mem.set_of_ne _ he] at hp; exact h.entry_lt U hU k hk p hp
  · intro p hp
    rw [Kern.write_mem, hr]; exact h.refs_eq p hp

theorem write_none (h : Inv dirs ix held s free) (hT : T ∈ tables s.mem dirs ix) (hj : j < nptentries)
    (hq : target (s.mem T j) = some q) (hv : target v = none) : Inv dirs ix (bump held q) (s.write T j v) free := by
  have hr := refs_set_entry (h.table_dir T hT) hT hj v
  refine h.write_entry hT (by simp [hv]) (fun p => ?_) (fun D hD h0 => ?_)
  · have := hr p
    rw [hq, hv] at this
    simp only [Option.some.injEq, reduceCtorEq, if_false, @eq_comm _ q p] at this
    simp only [bump]; omega
  · have := hr D
    have h0' : held D = 0 := Nat.le_zero.mp (h0 ▸ le_bump held q D)
    have := h.dir_own D hD h0'
    rw [hv] at *
    simp only [reduceCtorEq, if_false] at *
    omega

theorem write_some (h : Inv dirs ix (bump held q) s free) (hT : T ∈ tables s.mem dirs ix) (hj : j < nptentries)
    (ho : target (s.mem T j) = none) (hv : target v = some q) (hq : q < s.npages)
    (hd : q ∈ dirs → 0 < held q) : Inv dirs ix held (s.write T j v) free := by
  have hr := refs_set_entry (h.table_dir T hT) hT hj v
  refine h.write_entry hT (fun p hp => ?_) (fun p => ?_) (fun D hD h0 => ?_)
  · rw [hv] at hp; cases hp; exact hq
  · have := hr p
    rw [ho, hv] at this
    simp only [Option.some.injEq, reduceCtorEq, if_false, @eq_comm _ q p] at this
    simp only [bump]; omega
  · have hne : D ≠ q := fun e => by subst e; have := hd hD; omega
    have := hr D
    have := h.dir_own D hD (by rw [bump_of_ne hne]; exact h0)
    rw [ho, hv] at *
    simp only [Option.some.injEq, Ne.symm hne, reduceCtorEq, if_false] at *
    omega

theorem write_dir (h : Inv dirs ix (bump held T) s free) (hD : D ∈ dirs) (hi : i ∈ ix)
    (ho : target (s.mem D i) = none) (hv : target v = some T) (hTn : T < s.npages) (hTd : T ∉ dirs)
    (hTt : T ∉ tables s.mem dirs ix) (hz : ∀ j < nptentries, target (s.mem T j) = none) :
    Inv dirs ix held (s.write D i v) free := by
  have hts : tables (s.mem.set D i v) dirs ix = insert T (tables s.mem dirs ix) := tables_set_dir hD hi ho hv
  have hr := refs_set_dir hD hi ho hv hTd hz
  have hU : ∀ U ∈ insert T (tables s.mem dirs ix), U ≠ D := fun U hU e => by
    subst e
    rcases Finset.mem_insert.mp hU with rfl | hU
    · exact hTd hD
    · exact h.table_dir U hU hD
  have hold : ∀ E ∈ dirs, ∀ k ∈ ix, (E, k) ≠ (D, i) → target (s.mem E k) ≠ some T := fun E hE k hk _ ht =>
    hTt (mem_tables.mpr ⟨E, hE, k, hk, ht⟩)
  refine ⟨h.npages_le, h.chain, h.free_lt, h.free_ref, h.link_none, h.dir_lt, h.dir_free, ?_, ?_, ?_, ?_, ?_, ?_⟩
  · intro E hE h0
    have hne : E ≠ T := fun e => hTd (e ▸ hE)
    rw [Kern.write_mem, hr, if_neg hne]
    exact h.dir_own E hE (by rw [bump_of_ne hne]; exact h0)
  · intro U hU'
    rw [Kern.write_mem, hts, Finset.mem_insert] at hU'
    rcases hU' with rfl | hU'
    · exact hTn
    · exact h.table_lt U hU'
  · intro U hU'
    rw [Kern.write_mem, hts, Finset.mem_insert] at hU'
    rcases hU' with rfl | hU'
    · exact hTd
    · exact h.table_dir U hU'
  · intro E hE E' hE' k hk k' hk' U h1 h2
    rw [Kern.write_mem] at h1 h2
    by_cases h1e : (E, k) = (D, i)
    · by_cases h2e : (E', k') = (D, i)
      · cases h1e; cases h2e; exact ⟨rfl, rfl⟩
      · cases h1e
        rw [Mem.set_self, hv] at h1
        rw [Mem.set_of_ne _ h2e, ← h1] at h2
        exact absurd h2 (hold E' hE' k' hk' h2e)
    · by_cases h2e : (E', k') = (D, i)
      · cases h2e
        rw [Mem.set_self, hv] at h2
        rw [Mem.set_of_ne _ h1e, ← h2] at h1
        exact absurd h1 (hold E hE k hk h1e)
      · rw [Mem.set_of_ne _ h1e] at h1
        rw [Mem.set_of_ne _ h2e] at h2
        exact h.table_inj E hE E' hE' k hk k' hk' U h1 h2
  · intro U hU' k hk p hp
    rw [Kern.write_mem] at hU' hp
    rw [hts] at hU'
    rw [Mem.set_of_page_ne _ (hU U hU')] at hp
    rcases Finset.mem_insert.mp hU' with rfl | hU'
    · rw [hz k hk] at hp; cases hp
    · exact h.entry_lt U hU' k hk p hp
  · intro p hp
    have := h.refs_eq p hp
    rw [Kern.write_mem, hr]
    simp only [bump] at this
    show (s.ref p).toNat = _
    omega

theorem write_dir_none (h : Inv dirs ix held s free) (hD : D ∈ dirs) (hi : i ∈ ix)
    (ht : target (s.mem D i) = some T) (hz : ∀ j < nptentries, target (s.mem T j) = none) :
    Inv dirs ix (bump held T) (s.write D i 0) free := by
  have hTt : T ∈ tables s.mem dirs ix := mem_tables.mpr ⟨D, hD, i, hi, ht⟩
  have hTd := h.table_dir T hTt
  have hTD : T ≠ D := fun e => hTd (e ▸ hD)
  -- the old memory is the new one with the entry put back
  have ho : target (s.mem.set D i 0 D i) = none := by rw [Mem.set_self, target_zero]
  have hback : (s.mem.set D i 0).set D i (s.mem D i) = s.mem := by rw [Mem.set_set, Mem.set_eq_self]
  have hz' : ∀ j < nptentries, target (s.mem.set D i 0 T j) = none := fun j hj => by
    rw [Mem.set_of_page_ne _ hTD]
    exact hz j hj
  have hts := tables_set_dir hD hi ho ht
  have hr := refs_set_dir hD hi ho ht hTd hz'
  rw [hback] at hts hr
  have hsub : ∀ U ∈ tables (s.mem.set D i 0) dirs ix, U ∈ tables s.mem dirs ix := fun U hU => by
    rw [hts]
    exact Finset.mem_insert_of_mem hU
  have hold : ∀ E ∈ dirs, ∀ k ∈ ix, ∀ U, target (s.mem.set D i 0 E k) = some U → target (s.mem E k) = some U := by
    intro E _ k _ U hU
    by_cases he : (E, k) = (D, i)
    · cases he
      rw [ho] at hU
      cases hU
    · rw [Mem.set_of_ne _ he] at hU
      exact hU
  refine ⟨h.npages_le, h.chain, h.free_lt, h.free_ref, h.link_none, h.dir_lt, h.dir_free, ?_,
    fun U hU => h.table_lt U (hsub U hU), fun U hU => h.table_dir U (hsub U hU), ?_, ?_, ?_⟩
  · intro E hE h0
    have hne : E ≠ T := fun e => hTd (e ▸ hE)
    rw [bump_of_ne hne] at h0
    have := h.dir_own E hE h0
    rw [hr, if_neg hne] at this
    exact this
  · intro E hE E' hE' k hk k' hk' U h1 h2
    exact h.table_inj E hE E' hE' k hk k' hk' U (hold E hE k hk U h1) (hold E' hE' k' hk' U h2)
  · intro U hU k hk p hp
    have hUD : U ≠ D := fun e => h.table_dir U (hsub U hU) (e ▸ hD)
    rw [Kern.write_mem, Mem.set_of_page_ne _ hUD] at hp
    exact h.entry_lt U (hsub U hU) k hk p hp
  · intro p hp
    have := h.refs_eq p hp
    rw [hr] at this
    simp only [bump, Kern.write_mem, Kern.write_ref]
    omega

theorem newDir (h : Inv dirs ix held s free) (hD : D < 65536) (hf : D ∉ free)
    (hr : held D = 0 → refs s.mem dirs ix D = 0) (ht : D ∉ tables s.mem dirs ix)
    (hz : ∀ i ∈ ix, target (s.mem D i) = none) : Inv (insert D dirs) ix held s free := by
  have hts : tables s.mem (insert D dirs) ix = tables s.mem dirs ix := tables_insert hz
  have hrs : ∀ p, refs s.mem (insert D dirs) ix p = refs s.mem dirs ix p := refs_insert hz
  refine ⟨h.npages_le, h.chain, h.free_lt, h.free_ref, h.link_none, ?_, ?_, ?_, ?_, ?_, ?_, ?_, ?_⟩
  · intro E hE
    rcases Finset.mem_insert.mp hE with rfl | hE
    · exact hD
    · exact h.dir_lt E hE
  · intro E hE
    rcases Finset.mem_insert.mp hE with rfl | hE
    · exact hf
    · exact h.dir_free E hE
  · intro E hE h0
    rw [hrs]
    rcases Finset.mem_insert.mp hE with rfl | hE
    · exact hr h0
    · exact h.dir_own E hE h0
  · rw [hts]; exact h.table_lt
  · intro T hT hTD
    rw [hts] at hT
    rcases Finset.mem_insert.mp hTD with rfl | hTD
    · exact ht hT
    · exact h.table_dir T hT hTD
  · intro E hE E' hE' i hi i' hi' T h1 h2
    rcases Finset.mem_insert.mp hE with rfl | hE
    · rw [hz i hi] at h1; cases h1
    · rcases Finset.mem_insert.mp hE' with rfl | hE'
      · rw [hz i' hi'] at h2; cases h2
      · exact h.table_inj E hE E' hE' i hi i' hi' T h1 h2
  · rw [hts]; exact h.entry_lt
  · intro p hp; rw [hrs]; exact h.refs_eq p hp

theorem eraseDir (h : Inv dirs ix held s free) (hD : D ∈ dirs) (hz : ∀ i ∈ ix, target (s.mem D i) = none) :
    Inv (dirs.erase D) ix held s free := by
  have hts : tables s.mem (insert D (dirs.erase D)) ix = tables s.mem (dirs.erase D) ix := tables_insert hz
  have hrs : ∀ p, refs s.mem (insert D (dirs.erase D)) ix p = refs s.mem (dirs.erase D) ix p := refs_insert hz
  rw [Finset.insert_erase hD] at hts hrs
  have hsub : ∀ E ∈ dirs.erase D, E ∈ dirs := fun E hE => Finset.mem_of_mem_erase hE
  refine ⟨h.npages_le, h.chain, h.free_lt, h.free_ref, h.link_none, fun E hE => h.dir_lt E (hsub E hE),
    fun E hE => h.dir_free E (hsub E hE), fun E hE h0 => ?_, hts ▸ h.table_lt, fun T hT hm => ?_,
    fun E hE E' hE' => h.table_inj E (hsub E hE) E' (hsub E' hE'), hts ▸ h.entry_lt, fun p hp => ?_⟩
  · rw [← hrs]
    exact h.dir_own E (hsub E hE) h0
  · rw [← hts] at hT
    exact h.table_dir T hT (hsub T hm)
  · rw [← hrs]
    exact h.refs_eq p hp

/-! ## Taking and dropping references -/

theorem incRef (h : Inv dirs ix held s free) (hp : p < s.npages) (hf : p ∉ free) (hr : (s.ref p).toNat < 65535) :
    Inv dirs ix (bump held p) (s.setRef p (s.ref p + 1)) free := by
  refine h.setRef hf ?_ (fun q hq => bump_of_ne hq) (fun _ h0 => ?_)
  · have := h.refs_eq p hp
    rw [BitVec.toNat_add, bump_self]
    simp only [BitVec.ofNat_eq_ofNat, BitVec.toNat_ofNat]
    omega
  · rw [bump_self] at h0; omega

def dropFree (s : Kern) (free : List Nat) (p : Nat) : List Nat := if s.ref p - 1 = 0 then p :: free else free

theorem ref_of_held (h : Inv dirs ix (bump held p) s free) (hp : p < s.npages) :
    (s.ref p - 1).toNat = held p + refs s.mem dirs ix p := by
  have := h.refs_eq p hp
  rw [bump_self] at this
  rw [BitVec.toNat_sub]
  simp only [BitVec.ofNat_eq_ofNat, BitVec.toNat_ofNat]
  omega

theorem dropRef (h : Inv dirs ix (bump held p) s free) (hp : p < s.npages) (hd : p ∈ dirs → 0 < held p) :
    Inv dirs ix held (s.dropRef p) (dropFree s free p) := by
  have hf : p ∉ free := h.not_free_of_ref (by rw [bump_self]; omega)
  have hr := h.ref_of_held hp
  have hs : Inv dirs ix held (s.setRef p (s.ref p - 1)) free :=
    h.setRef hf hr (fun q hq => (bump_of_ne hq).symm) (fun hD h0 => by have := hd hD; omega)
  unfold Kern.dropRef dropFree
  by_cases h0 : s.ref p - 1 = 0
  · rw [if_pos h0, if_pos h0]
    refine hs.push hp hf (by rw [Kern.setRef_ref, Function.update_self, h0]) (fun hD => ?_)
    have := hd hD
    rw [h0] at hr
    simp only [BitVec.ofNat_eq_ofNat, BitVec.toNat_ofNat, Nat.zero_mod] at hr
    omega
  · rw [if_neg h0, if_neg h0]; exact hs

/-! ## A new page table -/

theorem addTable {t : List Nat} {va : Word} (h : Inv dirs ix held s (T :: t)) (hD : D ∈ dirs) (hi : pdx va ∈ ix)
    (ho : target (s.mem D (pdx va)) = none) : Inv dirs ix held (s.addTable D T va) t := by
  have hT : T ∈ T :: t := List.mem_cons_self
  have hTn := h.free_lt T hT
  have hTd : T ∉ dirs := fun hm => h.dir_free T hm hT
  have hTt : T ∉ tables s.mem dirs ix := fun hm => h.table_free hm hT
  have hTf : T ∉ t := (List.nodup_cons.mp h.chain.nodup).1
  have hTT : T < 1048576 := by have := h.npages_le; omega
  have hDT : D ≠ T := fun e => hTd (e ▸ hD)
  have h0 := h.free_ref T hT
  have h2 : Inv dirs ix held ((s.pop T).clear T) t := h.pop.clear hTd hTt
  have h3 := h2.incRef hTn hTf (by rw [Kern.clear_ref, Kern.pop_ref, h0]; decide)
  rw [Kern.clear_ref, Kern.pop_ref] at h3
  refine h3.write_dir hD hi ?_ (target_table hTT) hTn hTd ?_ (fun j hj => ?_)
  · rw [Kern.setRef_mem, Kern.clear_mem, Mem.clear_of_ne _ hDT]; exact ho
  · rw [Kern.setRef_mem, Kern.clear_mem,
      tables_congr (m := s.mem) fun E hE i _ => by rw [Kern.pop_mem, Mem.clear_of_ne _ fun e : E = T => hTd (e ▸ hE)]]
    exact hTt
  · rw [Kern.setRef_mem, Kern.clear_mem, Mem.clear_self _ hj, target_zero]

/-! ## Unmapping and mapping -/

theorem unmap (h : Inv dirs ix held s free) (hT : T ∈ tables s.mem dirs ix) (hj : j < nptentries)
    (hq : target (s.mem T j) = some q) (va : Word) :
    Inv dirs ix held (((s.dropRef q).write T j 0).invlpg va) (dropFree s free q) := by
  have hqn := h.entry_lt T hT j hj q hq
  rw [Kern.dropRef_write]
  refine Inv.invlpg ?_ va
  have hw := h.write_none hT hj hq (target_zero)
  refine hw.dropRef hqn fun hD => ?_
  -- a directory that is mapped is kept by something else
  rcases Nat.eq_zero_or_pos (held q) with h0 | h0
  · have := h.dir_own q hD h0
    have := refs_entry hT hj hq
    omega
  · exact h0

theorem map (h : Inv dirs ix held s free) (hT : T ∈ tables s.mem dirs ix) (hj : j < nptentries)
    (ho : target (s.mem T j) = none) (hv : target v = some p) (hp : p < s.npages) (hf : p ∉ free)
    (hr : (s.ref p).toNat < 65535) (hd : p ∈ dirs → 0 < held p) :
    Inv dirs ix held ((s.setRef p (s.ref p + 1)).write T j v) free :=
  (h.incRef hp hf hr).write_some hT hj ho hv hp hd

end Inv

end Jos
