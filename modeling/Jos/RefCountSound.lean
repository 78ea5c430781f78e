import Jos.Runs

/-!
# Counts are exact

In every run that removes mapped addresses only, never adds a mapping to a page
whose count is 65535 and never ors address bits into an entry, the count of each
page that `page_alloc` can hand out is the number of present entries that refer
to it, so a free page is mapped nowhere.

`page_insert` checks neither. `pp_ref` has 16 bits: with the 65536th mapping of a
page it is zero again, and the page may be freed while it is mapped.
-/

namespace Jos

open IntrusiveList

/-- **Counts are exact and free pages unmapped**, in every run whose new mappings have room. -/
theorem ref_eq_refs {s₀ s : Kern} {ff : Word} {dirs : Finset Nat} {c : Conf} {p : Nat}
    (hb : Boot allIx s₀ s ff dirs)
    (hr : Reach (fun c op => op.Valid ∅ c ∧ op.AtMapped c ∧ op.InsertFits c) ⟨dirs, s⟩ c)
    (hp : p < c.kern.npages) (hn : ¬ reserved ff p) :
    (c.kern.ref p).toNat = refs c.kern.mem c.dirs allIx p ∧
    (c.kern.onFree p → ∀ x ∈ slots c.kern.mem c.dirs allIx, slotTarget c.kern.mem x ≠ some p) := by
  have hown : ∀ D ∈ (∅ : Finset Nat), 0 < bootRefs ff D := fun D hD => absurd hD (Finset.notMem_empty D)
  have hix : ∀ i < 955, i ∈ allIx := fun i hi =>
    mem_allIx.mpr (by rw [npdentries]; omega)
  obtain ⟨free, h, _⟩ := run_inv hix (fun i hi => mem_allIx.mp hi) hown
    (fun c op ho => ⟨ho.1, Op.safe_of ho.2.1 ho.2.2⟩) hb.inv hr
  have he := h.refs_eq p hp
  rw [bootRefs, if_neg hn, Nat.zero_add] at he
  refine ⟨he, fun hf => RefCount.count_eq_zero.mp ?_⟩
  exact (h.free_refs (h.chain.linked_iff.mp hf)).2

theorem not_reserved_511 : ¬ reserved smallEnd 511 := not_reserved_above (by decide) (by decide)

/-! ## 65536 mappings of one page -/

structure Mapped (n : Nat) (c : Conf) (free : List Nat) : Prop where
  dirs : c.dirs = {398}
  npages : c.kern.npages = 512
  inv : Inv {398} allIx (bootRefs smallEnd) c.kern free
  ref : c.kern.ref 511 = BitVec.ofNat 16 n
  held : 511 ∉ free
  enough : 110 ≤ free.length + (n + 1023) / 1024
  table : ∀ d, d * 1024 < n → target (c.kern.mem 398 d) ≠ none
  unmapped : ∀ m, n ≤ m → m < 65536 → pte c.kern.mem 398 (page2pa m) = none

theorem pgnum_page2pa' {m : Nat} (h : m < 65536) : pgnum (page2pa m) = m := pgnum_page2pa (by omega)

theorem page2pa_lt_utop {m : Nat} (h : m < 65536) : page2pa m < utop := by
  rw [BitVec.lt_def, page2pa_toNat, utop_toNat]; omega

theorem Mapped.mem_dir : 398 ∈ ({398} : Finset Nat) := Finset.mem_singleton_self 398

theorem Mapped.not_dir : 511 ∉ ({398} : Finset Nat) := fun h => absurd (Finset.mem_singleton.mp h) (by decide)

theorem Mapped.walk {n : Nat} {c : Conf} {free : List Nat} (h : Mapped n c free) (hn : n < 65536) :
    ∃ T s' free', WalkTo 398 (page2pa n) c.kern free T s' free' ∧
      c.kern.pgdirWalk (kva 398) (page2pa n) true = .ok (some (entry (kva T) (ptx (page2pa n))), s') ∧
      110 ≤ free'.length + (n + 1 + 1023) / 1024 := by
  have hi : pdx (page2pa n) ∈ allIx := mem_allIx.mpr (pdx_lt _)
  have he := h.enough
  rcases h.inv.wf.walk_create Mapped.mem_dir hi with ⟨_, hnil, _⟩ | ⟨T, s', free', hw, hr⟩
  · rw [hnil, List.length_nil] at he; omega
  · refine ⟨T, s', free', hw, hr, ?_⟩
    rcases hw with ⟨_, _, rfl⟩ | ⟨ho, rfl, _⟩
    · omega
    · -- the table of `n` is missing, so `n` is the first page of its directory entry
      have hd : ¬ n / 1024 * 1024 < n := fun hlt => h.table (n / 1024) hlt (by rw [← pdx_page2pa (Nat.lt_trans hn (by decide))]; exact ho)
      rw [List.length_cons] at he
      omega

theorem Mapped.step {n : Nat} {c : Conf} {free : List Nat} (h : Mapped n c free) (hn : n < 65536) :
    ∃ (op : Op) (c' : Conf) (free' : List Nat), op.exec c = .ok c' ∧ op.Valid ∅ c ∧ op.AtMapped c ∧
      (n < 65535 → op.InsertFits c) ∧ c'.dirs = {398} ∧
      c'.kern.npages = 512 ∧ Kern.link c'.kern 511 = none ∧ ¬ c'.kern.onFree 511 ∧
      c'.kern.ref 511 = BitVec.ofNat 16 (n + 1) ∧
      refs c'.kern.mem {398} allIx 511 = n + 1 ∧
      (n + 1 < 65536 → Mapped (n + 1) c' free') := by
  obtain ⟨T, s', free', hw, he, henough⟩ := h.walk hn
  have hi : pdx (page2pa n) ∈ allIx := mem_allIx.mpr (pdx_lt _)
  obtain ⟨hs', ht, hnp⟩ := h.inv.walkTo_inv Mapped.mem_dir hi hw
  have hn' : s'.npages = 512 := hnp.trans h.npages
  have hT := table_of_dir Mapped.mem_dir hi ht
  have hTd : T ≠ 398 := fun e => hs'.table_dir T hT (Finset.mem_singleton.mpr e)
  have hf : 511 ∉ free' := Wf.walkTo_free hw h.held
  have ho : target (s'.mem T (ptx (page2pa n))) = none := by
    rw [← mapped_eq ht, h.inv.wf.walkTo_mapped Mapped.mem_dir hi hw, mapped_eq_none]
    exact h.unmapped n (Nat.le_refl n) hn
  have hv : target (page2pa 511 ||| 0 ||| pteP) = some 511 := target_pte (by decide) (by decide)
  have href : s'.ref 511 = BitVec.ofNat 16 n := by rw [Wf.walkTo_ref hw h.held, h.ref]
  let k := (s'.setRef 511 (s'.ref 511 + 1)).write T (ptx (page2pa n)) (page2pa 511 ||| 0 ||| pteP)
  have hk : k.ref 511 = BitVec.ofNat 16 (n + 1) := by
    simp only [k, Kern.write_ref, Kern.setRef_ref, Function.update_self, href]
    exact (BitVec.ofNat_add n 1).symm
  have hlink : k.link = s'.link := by simp only [k, Kern.write_link, Kern.setRef_link]
  have hrefs : refs k.mem {398} allIx 511 = n + 1 := by
    have hb := hs'.refs_eq 511 (by rw [hn']; decide)
    have hc := refs_set_entry (hs'.table_dir T hT) hT (ptx_lt (page2pa n)) (page2pa 511 ||| 0 ||| pteP) 511
    rw [ho, hv, if_neg (Option.some_ne_none 511).symm, if_pos rfl, Nat.add_zero] at hc
    rw [href, bootRefs, if_neg not_reserved_511, Nat.zero_add, BitVec.toNat_ofNat, Nat.mod_eq_of_lt hn] at hb
    rw [hb]; exact hc
  refine ⟨.insert 398 511 (page2pa n) 0, { c with kern := k }, free', ?_, ⟨?_, page2pa_lt_utop hn, ?_, ?_, ?_⟩, trivial,
    fun hlt => ⟨by decide, Or.inl ?_⟩, h.dirs, hn', ?_, ?_, hk, hrefs, fun hlt => ?_⟩
  · rw [Op.exec, Kern.pageInsert_fresh he (hs'.table_lt' hT) ho]; rfl
  · rw [h.dirs]; exact Mapped.mem_dir
  · rw [h.npages]; decide
  · rw [Kern.onFree, h.inv.chain.linked_iff]; exact h.held
  · rw [h.dirs]; exact fun hd => absurd hd Mapped.not_dir
  · rw [h.ref, BitVec.toNat_ofNat, Nat.mod_eq_of_lt hn]; exact hlt
  · rw [hlink]; exact hs'.link_none 511 (by rw [hn']; decide) hf
  · rw [Kern.onFree, hlink]
    exact fun hl => hf (hs'.chain.linked_iff.mp hl)
  · refine ⟨h.dirs, hn', ?_, hk, hf, henough, fun d hd => ?_, fun m hm hm' => ?_⟩
    · exact hs'.map hT (ptx_lt _) ho hv (by rw [hn']; decide) hf
        (by rw [href, BitVec.toNat_ofNat, Nat.mod_eq_of_lt hn]; omega) fun hd => absurd hd Mapped.not_dir
    · have hm : k.mem 398 d = s'.mem 398 d := Mem.set_of_page_ne _ (Ne.symm hTd) _ d
      rw [hm]
      by_cases hdn : d = pdx (page2pa n)
      · rw [hdn, ht]; exact Option.some_ne_none T
      · rw [h.inv.wf.dir_walkTo hw Mapped.mem_dir fun e => hdn (congrArg Prod.snd e)]
        rw [pdx_page2pa (Nat.lt_trans hn (by decide))] at hdn
        exact h.table d (by omega)
    · have hne : ¬ (398 = 398 ∧ pgnum (page2pa m) = pgnum (page2pa n)) := fun hg => by
        rw [pgnum_page2pa' hm', pgnum_page2pa' hn] at hg; omega
      have hp := h.inv.wf.pte_walk_write Mapped.mem_dir hi hw (page2pa 511 ||| 0 ||| pteP) Mapped.mem_dir
        (a := page2pa m) (mem_allIx.mpr (pdx_lt _))
      rw [if_neg hne] at hp
      exact hp.trans (h.unmapped m (by omega) hm')

theorem mapped_zero : ∃ free, (Op.alloc 0).exec ⟨{398}, smallBoot⟩ = .ok ⟨{398}, smallBoot.pop 511⟩ ∧
    Mapped 0 ⟨{398}, smallBoot.pop 511⟩ free := by
  have h := smallBoot_inv allIx
  have hl := (smallMachine_boot allIx).loop
  have hz : smallBoot.mem = fun _ _ => 0 := hl.mem
  have hn : 511 ∉ initFree smallEnd 511 := (List.nodup_cons.mp h.chain.nodup).1
  have hnp : (smallBoot.pop 511).npages = 512 := by rw [Kern.pop_npages, smallBoot_npages]
  refine ⟨initFree smallEnd 511, ?_, ?_⟩
  · rw [Op.exec, h.alloc_cons]; rfl
  · refine ⟨rfl, hnp, h.pop, ?_, hn, ?_, fun d hd => absurd hd (Nat.not_lt_zero _), fun m _ _ => ?_⟩
    · rw [Kern.pop_ref]; exact h.free_ref 511 List.mem_cons_self
    · exact Nat.le_trans (smallBoot_length 110 (Nat.le_refl _)) (Nat.le_add_right _ _)
    · rw [Kern.pop_mem, hz]; exact pte_none target_zero

theorem mapped_run : ∀ n < 65536, ∃ c free,
    Reach (fun c op => op.Valid ∅ c ∧ op.AtMapped c ∧ op.InsertFits c) ⟨{398}, smallBoot⟩ c ∧ Mapped n c free
  | 0, _ => by
    obtain ⟨free, he, h⟩ := mapped_zero
    exact ⟨_, free, Relation.ReflTransGen.single ⟨.alloc 0, ⟨trivial, trivial, trivial⟩, he⟩, h⟩
  | n + 1, hn => by
    obtain ⟨c, free, hr, h⟩ := mapped_run n (by omega)
    obtain ⟨op, c', free', he, hv, hm, hf, _, _, _, _, _, _, h'⟩ := h.step (by omega)
    exact ⟨c', free', hr.tail ⟨op, ⟨hv, hm, hf (by omega)⟩, he⟩, h' hn⟩

/-- Page 511 mapped at 65535 addresses has a count of 65535; mapped once and removed, it is free and mapped nowhere. -/
theorem ref_eq_refs_small : (∃ c, Reach (fun c op => op.Valid ∅ c ∧ op.AtMapped c ∧ op.InsertFits c) ⟨{398}, smallBoot⟩ c ∧
      c.kern.ref 511 = 65535 ∧ refs c.kern.mem c.dirs allIx 511 = 65535) ∧
    ∃ k₁ k₂ k₃, RoundTrip ⟨{398}, smallBoot⟩ 398 511 0 pteW k₁ k₂ k₃ ∧ refs k₂.mem {398} allIx 511 = 1 ∧
      k₃.onFree 511 ∧ ∀ x ∈ slots k₃.mem {398} allIx, slotTarget k₃.mem x ≠ some 511 := by
  have hb := smallMachine_boot allIx
  constructor
  · obtain ⟨c, free, hr, h⟩ := mapped_run 65535 (by decide)
    have hlt : 511 < c.kern.npages := by rw [h.npages]; decide
    have he := (ref_eq_refs hb hr hlt not_reserved_511).1
    rw [h.ref] at he
    exact ⟨c, hr, h.ref, he.symm⟩
  · obtain ⟨k₁, k₂, k₃, hrt, _, _, h₃, _, h1, hn⟩ :=
      smallBoot_roundTrip allIx pteW (mem_allIx.mpr (pdx_lt 0)) (by decide)
    obtain ⟨hr₂, hr₃⟩ := hrt.reach (fun c op => op.Valid ∅ c ∧ op.AtMapped c ∧ op.InsertFits c) fun _ _ ho => ho
    have hlt₃ : 511 < k₃.npages := h₃.free_lt 511 List.mem_cons_self
    have hlt₂ : 511 < k₂.npages := by rw [hn]; decide
    have hf : k₃.onFree 511 := h₃.chain.linked_iff.mpr List.mem_cons_self
    have he := (ref_eq_refs (c := ⟨{398}, k₂⟩) hb hr₂ hlt₂ not_reserved_511).1
    rw [h1] at he
    exact ⟨k₁, k₂, k₃, hrt, he.symm, hf, (ref_eq_refs (c := ⟨{398}, k₃⟩) hb hr₃ hlt₃ not_reserved_511).2 hf⟩

/-- Mapped 65536 times, page 511 has a count of zero, and `page_free` puts it on the free list. -/
theorem many_mappings_free : Boot allIx smallMachine smallBoot smallEnd {398} ∧ ¬ reserved smallEnd 511 ∧
    ∃ c, Reach (fun c op => op.Valid ∅ c ∧ op.AtMapped c) ⟨{398}, smallBoot⟩ c ∧ 511 < c.kern.npages ∧
      c.kern.ref 511 = 0 ∧ refs c.kern.mem c.dirs allIx 511 = 65536 ∧ c.kern.onFree 511 := by
  refine ⟨smallMachine_boot allIx, not_reserved_511, ?_⟩
  obtain ⟨c, free, hr, h⟩ := mapped_run 65535 (by decide)
  have hr : Reach (fun c op => op.Valid ∅ c ∧ op.AtMapped c) ⟨{398}, smallBoot⟩ c :=
    hr.mono fun _ _ ho => ⟨ho.1, ho.2.1⟩
  obtain ⟨op, c', free', he, hv, hm, _, hd, hn, hl, hf, hz, hrefs, _⟩ := h.step (by decide)
  have hs : Step (fun c op => op.Valid ∅ c ∧ op.AtMapped c) c c' := ⟨op, ⟨hv, hm⟩, he⟩
  have hz' : c'.kern.ref 511 = 0 := hz
  have hfree := Kern.pageFree_ok hz' hl
  have hlt : 511 < c'.kern.npages := by rw [hn]; decide
  refine ⟨{ c' with kern := c'.kern.push 511 }, (hr.tail hs).tail (.mk (.free 511) ⟨⟨hlt, hz', hf, ?_⟩, trivial⟩ ?_),
    hlt, ?_, ?_, .here 511⟩
  · rw [hd]; exact Mapped.not_dir
  · rw [Op.exec, hfree]; rfl
  · rw [Kern.push_ref]; exact hz'
  · rw [Kern.push_mem, hd]; exact hrefs

end Jos
