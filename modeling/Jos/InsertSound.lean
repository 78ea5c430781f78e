import Jos.WalkSound

/-!
# `page_insert`

`page_insert` counts the new reference before it removes what was mapped, so one
path serves a new mapping, a replaced page and a page mapped again with other
permissions. `Inserted` says what it leaves. Directory entries carry `PTE_W` and
`PTE_U` in every state a run reaches, so the entry of the page decides alone.
-/

namespace Jos

open IntrusiveList

/-! ## The flags of directory entries -/

def TableFlags (m : Mem) (dirs ix : Finset Nat) : Prop :=
  ∀ D ∈ dirs, ∀ i ∈ ix, target (m D i) ≠ none → m D i &&& (pteW ||| pteU) = pteW ||| pteU

theorem table_and (T : Nat) : (page2pa T ||| tableFlags) &&& (pteW ||| pteU) = pteW ||| pteU := by
  rw [or_flags_and (page2pa_aligned T) (by decide)]
  decide

theorem flags_of_dirStep {m m' : Mem} {E i : Nat} (hd : DirStep m m' E i)
    (h : target (m E i) ≠ none → m E i &&& (pteW ||| pteU) = pteW ||| pteU) (ht : target (m' E i) ≠ none) :
    m' E i &&& (pteW ||| pteU) = pteW ||| pteU := by
  rcases hd with hd | ⟨_, T, hT⟩
  · rw [hd] at ht ⊢
    exact h ht
  · rw [hT, table_and]

section
variable {own ix : Finset Nat} {held : Nat → Nat} {free : List Nat} {c c' : Conf}
  (hix : ∀ i < 955, i ∈ ix) (hle : ∀ i ∈ ix, i < npdentries) (hown : ∀ D ∈ own, 0 < held D)
include hix hle hown

theorem step_flags (h : Inv c.dirs ix held c.kern free) (hf : TableFlags c.kern.mem c.dirs ix)
    (hs : Step (fun c op => op.Valid own c ∧ op.Safe c) c c') : TableFlags c'.kern.mem c'.dirs ix := by
  obtain ⟨_, he, _, _⟩ := step_effect hix hle hown (fun _ _ ho => ho) h hs
  intro E hE i hi ht
  by_cases hEc : E ∈ c.dirs
  · exact flags_of_dirStep (effect_dir h he hEc i).2 (hf E hEc i hi) ht
  · rcases he.dirs hE with hE | hz
    · exact absurd hE hEc
    · rw [hz i hi] at ht
      exact absurd rfl ht

theorem run_flags (h : Inv c.dirs ix held c.kern free) (hf : TableFlags c.kern.mem c.dirs ix)
    (hr : Reach (fun c op => op.Valid own c ∧ op.Safe c) c c') : TableFlags c'.kern.mem c'.dirs ix := by
  induction hr with
  | refl => exact hf
  | tail hr hs ih =>
    obtain ⟨free', h', _⟩ := run_inv hix hle hown (fun _ _ ho => ho) h hr
    exact step_flags hix hle hown h' ih hs

end

theorem Boot.flags {ix dirs : Finset Nat} {s₀ s : Kern} {ff : Word} (h : Boot ix s₀ s ff dirs) :
    TableFlags s.mem dirs ix := by
  intro D hD i hi ht
  rw [h.loop.mem, h.dir_zero D hD i hi, target_zero] at ht
  exact absurd rfl ht

/-! ## The entry -/

def pteOf (p : Nat) (perm : Word) : Word := page2pa p ||| perm ||| pteP

section
variable {p : Nat} {perm : Word} (hperm : perm.toNat < 4096)
include hperm

theorem pteAddr_pteOf (hp : p < 1048576) : pteAddr (pteOf p perm) = page2pa p := by
  have h := target_pte hp hperm
  rw [pteAddr_eq_page2pa, pteOf, (target_eq_some.mp h).2]

end

theorem pteOf_and (p : Nat) (perm : Word) : pteOf p perm &&& (pteW ||| pteU) = perm &&& (pteW ||| pteU) := by
  rw [pteOf, BitVec.or_assoc, or_flags_and (page2pa_aligned p) (by decide), BitVec.and_comm,
    BitVec.and_or_distrib_left, BitVec.and_comm _ perm, show (pteW ||| pteU) &&& pteP = 0#32 by decide, BitVec.or_zero]

/-! ## What an insertion leaves -/

structure Inserted (dirs ix : Finset Nat) (D p : Nat) (va perm : Word) (s : Kern) (s' : Kern) : Prop where
  translation : s'.checkVa2pa (kva D) va = .ok (page2pa p)
  pte : pte s'.mem D va = some (pteOf p perm)
  effective : s'.mem D (pdx va) &&& pteOf p perm &&& (pteW ||| pteU) = perm &&& (pteW ||| pteU)
  other : ∀ E ∈ dirs, ∀ a, pdx a ∈ ix → ¬ (E = D ∧ pgnum a = pgnum va) → Jos.pte s'.mem E a = Jos.pte s.mem E a
  beyond : Beyond dirs ix D va s s'.mem
  notFree : ¬ s'.onFree p
  same : mapped s.mem D va = some p → s'.ref p = s.ref p
  count : mapped s.mem D va ≠ some p → (s'.ref p).toNat = (s.ref p).toNat + 1
  old : ∀ q, q ≠ p → mapped s.mem D va = some q → (s'.ref q).toNat + 1 = (s.ref q).toNat ∧ (s'.onFree q ↔ s'.ref q = 0)
  rest : ∀ q, q ≠ p → mapped s.mem D va ≠ some q → ¬ s.onFree q → s'.ref q = s.ref q

section
variable {dirs ix : Finset Nat} {held : Nat → Nat} {s s' : Kern} {free free' : List Nat} {D T p q : Nat} {va perm : Word}
  (h : Inv dirs ix held s free) (hflags : TableFlags s.mem dirs ix) (hD : D ∈ dirs) (hi : pdx va ∈ ix)
  (hp : p < s.npages) (hf : p ∉ free) (hperm : perm.toNat < 4096) (hr : (s.ref p).toNat < 65535)
include h hflags hD hi hp hf hperm hr

omit hflags hD hi hf hr in
theorem inserted_mem (hwf : Wf dirs ix s' free') (hD : D ∈ dirs) (hi : pdx va ∈ ix)
    (hpte : pte s'.mem D va = present (pteOf p perm))
    (hdir : s'.mem D (pdx va) &&& (pteW ||| pteU) = pteW ||| pteU) :
    s'.checkVa2pa (kva D) va = .ok (page2pa p) ∧ pte s'.mem D va = some (pteOf p perm) ∧
    s'.mem D (pdx va) &&& pteOf p perm &&& (pteW ||| pteU) = perm &&& (pteW ||| pteU) := by
  have hpl : p < 1048576 := by have := h.npages_le; omega
  have hp' : pte s'.mem D va = some (pteOf p perm) := hpte.trans (present_of_target (target_pte hpl hperm))
  refine ⟨?_, hp', ?_⟩
  · rw [hwf.checkVa2pa_eq hD hi, hp', Option.elim_some, pteAddr_pteOf hperm hpl]
  · rw [BitVec.and_assoc, pteOf_and, ← BitVec.and_assoc, BitVec.and_comm _ perm, BitVec.and_assoc, hdir]

omit hf hr in
theorem inserted_fresh (hf : p ∉ free) (hr : (s.ref p).toNat < 65535) (hw : WalkTo D va s free T s' free')
    (ho : target (s'.mem T (ptx va)) = none) :
    Inserted dirs ix D p va perm s ((s'.setRef p (s'.ref p + 1)).write T (ptx va) (pteOf p perm)) := by
  obtain ⟨hwf, ht, hn⟩ := h.wf.walkTo_wf hD hi hw
  have hT := table_of_dir hD hi ht
  have hm0 : mapped s.mem D va = none := by rw [← h.wf.walkTo_mapped hD hi hw, mapped_eq ht, ho]
  have hrp : s'.ref p = s.ref p := Wf.walkTo_ref hw hf
  have hwf' := (hwf.setRef p (s'.ref p + 1)).write_table hT (ptx va) (pteOf p perm)
  have hpte := h.wf.pte_walk_write hD hi hw (pteOf p perm) hD hi
  rw [if_pos ⟨rfl, rfl⟩] at hpte
  have hds := dirStep_table hwf hT hD (dirStep_walkTo h.wf hw hD (pdx va)) (ptx va) (pteOf p perm)
  have hdir := flags_of_dirStep hds (hflags D hD _ hi) ?_
  · obtain ⟨h1, h2, h3⟩ := inserted_mem h hp hperm hwf' hD hi hpte hdir
    refine ⟨h1, h2, h3, fun E hE a ha hne => ?_, ?_, ?_, fun hs => ?_, fun _ => ?_, fun q _ hq => ?_, fun q hqp _ hqf => ?_⟩
    · exact (h.wf.pte_walk_write hD hi hw (pteOf p perm) hE ha).trans (if_neg hne)
    · exact beyond_walkTo h.wf hD hi hw fun U j hU => by rw [Kern.write_mem, Mem.set_of_page_ne _ hU, Kern.setRef_mem]
    · rw [Kern.onFree, hwf'.chain.linked_iff]
      exact Wf.walkTo_free hw hf
    · rw [hm0] at hs
      cases hs
    · rw [Kern.write_ref, Kern.setRef_ref, Function.update_self, hrp, BitVec.toNat_add,
        show (1 : BitVec 16).toNat = 1 from rfl]
      omega
    · rw [hm0] at hq
      cases hq
    · rw [Kern.onFree, h.chain.linked_iff] at hqf
      rw [Kern.write_ref, Kern.setRef_ref, Function.update_of_ne hqp, Wf.walkTo_ref hw hqf]
  · rw [Mem.set_of_page_ne _ fun e : D = T => hwf.table_dir T hT (e ▸ hD), ht]
    exact Option.some_ne_none T

theorem inserted_replace (ht : target (s.mem D (pdx va)) = some T) (hq : target (s.mem T (ptx va)) = some q) :
    ∃ s', s.pageInsert (kva D) p va perm = .ok (0, s') ∧ Inserted dirs ix D p va perm s s' := by
  have hT := table_of_dir hD hi ht
  have hTl := h.table_lt' hT
  have hTD : D ≠ T := fun e => h.table_dir T hT (e ▸ hD)
  have hqn := h.entry_lt T hT _ (ptx_lt va) q hq
  have hqf : q ∉ free := h.entry_free hT (ptx_lt va) hq
  have hm0 : mapped s.mem D va = some q := mapped_eq_some.mpr ⟨T, ht, hq⟩
  obtain ⟨hrem, hinv⟩ := (h.incRef hp hf hr).remove_mapped hD hi ht hq
  generalize htt : (((s.setRef p (s.ref p + 1)).dropRef q).write T (ptx va) 0).invlpg va = t at hrem hinv
  have htm : t.mem = s.mem.set T (ptx va) 0 := by
    rw [← htt, Kern.invlpg_mem, Kern.write_mem, Kern.dropRef_mem, Kern.setRef_mem]
  have htr : t.ref = Function.update (Function.update s.ref p (s.ref p + 1)) q
      (Function.update s.ref p (s.ref p + 1) q - 1) := by
    rw [← htt, Kern.invlpg_ref, Kern.write_ref, Kern.dropRef_ref, Kern.setRef_ref]
  have hmem : (t.write T (ptx va) (pteOf p perm)).mem = s.mem.set T (ptx va) (pteOf p perm) := by
    rw [Kern.write_mem, htm, Mem.set_set]
  refine ⟨t.write T (ptx va) (pteOf p perm), Kern.pageInsert_replace (h.wf.walk_present hD hi ht true) hTl
    (by rw [hq]; exact Option.some_ne_none q) hrem, ?_⟩
  have hTt : T ∈ tables t.mem dirs ix := by
    rw [htm, tables_set_entry (h.table_dir T hT)]
    exact hT
  have hdirm : ∀ E ∈ dirs, ∀ i, (t.write T (ptx va) (pteOf p perm)).mem E i = s.mem E i := fun E hE i => by
    rw [hmem, Mem.set_of_page_ne _ fun e : E = T => h.table_dir T hT (e ▸ hE)]
  have hwf' := hinv.wf.write_table hTt (ptx va) (pteOf p perm)
  have hpte : pte (t.write T (ptx va) (pteOf p perm)).mem D va = present (pteOf p perm) := by
    rw [hmem, h.wf.pte_write hD hi ht _ hD hi, if_pos ⟨rfl, rfl⟩]
  have hdir : (t.write T (ptx va) (pteOf p perm)).mem D (pdx va) &&& (pteW ||| pteU) = pteW ||| pteU := by
    rw [hdirm D hD]
    exact hflags D hD _ hi (by rw [ht]; exact Option.some_ne_none T)
  obtain ⟨h1, h2, h3⟩ := inserted_mem h hp hperm hwf' hD hi hpte hdir
  have hne0 : (s.ref q).toNat ≠ 0 := fun e =>
    h.ref_ne_zero hqn (Nat.add_pos_right _ (refs_entry hT (ptx_lt va) hq)) (BitVec.eq_of_toNat_eq e)
  have hfree : ∀ x, (t.write T (ptx va) (pteOf p perm)).onFree x ↔
      x ∈ Inv.dropFree (s.setRef p (s.ref p + 1)) free q := fun x => hwf'.chain.linked_iff
  have hinc : (s.ref p + 1).toNat = (s.ref p).toNat + 1 := by
    rw [BitVec.toNat_add, show (1 : BitVec 16).toNat = 1 from rfl]
    omega
  have hsub : q ≠ p → (s.ref q - 1).toNat + 1 = (s.ref q).toNat := fun _ => by
    have := (s.ref q).isLt
    rw [BitVec.toNat_sub, show (1 : BitVec 16).toNat = 1 from rfl]
    omega
  -- counts of a page other than `p` that was mapped there
  have hqr : q ≠ p → (t.write T (ptx va) (pteOf p perm)).ref q = s.ref q - 1 := fun hqp => by
    rw [Kern.write_ref, htr, Function.update_self, Function.update_of_ne hqp]
  have hback : s.ref p + 1 - 1 = s.ref p := BitVec.add_sub_cancel ..
  refine ⟨h1, h2, h3, fun E hE a ha hne => ?_, ?_, ?_, fun hs => ?_, fun hs => ?_, fun x hxp hx => ?_, fun x hxp hx _ => ?_⟩
  · rw [hmem, h.wf.pte_write hD hi ht _ hE ha, if_neg hne]
  · exact beyond_walkTo h.wf hD hi (Or.inl ⟨ht, rfl, rfl⟩) fun U j hU => by rw [hmem, Mem.set_of_page_ne _ hU]
  · rw [hfree, Inv.dropFree, Kern.setRef_ref]
    by_cases hqp : q = p
    · subst hqp
      rw [Function.update_self, hback, if_neg fun e => hne0 (by rw [e]; rfl)]
      exact hf
    · split
      · rw [List.mem_cons, not_or]
        exact ⟨Ne.symm hqp, hf⟩
      · exact hf
  · rw [hm0, Option.some.injEq] at hs
    subst hs
    rw [Kern.write_ref, htr, Function.update_self, Function.update_self, hback]
  · have hqp : p ≠ q := fun e => hs (by rw [hm0, e])
    rw [Kern.write_ref, htr, Function.update_of_ne hqp, Function.update_self, hinc]
  · rw [hm0, Option.some.injEq] at hx
    subst hx
    refine ⟨?_, ?_⟩
    · rw [hqr hxp]
      exact hsub hxp
    · rw [hfree, hqr hxp, Inv.dropFree, Kern.setRef_ref, Function.update_of_ne hxp]
      split
      · exact iff_of_true List.mem_cons_self ‹_›
      · exact iff_of_false hqf ‹_›
  · have hxq : x ≠ q := fun e => hx (by rw [hm0, e])
    rw [Kern.write_ref, htr, Function.update_of_ne hxq, Function.update_of_ne hxp]

end

/-- **`page_insert`** maps the page with exactly `perm` and changes nothing else, but that a new page table appears at
`UVPT`; or it answers `-E_NO_MEM` for want of a page table and changes nothing at all. -/
theorem pageInsert_sound {dirs ix : Finset Nat} {held : Nat → Nat} {s : Kern} {free : List Nat} {D p : Nat}
    {va perm : Word} (h : Inv dirs ix held s free) (hflags : TableFlags s.mem dirs ix) (hix : ∀ i < 955, i ∈ ix)
    (hD : D ∈ dirs) (hva : va < utop) (hp : p < s.npages) (hf : ¬ s.onFree p) (hperm : perm.toNat < 4096)
    (hr : (s.ref p).toNat < 65535) : ∃ r s', s.pageInsert (kva D) p va perm = .ok (r, s') ∧
    ((r = 0 ∧ Inserted dirs ix D p va perm s s') ∨
      (r = -eNoMem ∧ s' = s ∧ target (s.mem D (pdx va)) = none ∧ s.pageFreeList = none)) := by
  have hi := hix _ (pdx_of_lt_utop hva)
  rw [Kern.onFree, h.chain.linked_iff] at hf
  rcases h.wf.walk_create hD hi with ⟨ht, hnil, he⟩ | ⟨T, s', free', hw, he⟩
  · refine ⟨_, s, Kern.pageInsert_noMem he, Or.inr ⟨rfl, rfl, ht, ?_⟩⟩
    rw [h.head, hnil]
    rfl
  obtain ⟨hwf, ht, _⟩ := h.wf.walkTo_wf hD hi hw
  cases ho : target (s'.mem T (ptx va)) with
  | none =>
    refine ⟨0, _, Kern.pageInsert_fresh he (hwf.table_lt' (table_of_dir hD hi ht)) ho, Or.inl ⟨rfl, ?_⟩⟩
    exact inserted_fresh h hflags hD hi hp hperm hf hr hw ho
  | some q =>
    have hm := h.wf.walkTo_mapped hD hi hw
    rw [mapped_eq ht, ho, eq_comm, mapped_eq_some] at hm
    obtain ⟨U, hU, hq⟩ := hm
    obtain ⟨t, hx, hins⟩ := inserted_replace h hflags hD hi hp hf hperm hr hU hq
    exact ⟨0, t, hx, Or.inl ⟨rfl, hins⟩⟩

theorem smallKern_zero : ¬ smallKern.onFree 0 ∧ (smallKern.ref 0).toNat < 65535 := by
  constructor
  · rw [Kern.onFree, smallKern_inv.chain.linked_iff]
    exact smallKern_inv.not_free_of_ref (Nat.lt_of_lt_of_le (show 0 < bootRefs smallEnd 0 by decide) (Nat.le_add_right ..))
  · rw [smallKern_eq, Kern.write_ref]
    exact smallBoot_zero.2

theorem pageInsert_sound_small : ∃ s', smallKern.pageInsert (kva 398) 0 0 pteU = .ok (0, s') ∧
    Inserted {398} mapIx 398 0 0 pteU smallKern s' := by
  have h := smallKern_inv
  have hflags : TableFlags smallKern.mem {398} mapIx := fun D hD i hi ht => by
    obtain ⟨hu, hlt⟩ := mem_mapIx.mp hi
    rw [Finset.mem_singleton.mp hD, smallKern_start.zero i hlt hu, target_zero] at ht
    exact absurd rfl ht
  have hn : 0 < smallKern.npages := by
    rw [smallKern_npages]
    decide
  obtain ⟨hf, hr⟩ := smallKern_zero
  obtain ⟨r, s', he, ⟨rfl, hins⟩ | ⟨_, _, _, hnone⟩⟩ := pageInsert_sound h hflags
    (fun i hi => mem_mapIx.mpr ⟨by rw [show pdx uvpt = 957 from rfl]; omega, by omega⟩) (Finset.mem_singleton_self 398)
    (show (0 : Word) < utop by decide) hn hf (show pteU.toNat < 4096 by decide) hr
  · exact ⟨s', he, hins⟩
  · rw [h.head] at hnone
    cases hnone

/-- Then the new table is mapped at `UVPT`, where no page was. -/
theorem pageInsert_shows_table : Inv {398} mapIx (bootRefs smallEnd) smallKern (511 :: initFree smallEnd 511) ∧
    SelfMapped 398 smallKern ∧ ¬ smallKern.onFree 0 ∧ (smallKern.ref 0).toNat < 65535 ∧
    ∃ s', smallKern.pageInsert (kva 398) 0 0 pteU = .ok (0, s') ∧ pgnum uvpt ≠ pgnum 0 ∧ pte smallKern.mem 398 uvpt = none ∧
      pte s'.mem 398 uvpt = some (page2pa 511 ||| tableFlags) := by
  have h := smallKern_inv
  have hs := smallKern_selfMapped
  have h0 : target (smallKern.mem 398 (pdx 0)) = none := by
    rw [smallKern_start.zero (pdx 0) (pdx_lt 0) (by decide), target_zero]
  obtain ⟨hf, hr⟩ := smallKern_zero
  refine ⟨h, hs, hf, hr, _,
    Kern.pageInsert_new hs.dir_lt h0 h.head (h.free_lt 511 List.mem_cons_self) (by decide) (by decide), by decide, ?_, ?_⟩
  · rw [pte_eq hs.target_uvpt]
    exact present_eq_none.mpr h0
  · have ht : target ((smallKern.insertNew 398 511 0 0 (page2pa 0 ||| pteU ||| pteP)).mem 398 (pdx uvpt)) = some 398 := by
      rw [Kern.insertNew_dir (by decide), if_neg (by decide), hs.target_uvpt]
    rw [pte_eq ht, Kern.insertNew_dir (by decide), if_pos (by decide)]
    exact present_of_target (target_table (by decide))

end Jos
