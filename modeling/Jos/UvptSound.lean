import Jos.KernMapSound

/-!
# The page table window at `UVPT`

A directory whose entry for `UVPT` refers to itself shows its page tables at
`UVPT`: the word at `UVPT` + 4 · `PGNUM(va)` is the slot that `pgdir_walk` finds
for `va`. The operations at other addresses keep the entry, from any state in
which the directory is not free and is no page table of itself elsewhere, and
the entry has no `PTE_W`.
-/

namespace Jos

open IntrusiveList

def OutsideUvpt (va : Word) : Prop := va < uvpt ∨ ulim ≤ va

theorem outsideUvpt_iff {va : Word} : OutsideUvpt va ↔ pdx va ≠ pdx uvpt := by
  rw [OutsideUvpt, BitVec.lt_def, BitVec.le_def, uvpt_toNat, ulim_toNat, show pdx uvpt = 957 from rfl, pdx_eq]
  omega

/-- Directory `D` sees itself at `UVPT` and nowhere else, and is not free. -/
structure SelfMapped (D : Nat) (s : Kern) : Prop where
  dir_lt : D < 65536
  uvpt : s.mem D (pdx uvpt) = page2pa D ||| pteU ||| pteP
  other : ∀ i < npdentries, i ≠ pdx Jos.uvpt → target (s.mem D i) ≠ some D
  table_lt : ∀ i < npdentries, ∀ T, target (s.mem D i) = some T → T < s.npages
  not_free : ¬ Linked s.link s.pageFreeList D
  free_lt : ∀ p, Linked s.link s.pageFreeList p → p < 1048576

namespace SelfMapped

variable {D T : Nat} {s s' : Kern} {va a : Word}

theorem target_uvpt (h : SelfMapped D s) : target (s.mem D (pdx Jos.uvpt)) = some D := by
  have := h.dir_lt
  rw [h.uvpt, target_pte (by omega) (by decide)]

theorem dir_npages (h : SelfMapped D s) : D < s.npages := h.table_lt _ (pdx_lt _) D h.target_uvpt

theorem not_writable (h : s.mem D (pdx Jos.uvpt) = page2pa D ||| pteU ||| pteP) (ha : pdx a = pdx Jos.uvpt) :
    ¬ userWritable s.mem D a := by
  rintro ⟨_, hW, _⟩
  rw [ha, h, BitVec.or_assoc, or_flags_and (page2pa_aligned D) (by decide)] at hW
  exact hW (by decide)

/-! ## The two ways to a slot -/

/-- The address in the window of the slot of `va`. -/
def slotVa (va : Word) : Word := Jos.uvpt + 4 * BitVec.ofNat 32 (pgnum va)

theorem slotVa_toNat (va : Word) : (slotVa va).toNat = 4013948928 + 4 * pgnum va := by
  have := pgnum_lt va
  rw [slotVa, BitVec.toNat_add, BitVec.toNat_mul, BitVec.toNat_ofNat, uvpt_toNat, show (4 : Word).toNat = 4 from rfl]
  omega

theorem pdx_slotVa (va : Word) : pdx (slotVa va) = pdx Jos.uvpt := by
  have := pgnum_lt va
  rw [pdx_eq, slotVa_toNat, show pdx Jos.uvpt = 957 from rfl]
  omega

theorem ptx_slotVa (va : Word) : ptx (slotVa va) = pdx va := by
  rw [← pgnum_div, ptx_eq, slotVa_toNat]
  have := pgnum_lt va
  omega

theorem pgoff_slotVa (va : Word) : pgoff (slotVa va) = BitVec.ofNat 32 (4 * ptx va) := by
  have := pgnum_split va
  have := ptx_lt va
  apply BitVec.eq_of_toNat_eq
  rw [pgoff_toNat, slotVa_toNat, BitVec.toNat_ofNat]
  omega

theorem slot_absent (h : SelfMapped D s) (ht : target (s.mem D (pdx va)) = none) :
    s.pgdirWalk (kva D) va false = .ok (none, s) ∧ s.checkVa2pa (kva D) (slotVa va) = .ok (~~~0) := by
  refine ⟨Kern.pgdirWalk_absent h.dir_lt ht, ?_⟩
  have hd : target (s.mem D (pdx (slotVa va))) = some D := by
    rw [pdx_slotVa]
    exact h.target_uvpt
  have hc := Kern.checkVa2pa_table h.dir_lt hd h.dir_npages h.dir_lt
  rw [ptx_slotVa, if_pos ht] at hc
  exact hc

/-- The walk of the hardware through `UVPT` ends at the slot that `pgdir_walk` returns. -/
theorem slot_present (h : SelfMapped D s) (ht : target (s.mem D (pdx va)) = some T) :
    ∃ slot pa, s.pgdirWalk (kva D) va false = .ok (some slot, s) ∧ s.checkVa2pa (kva D) (slotVa va) = .ok pa ∧
      pa + pgoff (slotVa va) = slot - kernbase := by
  refine ⟨entry (kva T) (ptx va), page2pa T,
    Kern.pgdirWalk_present h.dir_lt ht (h.table_lt _ (pdx_lt va) T ht), ?_, ?_⟩
  · have hd : target (s.mem D (pdx (slotVa va))) = some D := by
      rw [pdx_slotVa]
      exact h.target_uvpt
    have hc := Kern.checkVa2pa_table h.dir_lt hd h.dir_npages h.dir_lt
    rw [ptx_slotVa, if_neg (by rw [ht]; exact Option.some_ne_none T)] at hc
    rw [hc, pteAddr_eq_page2pa, (target_eq_some.mp ht).2]
  · rw [pgoff_slotVa, entry_kva_sub]

/-! ## What the operations keep -/

theorem write (h : SelfMapped D s) (hT : D ≠ T) (i : Nat) (v : Word) : SelfMapped D (s.write T i v) := by
  have hm : ∀ j, (s.write T i v).mem D j = s.mem D j := Mem.set_of_page_ne s.mem hT v
  refine ⟨h.dir_lt, ?_, ?_, ?_, h.not_free, h.free_lt⟩
  · rw [hm]; exact h.uvpt
  · intro j; rw [hm]; exact h.other j
  · intro j; rw [hm]; exact h.table_lt j

theorem setRef (h : SelfMapped D s) (p : Nat) (r : BitVec 16) : SelfMapped D (s.setRef p r) := by
  refine ⟨h.dir_lt, h.uvpt, h.other, h.table_lt, ?_, ?_⟩
  · rw [Kern.setRef_link]; exact h.not_free
  · rw [Kern.setRef_link]; exact h.free_lt

theorem addTable (h : SelfMapped D s) (hf : s.pageFreeList = some T) (hn : T < s.npages) (hva : pdx va ≠ pdx Jos.uvpt) :
    D ≠ T ∧ SelfMapped D (s.addTable D T va) := by
  have hT : Linked s.link s.pageFreeList T := hf ▸ .here T
  have hne : D ≠ T := fun e => h.not_free (e ▸ hT)
  have hlt := h.free_lt T hT
  have hm : ∀ j, j ≠ pdx va → (s.addTable D T va).mem D j = s.mem D j := fun j hj => by
    rw [Kern.addTable_dir hne, if_neg hj]
  have hnew : target ((s.addTable D T va).mem D (pdx va)) = some T := by
    rw [Kern.addTable_dir hne, if_pos rfl, target_table hlt]
  have hl : ∀ p, Linked (s.addTable D T va).link (s.addTable D T va).pageFreeList p → Linked s.link s.pageFreeList p := by
    intro p hp
    have hlink : (s.addTable D T va).link = Function.update s.link T none := by
      rw [Kern.addTable, Kern.write_link, Kern.setRef_link, Kern.clear_link, Kern.pop_link]
    rw [hlink] at hp
    rw [hf]
    exact .next p T hp.of_cut
  refine ⟨hne, h.dir_lt, ?_, ?_, ?_, fun hp => h.not_free (hl D hp), fun p hp => h.free_lt p (hl p hp)⟩
  · rw [hm _ (Ne.symm hva)]; exact h.uvpt
  · intro j hj hju
    by_cases he : j = pdx va
    · rw [he, hnew]; exact fun e => hne (Option.some.inj e).symm
    · rw [hm j he]; exact h.other j hj hju
  · intro j hj U hU
    by_cases he : j = pdx va
    · rw [he, hnew, Option.some.injEq] at hU
      exact hU ▸ hn
    · rw [hm j he] at hU; exact h.table_lt j hj U hU

def Away (D : Nat) (slot va : Word) : Prop := ∃ T, D ≠ T ∧ T < 1048576 ∧ slot = entry (kva T) (ptx va)

section
variable (hva : pdx va ≠ pdx Jos.uvpt)
include hva

theorem walk {create : Bool} {r : Option Word} (h : SelfMapped D s)
    (hw : s.pgdirWalk (kva D) va create = .ok (r, s')) : SelfMapped D s' ∧ ∀ slot, r = some slot → Away D slot va := by
  cases ht : target (s.mem D (pdx va)) with
  | some T =>
    rw [Kern.pgdirWalk_present h.dir_lt ht (h.table_lt _ (pdx_lt va) T ht), Except.ok.injEq, Prod.mk.injEq] at hw
    obtain ⟨rfl, rfl⟩ := hw
    refine ⟨h, fun slot hs => ⟨T, fun e => h.other _ (pdx_lt va) hva (e ▸ ht), ?_, (Option.some.inj hs).symm⟩⟩
    rw [← (target_eq_some.mp ht).2]
    exact pgnum_lt _
  | none =>
    cases create with
    | false =>
      rw [Kern.pgdirWalk_absent h.dir_lt ht, Except.ok.injEq, Prod.mk.injEq] at hw
      obtain ⟨rfl, rfl⟩ := hw
      exact ⟨h, fun slot hs => by cases hs⟩
    | true =>
      cases hf : s.pageFreeList with
      | none =>
        rw [Kern.pgdirWalk_noMem h.dir_lt ht hf, Except.ok.injEq, Prod.mk.injEq] at hw
        obtain ⟨rfl, rfl⟩ := hw
        exact ⟨h, fun slot hs => by cases hs⟩
      | some T =>
        have hlt := h.free_lt T (hf ▸ .here T)
        by_cases hn : T < s.npages ∧ T < 65536
        · rw [Kern.pgdirWalk_create h.dir_lt ht hf hn.1 hn.2, Except.ok.injEq, Prod.mk.injEq] at hw
          obtain ⟨rfl, rfl⟩ := hw
          obtain ⟨hne, h'⟩ := h.addTable hf hn.1 hva
          exact ⟨h', fun slot hs => ⟨T, hne, hlt, (Option.some.inj hs).symm⟩⟩
        · obtain ⟨e, he⟩ := Kern.pgdirWalk_error h.dir_lt ht hf hlt hn
          rw [he] at hw
          cases hw

omit hva in
theorem store_away {slot v : Word} (hs : Away D slot va) (hk : s.store slot v = .ok s') :
    ∃ T, D ≠ T ∧ s' = s.write T (ptx va) v := by
  obtain ⟨T, hne, hT, rfl⟩ := hs
  exact ⟨T, hne, Kern.store_entry_ok hT (ptx_lt va) hk⟩

omit hva in
theorem decref_mem {p : Nat} (hk : s.pageDecref p = .ok s') : s'.mem = s.mem := by
  simp only [Kern.pageDecref] at hk
  split at hk
  · unfold Kern.pageFree at hk
    split at hk
    · rw [pure_ok, Except.ok.injEq] at hk
      rw [← hk]
      rfl
    · cases hk
  · rw [pure_ok, Except.ok.injEq] at hk
    rw [← hk]
    rfl

theorem lookup {r : Option (Nat × Word)} (h : SelfMapped D s) (hl : s.pageLookup (kva D) va = .ok (r, s')) :
    s' = s ∧ ∀ q slot, r = some (q, slot) → Away D slot va := by
  unfold Kern.pageLookup at hl
  obtain ⟨⟨pt, s₁⟩, hw, hl⟩ := bind_eq_ok.mp hl
  have hs₁ : s₁ = s := by
    cases ht : target (s.mem D (pdx va)) with
    | some T =>
      rw [Kern.pgdirWalk_present h.dir_lt ht (h.table_lt _ (pdx_lt va) T ht), Except.ok.injEq, Prod.mk.injEq] at hw
      exact hw.2.symm
    | none =>
      rw [Kern.pgdirWalk_absent h.dir_lt ht, Except.ok.injEq, Prod.mk.injEq] at hw
      exact hw.2.symm
  have haway := (h.walk hva hw).2
  cases pt with
  | none =>
    dsimp only at hl
    rw [pure_ok, Except.ok.injEq, Prod.mk.injEq] at hl
    refine ⟨hl.2.symm.trans hs₁, fun q slot hr => ?_⟩
    rw [← hl.1] at hr
    cases hr
  | some pt =>
    obtain ⟨w, _, hl⟩ := bind_eq_ok.mp hl
    obtain ⟨pp, _, hl⟩ := bind_eq_ok.mp hl
    rw [pure_ok, Except.ok.injEq, Prod.mk.injEq] at hl
    refine ⟨hl.2.symm.trans hs₁, fun q slot hr => ?_⟩
    rw [← hl.1, Option.some.injEq, Prod.mk.injEq] at hr
    exact hr.2 ▸ haway pt rfl

theorem remove (h : SelfMapped D s) (hr : s.pageRemove (kva D) va = .ok s') (i : Nat) : s'.mem D i = s.mem D i := by
  unfold Kern.pageRemove at hr
  obtain ⟨⟨r, s₁⟩, hl, hr⟩ := bind_eq_ok.mp hr
  obtain ⟨rfl, haway⟩ := h.lookup hva hl
  cases r with
  | none =>
    dsimp only at hr
    rw [pure_ok, Except.ok.injEq] at hr
    rw [hr]
  | some x =>
    obtain ⟨q, slot⟩ := x
    obtain ⟨s₂, hd, hr⟩ := bind_eq_ok.mp hr
    obtain ⟨s₃, hst, hr⟩ := bind_eq_ok.mp hr
    obtain ⟨T, hne, rfl⟩ := store_away (haway q slot rfl) hst
    rw [pure_ok, Except.ok.injEq] at hr
    rw [← hr, Kern.tlbInvalidate, Kern.invlpg_mem, Kern.write_mem, Mem.set_of_page_ne _ hne, decref_mem hd]

theorem insert {pp : Nat} {perm : Word} {r : Int} (h : SelfMapped D s)
    (hi : s.pageInsert (kva D) pp va perm = .ok (r, s')) :
    s'.mem D (pdx Jos.uvpt) = s.mem D (pdx Jos.uvpt) := by
  unfold Kern.pageInsert at hi
  obtain ⟨⟨pt, s₁⟩, hw, hi⟩ := bind_eq_ok.mp hi
  obtain ⟨h₁, haway⟩ := h.walk hva hw
  have hkeep : s₁.mem D (pdx Jos.uvpt) = s.mem D (pdx Jos.uvpt) := h₁.uvpt.trans h.uvpt.symm
  cases pt with
  | none =>
    dsimp only at hi
    rw [pure_ok, Except.ok.injEq, Prod.mk.injEq] at hi
    rw [← hi.2, hkeep]
  | some slot =>
    have h₂ := h₁.setRef pp (s₁.ref pp + 1)
    obtain ⟨w, _, hi⟩ := bind_eq_ok.mp hi
    have hlast : ∀ s₃ : Kern, s₃.mem D (pdx Jos.uvpt) = s₁.mem D (pdx Jos.uvpt) →
        (s₃.store slot (page2pa pp ||| perm ||| pteP) >>= fun k => .ok ((0 : Int), k)) = .ok (r, s') →
        s'.mem D (pdx Jos.uvpt) = s.mem D (pdx Jos.uvpt) := by
      intro s₃ h₃ hst
      obtain ⟨k, hst, he⟩ := bind_eq_ok.mp hst
      obtain ⟨T, hne, rfl⟩ := store_away (haway slot rfl) hst
      rw [Except.ok.injEq, Prod.mk.injEq] at he
      rw [← he.2, Kern.write_mem, Mem.set_of_page_ne _ hne, h₃, hkeep]
    dsimp only at hi
    split at hi
    · obtain ⟨s₃, hr, hi⟩ := bind_eq_ok.mp hi
      exact hlast s₃ (h₂.remove hva hr _) hi
    · exact hlast (s₁.setRef pp (s₁.ref pp + 1)) rfl hi

end

theorem bootMapLoop {perm : Word} : ∀ (n : Nat) {s : Kern} {va pa : Word}, SelfMapped D s →
    (∀ k < n, pdx (va + BitVec.ofNat 32 k * pgsize) ≠ pdx Jos.uvpt) →
    Kern.bootMapLoop (kva D) perm n s va pa = .ok s' → SelfMapped D s'
  | 0, s, va, pa, h, _, hl => by
    rw [Kern.bootMapLoop, pure_ok, Except.ok.injEq] at hl
    exact hl ▸ h
  | n + 1, s, va, pa, h, hva, hl => by
    have h0 : pdx va ≠ pdx Jos.uvpt := by
      have := hva 0 (Nat.succ_pos n)
      rwa [show BitVec.ofNat 32 0 * pgsize = 0#32 from rfl, BitVec.add_zero] at this
    have hs : ∀ k < n, pdx (va + pgsize + BitVec.ofNat 32 k * pgsize) ≠ pdx Jos.uvpt := fun k hk => by
      have := hva (k + 1) (Nat.succ_lt_succ hk)
      rwa [show va + BitVec.ofNat 32 (k + 1) * pgsize = va + pgsize + BitVec.ofNat 32 k * pgsize by
        apply BitVec.eq_of_toNat_eq
        simp only [BitVec.toNat_add, BitVec.toNat_mul, BitVec.toNat_ofNat, pgsize_toNat]
        omega] at this
    unfold Kern.bootMapLoop at hl
    obtain ⟨⟨pt, s₁⟩, hw, hl⟩ := bind_eq_ok.mp hl
    obtain ⟨h₁, haway⟩ := h.walk h0 hw
    cases pt with
    | none => cases hl
    | some slot =>
      obtain ⟨s₂, hst, hl⟩ := bind_eq_ok.mp hl
      obtain ⟨T, hne, rfl⟩ := store_away (haway slot rfl) hst
      exact bootMapLoop n (h₁.write hne _ _) hs hl

end SelfMapped

/-- The entry for `UVPT` is as it was, so nothing at `UVPT` is writable from user mode. -/
def UvptKept (D : Nat) (s s' : Kern) : Prop :=
  s'.mem D (pdx uvpt) = s.mem D (pdx uvpt) ∧ ∀ a, uvpt ≤ a → a < ulim → ¬ userWritable s'.mem D a

theorem SelfMapped.kept {D : Nat} {s s' : Kern} (h : SelfMapped D s)
    (hk : s'.mem D (pdx Jos.uvpt) = s.mem D (pdx Jos.uvpt)) : UvptKept D s s' := by
  refine ⟨hk, fun a h1 h2 => not_writable (hk.trans h.uvpt) ?_⟩
  rw [BitVec.le_def, uvpt_toNat] at h1
  rw [BitVec.lt_def, ulim_toNat] at h2
  rw [show pdx Jos.uvpt = 957 from rfl, pdx_eq]
  omega

theorem smallKern_selfMapped : SelfMapped 398 smallKern := by
  have h := smallKern_start
  have ht : ∀ i < npdentries, i ≠ pdx uvpt → target (smallKern.mem 398 i) = none := fun i hi hne => by
    rw [h.zero i hi hne, target_zero]
  have hf : ∀ p, Linked smallKern.link smallKern.pageFreeList p → p < 512 := fun p hp =>
    (mem_initFree.mp (h.chain.linked_iff.mp hp)).1
  refine ⟨by decide, h.uvpt, fun i hi hne => ?_, fun i hi T hT => ?_, ?_, fun p hp => ?_⟩
  · rw [ht i hi hne]; exact (Option.some_ne_none 398).symm
  · by_cases hne : i = pdx uvpt
    · rw [hne, h.uvpt, target_pte (by decide) (by decide), Option.some.injEq] at hT
      rw [← hT, smallKern_npages]
      decide
    · rw [ht i hi hne] at hT; cases hT
  · rw [h.chain.linked_iff]; exact h.dir_free
  · exact Nat.lt_trans (hf p hp) (by decide)

end Jos
