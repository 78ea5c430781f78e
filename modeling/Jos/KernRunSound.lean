import Jos.MemInitSound
import Jos.WalkSound

/-!
# The kernel's map over a run

Whatever pages are mapped and unmapped below `UTOP` after the maps of `mem_init`, in `kern_pgdir`
and in the directories made since, the part of `kern_pgdir` above `UTOP` stays as the
maps of `mem_init` left it. Its tables are pages with a reference that no operation
gives away, so they are never free, and no operation writes them.
-/

namespace Jos

open IntrusiveList

section
variable {ix : Finset Nat} {held : Nat → Nat} {free free' : List Nat} {c c' : Conf} {D E T p i : Nat} {va : Word} {s s' : Kern}

/-! ## What one step writes -/

theorem walkTo_mem (hw : WalkTo D va s free T s' free') (hp : p ∉ free) (hD : p ≠ D) : s'.mem p = s.mem p := by
  rcases hw with ⟨_, rfl, _⟩ | ⟨_, rfl, rfl⟩
  · rfl
  · funext j
    simp only [Kern.addTable, Kern.write_mem, Kern.setRef_mem, Kern.clear_mem, Kern.pop_mem]
    rw [Mem.set_of_page_ne _ hD, Mem.clear_of_ne _ fun e : p = T => hp (e ▸ List.mem_cons_self)]

theorem walkTo_table (hD : D ∈ c.dirs) (hi : pdx va ∈ ix) (hw : WalkTo D va c.kern free T s' free') :
    T ∈ tables c.kern.mem c.dirs ix ∨ T ∈ free := by
  rcases hw with ⟨ht, _, _⟩ | ⟨_, rfl, _⟩
  · exact Or.inl (table_of_dir hD hi ht)
  · exact Or.inr List.mem_cons_self

theorem set_mem_ne {m : Mem} {j : Nat} {v : Word} (h : p ≠ T) : m.set T j v p = m p := by
  funext k
  exact Mem.set_of_page_ne m h v k

theorem effect_mem (he : Effect ix c free c' free') (hp : p ∉ free) (hd : p ∉ c.dirs)
    (ht : p ∉ tables c.kern.mem c.dirs ix) : c'.kern.mem p = c.kern.mem p := by
  have hne : ∀ {D T va s' free'}, D ∈ c.dirs → pdx va ∈ ix → WalkTo D va c.kern free T s' free' → p ≠ T ∧ s'.mem p = c.kern.mem p :=
    fun hD hi hw => ⟨fun e => (walkTo_table hD hi hw).elim (fun hT => ht (e ▸ hT)) fun hT => hp (e ▸ hT),
      walkTo_mem hw hp fun e => hd (e ▸ hD)⟩
  cases he with
  | refl => rfl
  | alloc flags took =>
    dsimp only
    split
    · rw [Kern.pop_mem]
    · rw [Kern.clear_mem, Kern.pop_mem]
      funext j
      exact Mem.clear_of_ne _ (fun e => hp (by rw [took, e]; exact List.mem_cons_self)) j
  | free off => rfl
  | newDir off empty => rfl
  | walk dir idx walks => exact (hne dir idx walks).2
  | map v dir idx walks =>
    obtain ⟨hT, hm⟩ := hne dir idx walks
    rw [Kern.write_mem, Kern.setRef_mem, set_mem_ne hT, hm]
  | remap v dir idx table cleared =>
    have hT := (hne dir idx (Or.inl ⟨table, rfl, rfl⟩)).1
    rw [Kern.write_mem, cleared, set_mem_ne hT, set_mem_ne hT]
  | unmap dir idx table entry =>
    have hT := (hne dir idx (Or.inl ⟨table, rfl, rfl⟩)).1
    dsimp only
    rw [Kern.invlpg_mem, Kern.write_mem, Kern.dropRef_mem, set_mem_ne hT]

def Entry (ix : Finset Nat) (free : List Nat) (m m' : Mem) (E i : Nat) : Prop :=
  m' E i = m E i ∨ (i ∈ ix ∧ ∃ T ∈ free, m' E i = page2pa T ||| tableFlags)

theorem walkTo_entry {dirs : Finset Nat} (h : Wf dirs ix s free) (hi : pdx va ∈ ix) (hw : WalkTo D va s free T s' free')
    (hE : E ∈ dirs) (i : Nat) : Entry ix free s.mem s'.mem E i := by
  by_cases he : (E, i) = (D, pdx va)
  · cases he
    rcases hw with ⟨_, rfl, _⟩ | ⟨_, rfl, rfl⟩
    · exact Or.inl rfl
    · refine Or.inr ⟨hi, T, List.mem_cons_self, ?_⟩
      rw [h.addTable_dir hE List.mem_cons_self, Mem.set_self]
  · exact Or.inl (h.dir_walkTo hw hE he)

theorem effect_entry (h : Inv c.dirs ix held c.kern free) (he : Effect ix c free c' free') (hE : E ∈ c.dirs) (i : Nat) :
    Entry ix free c.kern.mem c'.kern.mem E i := by
  have hne : ∀ {s : Kern} {free T}, Wf c.dirs ix s free → T ∈ tables s.mem c.dirs ix → E ≠ T :=
    fun hwf hT e => hwf.table_dir _ hT (e ▸ hE)
  cases he with
  | refl => exact Or.inl rfl
  | alloc flags took =>
    rename_i p
    have hEp : E ≠ p := fun e => h.dir_free E hE (by rw [took, e]; exact List.mem_cons_self)
    refine Or.inl ?_
    dsimp only
    split
    · rw [Kern.pop_mem]
    · rw [Kern.clear_mem, Mem.clear_of_ne _ hEp, Kern.pop_mem]
  | free off => exact Or.inl rfl
  | newDir off empty => exact Or.inl rfl
  | walk dir idx walks => exact walkTo_entry h.wf idx walks hE i
  | map v dir idx walks =>
    obtain ⟨hwf, ht, _⟩ := h.wf.walkTo_wf dir idx walks
    unfold Entry
    rw [Kern.write_mem, Kern.setRef_mem, set_mem_ne (hne hwf (table_of_dir dir idx ht))]
    exact walkTo_entry h.wf idx walks hE i
  | remap v dir idx table cleared =>
    have hT := hne h.wf (table_of_dir dir idx table)
    exact Or.inl (by rw [Kern.write_mem, cleared, set_mem_ne hT, set_mem_ne hT])
  | unmap dir idx table entry =>
    have hT := hne h.wf (table_of_dir dir idx table)
    refine Or.inl ?_
    dsimp only
    rw [Kern.invlpg_mem, Kern.write_mem, Kern.dropRef_mem, set_mem_ne hT]

theorem effect_tables (h : Inv c.dirs ix held c.kern free) (he : Effect ix c free c' free')
    (hT : p ∈ tables c'.kern.mem c'.dirs ix) : p ∈ tables c.kern.mem c.dirs ix ∨ p ∈ free := by
  obtain ⟨E, hE, i, hi, ht⟩ := mem_tables.mp hT
  rcases he.dirs hE with hE' | h0
  · rcases effect_entry h he hE' i with hs | ⟨_, T, hT, hs⟩
    · rw [hs] at ht
      exact Or.inl (mem_tables.mpr ⟨E, hE', i, hi, ht⟩)
    · have := h.free_lt T hT
      have := h.npages_le
      rw [hs, target_table (by omega), Option.some.injEq] at ht
      exact Or.inr (ht ▸ hT)
  · rw [h0 i hi] at ht
    cases ht

end

theorem exec_dirs {own : Finset Nat} {c c' : Conf} {op : Op} {E : Nat} (hv : op.Valid own c) (he : op.exec c = .ok c')
    (hE : E ∈ c'.dirs) : E ∈ c.dirs ∨ c.kern.ref E = 0 := by
  cases op with
  | newDir D =>
    cases he
    rcases Finset.mem_insert.mp hE with rfl | hE
    · exact Or.inr hv.2.1
    · exact Or.inl hE
  | alloc flags =>
    obtain ⟨_, _, h⟩ := bind_eq_ok.mp he
    cases h
    exact Or.inl hE
  | free p =>
    obtain ⟨_, _, h⟩ := bind_eq_ok.mp he
    cases h
    exact Or.inl hE
  | walk D va create =>
    obtain ⟨_, _, h⟩ := bind_eq_ok.mp he
    cases h
    exact Or.inl hE
  | insert D p va perm =>
    obtain ⟨_, _, h⟩ := bind_eq_ok.mp he
    cases h
    exact Or.inl hE
  | remove D va =>
    obtain ⟨_, _, h⟩ := bind_eq_ok.mp he
    cases h
    exact Or.inl hE

/-! ## What a run keeps -/

/-- Directory `D` is as in `m` outside `ix`, and so are the pages `K`, which are no directories and no tables for `ix`. -/
structure Kept (ix K : Finset Nat) (D : Nat) (m : Mem) (c : Conf) : Prop where
  dir : D ∈ c.dirs
  entry : ∀ i ∉ ix, c.kern.mem D i = m D i
  mem : ∀ p ∈ K, c.kern.mem p = m p
  pages : ∀ p ∈ K, p < c.kern.npages
  not_dir : ∀ p ∈ K, p ∉ c.dirs
  not_table : ∀ p ∈ K, p ∉ tables c.kern.mem c.dirs ix

section
variable {own ix K : Finset Nat} {held : Nat → Nat} {free : List Nat} {c c' : Conf} {D : Nat} {m : Mem}
  (hix : ∀ i < 955, i ∈ ix) (hle : ∀ i ∈ ix, i < npdentries) (hown : ∀ D ∈ own, 0 < held D) (hK : ∀ p ∈ K, 0 < held p)
include hix hle hown hK

theorem Kept.step (hi : Inv c.dirs ix held c.kern free) (h : Kept ix K D m c)
    (hs : Step (fun c op => op.Valid own c ∧ op.Safe c) c c') : Kept ix K D m c' := by
  obtain ⟨free', he, hi', hn⟩ := step_effect hix hle hown (fun _ _ ho => ho) hi hs
  have hfree : ∀ p ∈ K, p ∉ free := fun p hp => hi.not_free_of_ref (Nat.lt_of_lt_of_le (hK p hp) (Nat.le_add_right ..))
  refine ⟨(effect_dir hi he h.dir 0).1, fun i hx => ?_, fun p hp => ?_, fun p hp => hn ▸ h.pages p hp, fun p hp hd => ?_,
    fun p hp ht => ?_⟩
  · rcases effect_entry hi he h.dir i with hs | ⟨hin, _⟩
    · rw [hs, h.entry i hx]
    · exact absurd hin hx
  · rw [effect_mem he (hfree p hp) (h.not_dir p hp) (h.not_table p hp), h.mem p hp]
  · obtain ⟨op, ho, hx⟩ := hs
    rcases exec_dirs ho.1 hx hd with hd | hr
    · exact h.not_dir p hp hd
    · exact hi.ref_ne_zero (h.pages p hp) (Nat.lt_of_lt_of_le (hK p hp) (Nat.le_add_right ..)) hr
  · exact (effect_tables hi he ht).elim (h.not_table p hp) (hfree p hp)

theorem Kept.run (hi : Inv c.dirs ix held c.kern free) (h : Kept ix K D m c)
    (hr : Reach (fun c op => op.Valid own c ∧ op.Safe c) c c') :
    Kept ix K D m c' ∧ ∃ free', Inv c'.dirs ix held c'.kern free' := by
  induction hr with
  | refl => exact ⟨h, free, hi⟩
  | tail _ hs ih =>
    obtain ⟨h', free', hi'⟩ := ih
    obtain ⟨free'', _, hi'', _⟩ := step_effect hix hle hown (fun _ _ ho => ho) hi' hs
    exact ⟨h'.step hix hle hown hK hi' hs, free'', hi''⟩

end

theorem Kept.pte {ix K : Finset Nat} {D : Nat} {m : Mem} {c : Conf} {va : Word} (h : Kept ix K D m c) (hva : pdx va ∉ ix)
    (hT : ∀ T, target (m D (pdx va)) = some T → T ∈ K) : pte c.kern.mem D va = Jos.pte m D va := by
  have hd := h.entry (pdx va) hva
  cases ht : target (m D (pdx va)) with
  | none => rw [pte_none ht, pte_none (by rw [hd, ht])]
  | some T => rw [pte_eq ht, pte_eq (T := T) (by rw [hd, ht]), h.mem T (hT T ht)]

/-! ## After the maps of `mem_init` -/

/-- What `memlayout.h` says of the addresses above `UTOP`. -/
structure KernelPart (D : Nat) (pagesVa bootstack : Word) (m : Mem) : Prop where
  window : ∀ va, kernbase ≤ va → ∃ w, pte m D va = some w ∧ pteAddr w + pgoff va = va - kernbase ∧
    w &&& pteW ≠ 0 ∧ w &&& pteU = 0
  stack : ∀ va, kstacktop - kstksize ≤ va → va < kstacktop → ∃ w, pte m D va = some w ∧
    pteAddr w + pgoff va = (bootstack - kernbase) + (va - (kstacktop - kstksize)) ∧ w &&& pteW ≠ 0 ∧ w &&& pteU = 0
  upages : ∀ va, upages ≤ va → va < upages + ptsize → userReadable m D va ∧ ∃ w, pte m D va = some w ∧
    pteAddr w + pgoff va = (pagesVa - kernbase) + (va - upages) ∧ w &&& pteU ≠ 0 ∧ w &&& pteW = 0
  uvpt : ∀ va, uvpt ≤ va → va < ulim → ¬ userWritable m D va
  unmapped : ∀ va, utop ≤ va ∧ va < Jos.upages ∨ (ulim ≤ va ∧ va < kstacktop - kstksize) → pte m D va = none

namespace Check

open Traced IntrusiveList

variable {D : Nat} {s k t : Kern} {ff : Word} {l free new : List Nat} {t₀ w : Kern}

theorem Prepared.user_empty {l₀ : List Nat} (h : Prepared D l₀ t₀ w t l free new) :
    ∀ E ∈ ({D} : Finset Nat), ∀ i ∈ userIx, target (t.mem E i) = none := by
  intro E hE i hx
  have hx := mem_userIx.mp hx
  rw [Finset.mem_singleton.mp hE, h.maps.dir_none i fun j hj => kernEntries_none w (by omega),
    h.start.zero i (by rw [npdentries]; omega) (by rw [show pdx uvpt = 957 from rfl]; omega), target_zero]

theorem Prepared.ref {p : Nat} (h : Prepared D (initFree ff k.npages) t₀ w t l free new)
    (hi : Kern.InitLoop ff k k.npages t₀) (hp : p ∈ l) : t.ref p = if p ∈ new then 1 else 0 := by
  have hm : p ∈ initFree ff k.npages := h.restored.perm.mem_iff.mp hp
  rw [h.maps.ref, h.restored.ref, hi.ref, if_neg fun e => (mem_initFree.mp hm).2 e.2]
  split
  · rfl
  · rfl

theorem Prepared.inv (h : Prepared D (initFree ff k.npages) t₀ w t l free new) (hi : Kern.InitLoop ff k k.npages t₀) :
    Inv {D} userIx (fun p => (t.ref p).toNat) t free := by
  obtain ⟨ht, hr⟩ := refs_empty h.user_empty
  have hwf := h.maps.wf
  have hnd := h.start.chain.nodup
  rw [h.maps.took, List.nodup_append] at hnd
  obtain ⟨free', hc, hl⟩ := (h.start.frame (fun _ => h.link hi) h.map).2.2
  obtain rfl : free' = free := hc.unique hwf.chain
  refine ⟨hwf.npages_le, hwf.chain, hwf.free_lt, fun p hp => ?_, fun p _ => hl p, hwf.dir_lt, hwf.dir_free, fun E _ _ => hr E,
    ?_, ?_, fun E hE E' _ i hx i' _ T h1 _ => ?_, ?_, fun p _ => ?_⟩
  · rw [h.ref hi (h.maps.took ▸ List.mem_append_right new hp), if_neg fun hn => hnd.2.2 p hn p hp rfl]
  · rw [ht]
    intro T hT
    cases hT
  · rw [ht]
    intro T hT
    cases hT
  · rw [h.user_empty E hE i hx] at h1
    cases h1
  · rw [ht]
    intro T hT
    cases hT
  · rw [hr, Nat.add_zero]

theorem Prepared.kept {l₀ : List Nat} (h : Prepared D l₀ t₀ w t l free new) : Kept userIx new.toFinset D t.mem ⟨{D}, t⟩ where
  dir := Finset.mem_singleton_self D
  entry _ _ := rfl
  mem _ _ := rfl
  pages p hp := by
    show p < t.npages
    rw [h.maps.npages]
    exact h.start.free_lt p (h.maps.took ▸ List.mem_append_left free (List.mem_toFinset.mp hp))
  not_dir p hp hd := by
    rw [Finset.mem_singleton.mp hd, List.mem_toFinset] at hp
    exact h.start.dir_free (h.maps.took ▸ List.mem_append_left free hp)
  not_table p _ ht := by
    rw [(refs_empty h.user_empty).1] at ht
    cases ht

theorem Prepared.target_new {l₀ : List Nat} {i T : Nat} (h : Prepared D l₀ t₀ w t l free new) (hi : i < 1024)
    (hu : i ≠ pdx uvpt) (ht : target (t.mem D i) = some T) : T ∈ new.toFinset := by
  rcases h.maps.dir i with hd | ⟨_, _, U, hU, hd⟩
  · rw [hd, h.start.zero i hi hu, target_zero] at ht
    cases ht
  · have := h.start.free_lt U (h.maps.took ▸ List.mem_append_left free hU)
    have := h.start.npages_le
    rw [hd, target_table (by omega), Option.some.injEq] at ht
    exact List.mem_toFinset.mpr (ht ▸ hU)

theorem Prepared.uvpt {l₀ : List Nat} (h : Prepared D l₀ t₀ w t l free new) : t.mem D (pdx uvpt) &&& pteW = 0 := by
  rw [(h.maps.dir (pdx Jos.uvpt)).resolve_right fun e => (mem_mapIx.mp e.1).1 rfl, h.start.uvpt, BitVec.or_assoc,
    or_flags_and (page2pa_aligned D) (by decide)]
  decide

theorem pdx_not_user {va : Word} (h : utop ≤ va) : pdx va ∉ userIx := by
  rw [BitVec.le_def, utop_toNat] at h
  rw [mem_userIx, pdx_eq]
  omega

theorem Prepared.kernelPart {l₀ : List Nat} {c : Conf} {pagesVa bootstack : Word} (h : Prepared D l₀ t₀ w t l free new)
    (hm : KernMapped D pagesVa bootstack t.mem) (hc : Kept userIx new.toFinset D t.mem c) :
    KernelPart D pagesVa bootstack c.kern.mem := by
  have hu : pdx Jos.uvpt = 957 := rfl
  have hd : ∀ va, utop ≤ va → c.kern.mem D (pdx va) = t.mem D (pdx va) := fun va hva => hc.entry _ (pdx_not_user hva)
  have hpte : ∀ va, utop ≤ va → pdx va ≠ pdx Jos.uvpt → pte c.kern.mem D va = pte t.mem D va := fun va hva hne =>
    hc.pte (pdx_not_user hva) fun T hT => h.target_new (pdx_lt va) hne hT
  have hs : (kstacktop - kstksize).toNat = 4026499072 := rfl
  constructor
  · intro va hva
    rw [hpte va (BitVec.le_trans (by decide) hva)]
    · exact hm.window va hva
    · rw [BitVec.le_def, kernbase_toNat] at hva
      rw [hu, pdx_eq]
      omega
  · intro va hva hlt
    rw [hpte va (BitVec.le_trans (by decide) hva)]
    · exact hm.stack va hva hlt
    · rw [BitVec.le_def, hs] at hva
      rw [hu, pdx_eq]
      omega
  · intro va hva hlt
    have hut : utop ≤ va := BitVec.le_trans (by decide) hva
    have hne : pdx va ≠ pdx Jos.uvpt := by
      rw [BitVec.lt_def, show (Jos.upages + ptsize).toNat = 4013948928 from rfl] at hlt
      rw [hu, pdx_eq]
      omega
    obtain ⟨hr, hw⟩ := hm.upages va hva hlt
    unfold userReadable at hr ⊢
    rw [hpte va hut hne, hd va hut]
    exact ⟨hr, hw⟩
  · rintro va hva hlt ⟨_, hW, _⟩
    have hp : pdx va = pdx Jos.uvpt := by
      rw [BitVec.le_def, uvpt_toNat] at hva
      rw [BitVec.lt_def, ulim_toNat] at hlt
      rw [hu, pdx_eq]
      omega
    rw [hd va (BitVec.le_trans (by decide) hva), hp] at hW
    exact hW h.uvpt
  · intro va hva
    have hut : utop ≤ va := by
      rcases hva with ⟨h1, _⟩ | ⟨h1, _⟩
      · exact h1
      · exact BitVec.le_trans (by decide) h1
    rw [hpte va hut]
    · refine hm.unmapped va ?_
      rcases hva with ⟨_, h2⟩ | h2
      · exact Or.inl h2
      · exact Or.inr h2
    · rw [hu, pdx_eq]
      rcases hva with ⟨_, h2⟩ | ⟨h1, _⟩
      · rw [BitVec.lt_def, upages_toNat] at h2
        omega
      · rw [BitVec.le_def, ulim_toNat] at h1
        omega

theorem Prepared.new_length {l₀ : List Nat} (h : Prepared D l₀ t₀ w t l free new) : new.length ≤ 66 := by
  have hc := h.maps.count kernTables fun j v hj => ?_
  · rw [h.start.need] at hc
    omega
  · rw [mem_kernTables]
    by_contra hn
    rw [kernEntries_none w (by omega)] at hj
    cases hj

end Check

end Jos
