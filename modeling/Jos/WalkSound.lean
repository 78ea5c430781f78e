import Jos.BootMapSound

/-!
# `pgdir_walk` and its slots

The slot of an address is the entry that `pgdir_walk` returns for it. Page tables
are distinct pages, off the free list, and empty when they are made, so no two
pages of virtual memory share a slot. Making a table changes no translation but
one: at `UVPT`, where a directory refers to itself, the new table appears. No
operation takes a table away, so the slot of an address stays the same.
-/

namespace Jos

open IntrusiveList

/-! ## Directories over a run -/

def DirStep (m m' : Mem) (E i : Nat) : Prop :=
  m' E i = m E i ∨ (target (m E i) = none ∧ ∃ T, m' E i = page2pa T ||| tableFlags)

section
variable {dirs ix : Finset Nat} {held : Nat → Nat} {s s' : Kern} {free free' : List Nat} {D E T p i : Nat} {va : Word}

theorem dirStep_walkTo (h : Wf dirs ix s free) (hw : WalkTo D va s free T s' free') (hE : E ∈ dirs) (i : Nat) :
    DirStep s.mem s'.mem E i := by
  by_cases he : (E, i) = (D, pdx va)
  · cases he
    rcases hw with ⟨_, rfl, _⟩ | ⟨ho, rfl, rfl⟩
    · exact Or.inl rfl
    · refine Or.inr ⟨ho, T, ?_⟩
      rw [h.addTable_dir hE List.mem_cons_self, Mem.set_self]
  · exact Or.inl (h.dir_walkTo hw hE he)

theorem dirStep_table {m : Mem} (h : Wf dirs ix s free) (hT : T ∈ tables s.mem dirs ix) (hE : E ∈ dirs)
    (hm : DirStep m s.mem E i) (j : Nat) (v : Word) : DirStep m (s.mem.set T j v) E i := by
  have hET : E ≠ T := fun e => h.table_dir T hT (e ▸ hE)
  rw [DirStep, Mem.set_of_page_ne _ hET]
  exact hm

theorem effect_dir {held : Nat → Nat} {c c' : Conf} {E : Nat} (h : Inv c.dirs ix held c.kern free)
    (he : Effect ix c free c' free') (hE : E ∈ c.dirs) (i : Nat) : E ∈ c'.dirs ∧ DirStep c.kern.mem c'.kern.mem E i := by
  cases he with
  | refl => exact ⟨hE, Or.inl rfl⟩
  | alloc flags took =>
    rename_i p
    have hEp : E ≠ p := fun e => h.dir_free E hE (by rw [took, e]; exact List.mem_cons_self)
    refine ⟨hE, Or.inl ?_⟩
    dsimp only
    split
    · rw [Kern.pop_mem]
    · rw [Kern.clear_mem, Mem.clear_of_ne _ hEp, Kern.pop_mem]
  | free off => exact ⟨hE, Or.inl rfl⟩
  | newDir off empty => exact ⟨Finset.mem_insert_of_mem hE, Or.inl rfl⟩
  | walk dir idx walks => exact ⟨hE, dirStep_walkTo h.wf walks hE i⟩
  | map v dir idx walks =>
    obtain ⟨hwf, ht, _⟩ := h.wf.walkTo_wf dir idx walks
    exact ⟨hE, dirStep_table hwf (table_of_dir dir idx ht) hE (dirStep_walkTo h.wf walks hE i) _ _⟩
  | remap v dir idx table cleared =>
    refine ⟨hE, ?_⟩
    rw [Kern.write_mem, cleared, Mem.set_set]
    exact dirStep_table h.wf (table_of_dir dir idx table) hE (Or.inl rfl) _ _
  | unmap dir idx table entry =>
    refine ⟨hE, ?_⟩
    dsimp only
    rw [Kern.invlpg_mem, Kern.write_mem, Kern.dropRef_mem]
    exact dirStep_table h.wf (table_of_dir dir idx table) hE (Or.inl rfl) _ _

end

section
variable {own ix : Finset Nat} {held : Nat → Nat} {free : List Nat} {c c' : Conf} {E i : Nat}
  (hix : ∀ i < 955, i ∈ ix) (hown : ∀ D ∈ own, 0 < held D)
include hix hown

theorem run_dir {T : Nat} (hle : ∀ i ∈ ix, i < npdentries) (h : Inv c.dirs ix held c.kern free)
    (hr : Reach (fun c op => op.Valid own c ∧ op.Safe c) c c') (hE : E ∈ c.dirs)
    (ht : target (c.kern.mem E i) = some T) : E ∈ c'.dirs ∧ target (c'.kern.mem E i) = some T := by
  induction hr with
  | refl => exact ⟨hE, ht⟩
  | tail hr hst ih =>
    obtain ⟨hE', ht'⟩ := ih
    obtain ⟨free', h', _⟩ := run_inv hix hle hown (fun _ _ ho => ho) h hr
    obtain ⟨_, he, _, _⟩ := step_effect hix hle hown (fun _ _ ho => ho) h' hst
    obtain ⟨hE'', hd⟩ := effect_dir h' he hE' i
    refine ⟨hE'', ?_⟩
    rcases hd with hd | ⟨ho, _⟩
    · rw [hd]
      exact ht'
    · rw [ht'] at ho
      cases ho

end

/-! ## Beyond `UTOP` -/

/-- What an operation at `va` in directory `D` leaves at the addresses outside `ix`. -/
structure Beyond (dirs ix : Finset Nat) (D : Nat) (va : Word) (s : Kern) (m : Mem) : Prop where
  absent : ∀ E ∈ dirs, ∀ a, pdx a ∉ ix → target (s.mem E (pdx a)) = none → pte m E a = none
  /-- A table that is in use and none of the tables for `ix`, as those of the kernel are. -/
  table : ∀ E ∈ dirs, ∀ a U, pdx a ∉ ix → target (s.mem E (pdx a)) = some U → U ∉ dirs → U ∉ tables s.mem dirs ix →
    ¬ s.onFree U → pte m E a = pte s.mem E a
  /-- Where the entry refers to a directory, as at `UVPT`, the only change is that the page for `va` shows the new
  table. -/
  window : ∀ E ∈ dirs, ∀ a U, pdx a ∉ ix → target (s.mem E (pdx a)) = some U → U ∈ dirs →
    pte m E a = pte s.mem E a ∨ (U = D ∧ ptx a = pdx va ∧ pte s.mem E a = none ∧
      ∃ T, s.pageFreeList = some T ∧ pte m E a = some (page2pa T ||| tableFlags))

section
variable {dirs ix : Finset Nat} {s s' : Kern} {free free' : List Nat} {D T : Nat} {va : Word} {m : Mem}

theorem Beyond.of_mem (hD : D ∈ dirs) (hi : pdx va ∈ ix) (hTd : T ∉ dirs)
    (hT : T ∈ tables s.mem dirs ix ∨ s.onFree T)
    (hsame : ∀ U j, U ≠ T → (U, j) ≠ (D, pdx va) → m U j = s.mem U j)
    (hdir : m D (pdx va) = s.mem D (pdx va) ∨ (target (s.mem D (pdx va)) = none ∧ s.pageFreeList = some T ∧
      target (page2pa T ||| tableFlags) = some T ∧ m D (pdx va) = page2pa T ||| tableFlags)) :
    Beyond dirs ix D va s m := by
  have hE : ∀ E ∈ dirs, ∀ a, pdx a ∉ ix → m E (pdx a) = s.mem E (pdx a) := fun E hE a ha =>
    hsame E _ (fun e => hTd (e ▸ hE)) fun e => ha ((Prod.mk.inj e).2 ▸ hi)
  constructor
  · intro E hEd a ha ht
    rw [pte_none (by rw [hE E hEd a ha, ht])]
  · intro E hEd a U ha ht hUd hUt hUf
    have hUT : U ≠ T := fun e => hT.elim (e ▸ hUt) (e ▸ hUf)
    rw [pte_eq ht, pte_eq (by rw [hE E hEd a ha, ht]), hsame U _ hUT fun e => hUd ((Prod.mk.inj e).1 ▸ hD)]
  · intro E hEd a U ha ht hUd
    have hUT : U ≠ T := fun e => hTd (e ▸ hUd)
    rw [pte_eq ht, pte_eq (by rw [hE E hEd a ha, ht])]
    by_cases he : (U, ptx a) = (D, pdx va)
    · obtain ⟨rfl, hx⟩ := Prod.mk.inj he
      rw [hx]
      rcases hdir with hd | ⟨ho, hf, ht', hd⟩
      · exact Or.inl (by rw [hd])
      · exact Or.inr ⟨rfl, rfl, present_eq_none.mpr ho, T, hf, by rw [hd, present_of_target ht']⟩
    · exact Or.inl (by rw [hsame U _ hUT he])

theorem beyond_walkTo (h : Wf dirs ix s free) (hD : D ∈ dirs) (hi : pdx va ∈ ix) (hw : WalkTo D va s free T s' free')
    (hm : ∀ U j, U ≠ T → m U j = s'.mem U j) : Beyond dirs ix D va s m := by
  obtain ⟨hwf, ht, _⟩ := h.walkTo_wf hD hi hw
  have hTd := hwf.table_dir T (table_of_dir hD hi ht)
  have hDT : D ≠ T := fun e => hTd (e ▸ hD)
  rcases hw with ⟨ht', rfl, rfl⟩ | ⟨ho, rfl, rfl⟩
  · exact .of_mem hD hi hTd (Or.inl (table_of_dir hD hi ht')) (fun U j hU _ => hm U j hU) (Or.inl (hm D _ hDT))
  · have hlt := Nat.lt_of_lt_of_le (h.free_lt T List.mem_cons_self) h.npages_le
    refine .of_mem hD hi hTd (Or.inr (h.chain.linked_iff.mpr List.mem_cons_self)) (fun U j hU hne => ?_) (Or.inr ?_)
    · rw [hm U j hU, Kern.addTable, Kern.write_mem, Mem.set_of_ne _ hne, Kern.setRef_mem, Kern.clear_mem,
        Mem.clear_of_ne _ hU, Kern.pop_mem]
    · refine ⟨ho, h.head, target_table (by omega), ?_⟩
      rw [hm D _ hDT, Kern.addTable_dir hDT, if_pos rfl]

end

/-! ## Slots -/

theorem entry_kva_inj {T U i j : Nat} (hT : T < 65536) (hU : U < 65536) (hi : i < 1024) (hj : j < 1024)
    (h : entry (kva T) i = entry (kva U) j) : T = U ∧ i = j := by
  have := congrArg BitVec.toNat h
  rw [entry_kva_toNat hT hi, entry_kva_toNat hU hj] at this
  omega

section
variable {dirs ix : Finset Nat} {held : Nat → Nat} {s : Kern} {free : List Nat} {D E T U : Nat} {va vb : Word}

theorem slot_eq_iff (h : Inv dirs ix held s free) (hD : D ∈ dirs) (hE : E ∈ dirs) (ha : pdx va ∈ ix) (hb : pdx vb ∈ ix)
    (hT : target (s.mem D (pdx va)) = some T) (hU : target (s.mem E (pdx vb)) = some U) :
    entry (kva U) (ptx vb) = entry (kva T) (ptx va) ↔ E = D ∧ pgnum vb = pgnum va := by
  have hTl := h.table_lt' (table_of_dir hD ha hT)
  have hUl := h.table_lt' (table_of_dir hE hb hU)
  constructor
  · intro he
    obtain ⟨rfl, hx⟩ := entry_kva_inj hUl hTl (ptx_lt vb) (ptx_lt va) he
    obtain ⟨hED, hp⟩ := h.table_inj E hE D hD _ hb _ ha _ hU hT
    exact ⟨hED, (pgnum_eq_iff vb va).mpr ⟨hp, hx⟩⟩
  · rintro ⟨rfl, hg⟩
    obtain ⟨hp, hx⟩ := (pgnum_eq_iff vb va).mp hg
    rw [hp, hT, Option.some.injEq] at hU
    rw [hx, hU]

/-- What a walk that returns a slot has done: `T` is the table of `va`. -/
structure Walked (dirs ix : Finset Nat) (D : Nat) (va : Word) (s : Kern) (free : List Nat) (T : Nat) (s' : Kern) :
    Prop where
  table : target (s'.mem D (pdx va)) = some T
  /-- No translation changes, but that the table appears at `UVPT`. -/
  translation : ∀ E ∈ dirs, ∀ a, pdx a ∈ ix → s'.checkVa2pa (kva E) a = s.checkVa2pa (kva E) a
  beyond : Beyond dirs ix D va s s'.mem
  old : target (s.mem D (pdx va)) ≠ none → s' = s
  /-- A new table is the head of the free list, and the only page whose descriptor changes. -/
  new : target (s.mem D (pdx va)) = none → ∃ free', free = T :: free' ∧ Chain s'.link s'.pageFreeList free' ∧
    s'.ref T = 1 ∧ ∀ q, q ≠ T → s'.pages q = s.pages q

theorem walkTo_walked {s' : Kern} {free' : List Nat} (h : Inv dirs ix held s free) (hD : D ∈ dirs) (hi : pdx va ∈ ix)
    (hw : WalkTo D va s free T s' free') : Walked dirs ix D va s free T s' := by
  obtain ⟨hwf, ht, _⟩ := h.wf.walkTo_wf hD hi hw
  refine ⟨ht, fun E hE a ha => ?_, beyond_walkTo h.wf hD hi hw fun _ _ _ => rfl, fun hne => ?_, fun ho => ?_⟩
  · rw [hwf.checkVa2pa_eq hE ha, h.wf.checkVa2pa_eq hE ha, h.wf.pte_walkTo hD hw hE ha]
  · rcases hw with ⟨_, hs, _⟩ | ⟨ho, _, _⟩
    · exact hs
    · exact absurd ho hne
  · rcases hw with ⟨ht', _, _⟩ | ⟨_, hf, hs⟩
    · rw [ho] at ht'
      cases ht'
    · refine ⟨free', hf, hwf.chain, ?_, fun q hq => ?_⟩
      · have h0 := h.free_ref T (by rw [hf]; exact List.mem_cons_self)
        rw [hs, Kern.addTable, Kern.write_ref, Kern.setRef_ref, Function.update_self, h0]
        rfl
      · rw [hs]
        simp only [Kern.addTable, Kern.write, Kern.setRef, Kern.clear, Kern.pop, Kern.setLink, Function.update_of_ne hq]

theorem walk_slot_iff {create : Bool} {slot : Word} {t : Kern} (h : Inv dirs ix held s free) (hD : D ∈ dirs)
    (hE : E ∈ dirs) (ha : pdx va ∈ ix) (hb : pdx vb ∈ ix) (hT : target (s.mem D (pdx va)) = some T)
    (hx : s.pgdirWalk (kva E) vb create = .ok (some slot, t)) :
    slot = entry (kva T) (ptx va) ↔ E = D ∧ pgnum vb = pgnum va := by
  cases hu : target (s.mem E (pdx vb)) with
  | some U =>
    rw [h.wf.walk_present hE hb hu, Except.ok.injEq, Prod.mk.injEq, Option.some.injEq] at hx
    rw [← hx.1]
    exact slot_eq_iff h hD hE ha hb hT hu
  | none =>
    cases create with
    | false =>
      rw [Kern.pgdirWalk_absent (h.dir_lt E hE) hu, Except.ok.injEq, Prod.mk.injEq] at hx
      cases hx.1
    | true =>
      rcases h.wf.walk_create hE hb with ⟨_, _, hy⟩ | ⟨U, t', free', hw, hy⟩
      · rw [hy, Except.ok.injEq, Prod.mk.injEq] at hx
        cases hx.1
      · rw [hy, Except.ok.injEq, Prod.mk.injEq, Option.some.injEq] at hx
        obtain ⟨h', hu', _⟩ := h.walkTo_inv hE hb hw
        have hT' : target (t'.mem D (pdx va)) = some T := by
          rcases dirStep_walkTo h.wf hw hD (pdx va) with hd | ⟨ho, _⟩
          · rw [hd]
            exact hT
          · rw [hT] at ho
            cases ho
        rw [← hx.1]
        exact slot_eq_iff h' hD hE ha hb hT' hu'

theorem walkTo_slot {own : Finset Nat} {s' : Kern} {free' : List Nat} {c : Conf} (hix : ∀ i < 955, i ∈ ix)
    (hle : ∀ i ∈ ix, i < npdentries) (hown : ∀ D ∈ own, 0 < held D) (h : Inv dirs ix held s free) (hD : D ∈ dirs)
    (hva : va < utop) (hw : WalkTo D va s free T s' free')
    (hr : Reach (fun c op => op.Valid own c ∧ op.Safe c) ⟨dirs, s'⟩ c) :
    c.kern.pgdirWalk (kva D) va false = .ok (some (entry (kva T) (ptx va)), c.kern) ∧
    ∀ (E : Nat) (vb : Word) (create : Bool) (slot : Word) (t : Kern), E ∈ c.dirs → vb < utop →
      c.kern.pgdirWalk (kva E) vb create = .ok (some slot, t) →
      (slot = entry (kva T) (ptx va) ↔ E = D ∧ pgnum vb = pgnum va) := by
  have hi := hix _ (pdx_of_lt_utop hva)
  obtain ⟨h', ht, _⟩ := h.walkTo_inv hD hi hw
  obtain ⟨free₁, h₁, _⟩ := run_inv (c := ⟨dirs, s'⟩) hix hle hown (fun _ _ ho => ho) h' hr
  obtain ⟨hDc, htc⟩ := run_dir (c := ⟨dirs, s'⟩) hix hown hle h' hr hD ht
  refine ⟨h₁.wf.walk_present hDc hi htc false, fun E vb create slot t hE hvb hx => ?_⟩
  exact walk_slot_iff h₁ hDc hE hi (hix _ (pdx_of_lt_utop hvb)) htc hx

end

/-- **`pgdir_walk`**: when it answers NULL, and otherwise the slot of `va`, which no other page
of any directory has, now or later in a run. -/
theorem pgdirWalk_sound {dirs own ix : Finset Nat} {held : Nat → Nat} {s : Kern} {free : List Nat} {D : Nat} {va : Word}
    (h : Inv dirs ix held s free) (hix : ∀ i < 955, i ∈ ix) (hle : ∀ i ∈ ix, i < npdentries)
    (hown : ∀ D ∈ own, 0 < held D) (hD : D ∈ dirs) (hva : va < utop) (create : Bool) :
    ∃ r s', s.pgdirWalk (kva D) va create = .ok (r, s') ∧
      (r = none ↔ target (s.mem D (pdx va)) = none ∧ (create = false ∨ s.pageFreeList = none)) ∧
      (r = none → s' = s) ∧
      ∀ slot, r = some slot → ∃ T, slot = entry (kva T) (ptx va) ∧ Walked dirs ix D va s free T s' ∧
        ∀ c, Reach (fun c op => op.Valid own c ∧ op.Safe c) ⟨dirs, s'⟩ c →
          c.kern.pgdirWalk (kva D) va false = .ok (some slot, c.kern) ∧
          ∀ (E : Nat) (vb : Word) (create' : Bool) (slot' : Word) (t : Kern), E ∈ c.dirs → vb < utop →
            c.kern.pgdirWalk (kva E) vb create' = .ok (some slot', t) →
            (slot' = slot ↔ E = D ∧ pgnum vb = pgnum va) := by
  have hi := hix _ (pdx_of_lt_utop hva)
  have hlist : s.pageFreeList = none ↔ free = [] := by rw [h.head, List.head?_eq_none_iff]
  cases ht : target (s.mem D (pdx va)) with
  | some T =>
    have hw : WalkTo D va s free T s free := Or.inl ⟨ht, rfl, rfl⟩
    refine ⟨_, s, h.wf.walk_present hD hi ht create, ?_, fun _ => rfl, fun slot hslot => ?_⟩
    · exact iff_of_false (Option.some_ne_none _) fun hn => Option.some_ne_none _ hn.1
    · obtain rfl := Option.some.inj hslot
      exact ⟨T, rfl, walkTo_walked h hD hi hw, fun c hr => walkTo_slot hix hle hown h hD hva hw hr⟩
  | none =>
    cases create with
    | false =>
      refine ⟨none, s, Kern.pgdirWalk_absent (h.dir_lt D hD) ht, ?_, fun _ => rfl, fun slot hslot => ?_⟩
      · exact iff_of_true rfl ⟨rfl, Or.inl rfl⟩
      · cases hslot
    | true =>
      rcases h.wf.walk_create_absent hD ht with ⟨hf, he⟩ | ⟨T, t, hf, he⟩
      · refine ⟨none, s, he, ?_, fun _ => rfl, fun slot hslot => ?_⟩
        · exact iff_of_true rfl ⟨rfl, Or.inr (hlist.mpr hf)⟩
        · cases hslot
      · have hw : WalkTo D va s free T (s.addTable D T va) t := Or.inr ⟨ht, hf, rfl⟩
        refine ⟨_, _, he, ?_, fun hn => ?_, fun slot hslot => ?_⟩
        · refine iff_of_false (Option.some_ne_none _) ?_
          rintro ⟨_, hn | hn⟩
          · cases hn
          · rw [hlist.mp hn] at hf
            cases hf
        · cases hn
        · obtain rfl := Option.some.inj hslot
          exact ⟨T, rfl, walkTo_walked h hD hi hw, fun c hr => walkTo_slot hix hle hown h hD hva hw hr⟩

theorem pgdirWalk_sound_small : ∃ slot s', smallBoot.pgdirWalk (kva 398) 0 true = .ok (some slot, s') ∧
    s'.pgdirWalk (kva 398) 0 false = .ok (some slot, s') := by
  have hle : ∀ i ∈ userIx, i < npdentries := fun i hi => by
    have := mem_userIx.mp hi
    rw [npdentries]
    omega
  have h := smallBoot_inv userIx
  obtain ⟨r, s', he, hnull, _, hslot⟩ := pgdirWalk_sound h (fun _ hi => mem_userIx.mpr hi) hle
    (fun D (hD : D ∈ (∅ : Finset Nat)) => absurd hD (Finset.notMem_empty D)) (Finset.mem_singleton_self 398)
    (show (0 : Word) < utop by decide) true
  cases r with
  | none =>
    rcases (hnull.mp rfl).2 with hc | hf
    · cases hc
    · rw [h.head] at hf
      cases hf
  | some slot =>
    obtain ⟨_, _, _, hrun⟩ := hslot slot rfl
    exact ⟨slot, s', he, (hrun _ Relation.ReflTransGen.refl).1⟩

/-- `pgdir_walk(kern_pgdir, 0, 1)` maps the page at `UVPT`: there `check_va2pa` found nothing, and now the new table. -/
theorem pgdirWalk_shows_table : Inv {398} mapIx (bootRefs smallEnd) smallKern (511 :: initFree smallEnd 511) ∧
    SelfMapped 398 smallKern ∧ ∃ slot s', smallKern.pgdirWalk (kva 398) 0 true = .ok (some slot, s') ∧
      smallKern.checkVa2pa (kva 398) uvpt = .ok (~~~0) ∧ s'.checkVa2pa (kva 398) uvpt = .ok (page2pa 511) := by
  have h := smallKern_inv
  have hs := smallKern_selfMapped
  have hn : 398 < smallKern.npages := hs.dir_npages
  have h0 : target (smallKern.mem 398 (pdx 0)) = none := by
    rw [smallKern_start.zero (pdx 0) (pdx_lt 0) (by decide), target_zero]
  have hw := Kern.pgdirWalk_create hs.dir_lt h0 h.head (h.free_lt 511 List.mem_cons_self) (by decide)
  obtain ⟨_, hs'⟩ := hs.addTable h.head (h.free_lt 511 List.mem_cons_self) (show pdx 0 ≠ pdx uvpt by decide)
  refine ⟨h, hs, _, _, hw, ?_, ?_⟩
  · rw [Kern.checkVa2pa_table hs.dir_lt hs.target_uvpt hn hs.dir_lt]
    exact congrArg Except.ok (if_pos h0)
  · have ht : (smallKern.addTable 398 511 0).mem 398 (ptx uvpt) = page2pa 511 ||| tableFlags := by
      rw [Kern.addTable_dir (by decide), if_pos (by decide)]
    rw [Kern.checkVa2pa_table hs'.dir_lt hs'.target_uvpt hs'.dir_npages hs'.dir_lt, ht]
    rfl

end Jos
