import Jos.Lib.Paging
import Jos.Runs

/-!
# The page operations as a manager of pages

`view` forgets reference counts, lists and tables: what is left of a state is which
page each address below `UTOP` is mapped to, which pages are free, and which have uses
other than mappings. A run of the operations is a run of `Paging` between the views,
with the events that the callers see.
-/

namespace Jos

open IntrusiveList

variable {own : Finset Nat} {held : Nat → Nat} {free free' : List Nat} {c c' : Conf} {D T p q v : Nat} {va w : Word} {s' : Kern}

/-! ## Calls -/

namespace Op

def call (c : Conf) : Op → Except Panic (Paging.Event Nat Nat Nat Word × Conf)
  | .alloc flags => do
    let (r, k) ← c.kern.pageAlloc flags
    return (.alloc r, { c with kern := k })
  | .free p => do
    let k ← c.kern.pageFree p
    return (.free p, { c with kern := k })
  | .newDir D => return (.newSpace D, { c with dirs := Insert.insert D c.dirs })
  | .walk D va create => do
    let (_, k) ← c.kern.pgdirWalk (kva D) va create
    return (.walk D (pgnum va), { c with kern := k })
  | .insert D p va perm => do
    let (r, k) ← c.kern.pageInsert (kva D) p va perm
    return (.insert D (pgnum va) p (perm ||| pteP) (r = 0), { c with kern := k })
  | .remove D va => do
    let k ← c.kern.pageRemove (kva D) va
    return (.remove D (pgnum va), { c with kern := k })

theorem exec_call (c : Conf) (op : Op) : op.exec c = (op.call c).map Prod.snd := by
  cases op with
  | alloc flags =>
    rw [exec, call]
    cases c.kern.pageAlloc flags <;> rfl
  | free p =>
    rw [exec, call]
    cases c.kern.pageFree p <;> rfl
  | newDir D => rfl
  | walk D va create =>
    rw [exec, call]
    cases c.kern.pgdirWalk (kva D) va create <;> rfl
  | insert D p va perm =>
    rw [exec, call]
    cases c.kern.pageInsert (kva D) p va perm <;> rfl
  | remove D va =>
    rw [exec, call]
    cases c.kern.pageRemove (kva D) va <;> rfl

end Op

inductive Calls (ok : Conf → Op → Prop) : Conf → List (Paging.Event Nat Nat Nat Word) → Conf → Prop
  | nil {c₀ : Conf} : Calls ok c₀ [] c₀
  | snoc {c₀ c₁ c₂ : Conf} {tr : List (Paging.Event Nat Nat Nat Word)} {op : Op} {e : Paging.Event Nat Nat Nat Word} :
      Calls ok c₀ tr c₁ → ok c₁ op → op.call c₁ = .ok (e, c₂) → Calls ok c₀ (tr ++ [e]) c₂

theorem reach_iff_calls {ok : Conf → Op → Prop} : Reach ok c c' ↔ ∃ tr, Calls ok c tr c' := by
  constructor
  · intro h
    induction h with
    | refl => exact ⟨[], .nil⟩
    | tail _ hs ih =>
      obtain ⟨tr, hr⟩ := ih
      obtain ⟨op, ho, he⟩ := hs
      rw [op.exec_call] at he
      cases hc : op.call _ with
      | error e =>
        rw [hc] at he
        cases he
      | ok x =>
        rw [hc] at he
        cases he
        exact ⟨_, hr.snoc ho hc⟩
  · rintro ⟨tr, h⟩
    induction h with
    | nil => exact .refl
    | snoc _ ho hc ih => exact ih.tail ⟨_, ho, by rw [Op.exec_call, hc]; rfl⟩

/-! ## The view -/

def pageOf (w : Word) : Nat × Word := (pgnum w, pgoff w)

def view (held : Nat → Nat) (c : Conf) : Paging.State Nat Nat Nat Word where
  map D v := if D ∈ c.dirs ∧ v < pgnum utop then (pte c.kern.mem D (page2pa v)).map pageOf else none
  free := { p | c.kern.onFree p }
  uses p := held p + if p ∈ tables c.kern.mem c.dirs userIx then 1 else 0

theorem pte_congr {m : Mem} {a : Word} (h : pgnum a = pgnum va) : pte m D a = pte m D va := by
  obtain ⟨hd, hx⟩ := (pgnum_eq_iff a va).mp h
  rw [pte, pte, hd, hx]

theorem pgnum_lt_utop (h : va < utop) : pgnum va < pgnum utop := by
  rw [BitVec.lt_def, utop_toNat] at h
  rw [pgnum_eq, pgnum_eq, utop_toNat]
  omega

theorem view_map (hD : D ∈ c.dirs) (h : va < utop) :
    (view held c).map D (pgnum va) = (pte c.kern.mem D va).map pageOf := by
  show (if D ∈ c.dirs ∧ pgnum va < pgnum utop then _ else _) = _
  rw [if_pos ⟨hD, pgnum_lt_utop h⟩, pte_congr (pgnum_page2pa (pgnum_lt va))]

theorem page2pa_user (h : v < pgnum utop) : pdx (page2pa v) ∈ userIx ∧ pgnum (page2pa v) = v := by
  have hu : pgnum utop = 977920 := rfl
  rw [mem_userIx, pdx_page2pa (by omega), pgnum_page2pa (by omega)]
  omega

section
variable (h : Inv c.dirs userIx held c.kern free)
include h

theorem mem_view_free : p ∈ (view held c).free ↔ p ∈ free := h.chain.linked_iff

omit h in
theorem maps_view_iff : Paging.Maps (view held c).map p ↔ ∃ T ∈ tables c.kern.mem c.dirs userIx, ∃ j < nptentries,
    target (c.kern.mem T j) = some p := by
  constructor
  · rintro ⟨D, v, f, hm⟩
    change (if D ∈ c.dirs ∧ v < pgnum utop then _ else _) = _ at hm
    split at hm
    · rename_i hc
      obtain ⟨w, hw, he⟩ := Option.map_eq_some_iff.mp hm
      cases he
      have hx : mapped c.kern.mem D (page2pa v) = some (pgnum w) := by rw [mapped_eq_pte, hw, Option.map_some]
      obtain ⟨T, hT, hq⟩ := mapped_eq_some.mp hx
      exact ⟨T, table_of_dir hc.1 (page2pa_user hc.2).1 hT, _, ptx_lt _, hq⟩
    · cases hm
  · rintro ⟨T, hT, j, hj, hq⟩
    obtain ⟨D, hD, i, hi, ht⟩ := mem_tables.mp hT
    have hi := mem_userIx.mp hi
    have hva : pgaddr i j 0 < utop := by
      rw [BitVec.lt_def, utop_toNat, pgaddr_zero_toNat (by omega) hj]
      rw [nptentries] at hj
      omega
    have hpte : pte c.kern.mem D (pgaddr i j 0) = some (c.kern.mem T j) := by
      rw [pte_eq (T := T) (by rw [pdx_pgaddr (by omega) hj]; exact ht), ptx_pgaddr (by omega) hj, present_of_target hq]
    refine ⟨D, pgnum (pgaddr i j 0), pgoff (c.kern.mem T j), ?_⟩
    rw [view_map hD hva, hpte, Option.map_some, pageOf, (target_eq_some.mp hq).2]

omit h in
theorem refs_pos_iff : 0 < refs c.kern.mem c.dirs userIx p ↔
    p ∈ tables c.kern.mem c.dirs userIx ∨ Paging.Maps (view held c).map p := by
  rw [maps_view_iff, refs_pos]
  constructor
  · rintro ⟨⟨q, j⟩, hx, ht⟩
    rcases mem_slots.mp hx with ⟨hq, hj⟩ | ⟨hq, hj⟩
    · exact Or.inl (mem_tables.mpr ⟨q, hq, j, hj, ht⟩)
    · exact Or.inr ⟨q, hq, j, hj, ht⟩
  · rintro (ht | ⟨T, hT, j, hj, hq⟩)
    · exact refs_pos.mp (refs_table ht)
    · exact refs_pos.mp (refs_entry hT hj hq)

theorem ref_eq_zero_iff (hp : p < c.kern.npages) :
    c.kern.ref p = 0 ↔ ¬ Paging.Maps (view held c).map p ∧ (view held c).uses p = 0 := by
  have h0 : c.kern.ref p = 0 ↔ (c.kern.ref p).toNat = 0 := by
    rw [← BitVec.toNat_inj]
    rfl
  have hrefs : 0 < refs c.kern.mem c.dirs userIx p ↔
      p ∈ tables c.kern.mem c.dirs userIx ∨ Paging.Maps (view held c).map p := refs_pos_iff
  show _ ↔ _ ∧ held p + (if p ∈ tables c.kern.mem c.dirs userIx then 1 else 0) = 0
  rw [h0, h.refs_eq p hp]
  by_cases ht : p ∈ tables c.kern.mem c.dirs userIx
  · rw [if_pos ht]
    have := refs_table ht
    omega
  · rw [if_neg ht]
    by_cases hm : Paging.Maps (view held c).map p
    · have := hrefs.mpr (Or.inr hm)
      simp only [hm, not_true_eq_false, false_and, iff_false]
      omega
    · have : refs c.kern.mem c.dirs userIx p = 0 := Nat.eq_zero_of_not_pos fun hp => (hrefs.mp hp).elim ht hm
      simp only [hm, not_false_eq_true, true_and]
      omega

/-! ## What the steps do to the view -/

omit h in
theorem view_map_eq {k : Kern} (hpte : ∀ E ∈ c.dirs, ∀ a, pdx a ∈ userIx → pte k.mem E a = pte c.kern.mem E a) :
    (view held { c with kern := k }).map = (view held c).map := by
  funext D v
  show (if D ∈ c.dirs ∧ v < pgnum utop then _ else _) = (if D ∈ c.dirs ∧ v < pgnum utop then _ else _)
  split
  · rename_i hc
    rw [hpte D hc.1 _ (page2pa_user hc.2).1]
  · rfl

omit h in
theorem view_uses_eq {k : Kern} (ht : tables k.mem c.dirs userIx = tables c.kern.mem c.dirs userIx) :
    (view held { c with kern := k }).uses = (view held c).uses := by
  funext q
  show held q + (if q ∈ tables k.mem c.dirs userIx then 1 else 0) = _
  rw [ht]
  rfl

theorem view_walk {s' : Kern} (hD : D ∈ c.dirs) (hi : pdx va ∈ userIx) (hw : WalkTo D va c.kern free T s' free') :
    ∃ t, (∀ q, t = some q → q ∈ (view held c).free) ∧ view held { c with kern := s' } = (view held c).take t := by
  obtain ⟨h', _⟩ := h.walkTo_inv hD hi hw
  have hmap : (view held { c with kern := s' }).map = (view held c).map :=
    view_map_eq fun E hE a ha => h.wf.pte_walkTo hD hw hE ha
  rcases hw with ⟨_, rfl, rfl⟩ | ⟨ho, rfl, rfl⟩
  · exact ⟨none, fun q hq => (Option.some_ne_none q hq.symm).elim, (Paging.State.take_none _).symm⟩
  · have hT : T ∉ tables c.kern.mem c.dirs userIx := fun hT => h.table_free hT List.mem_cons_self
    have hn := List.nodup_cons.mp h.chain.nodup
    refine ⟨some T, fun q hq => ?_, ?_⟩
    · cases hq
      exact (mem_view_free h).mpr List.mem_cons_self
    · apply Paging.State.ext
      · exact hmap
      · ext q
        show (c.kern.addTable D T va).onFree q ↔ q ∈ (view held c).free ∧ some T ≠ some q
        rw [mem_view_free h, List.mem_cons]
        refine h'.chain.linked_iff.trans ⟨fun hq => ⟨Or.inr hq, fun e => hn.1 (Option.some.inj e ▸ hq)⟩, ?_⟩
        rintro ⟨rfl | hq, hne⟩
        · exact absurd rfl hne
        · exact hq
      · funext q
        show held q + (if q ∈ tables (c.kern.addTable D T va).mem c.dirs userIx then 1 else 0) =
          held q + (if q ∈ tables c.kern.mem c.dirs userIx then 1 else 0) + if some T = some q then 1 else 0
        rw [h.wf.tables_addTable hD hi ho]
        by_cases hq : T = q
        · subst hq
          rw [if_pos (Finset.mem_insert_self ..), if_neg hT, if_pos rfl]
        · have hq' : some T ≠ some q := fun e => hq (Option.some.inj e)
          simp only [Finset.mem_insert, Ne.symm hq, false_or, if_neg hq', Nat.add_zero]

theorem view_put {k : Kern} (hD : D ∈ c.dirs) (hva : va < utop) (ht : target (c.kern.mem D (pdx va)) = some T)
    (hm : k.mem = c.kern.mem.set T (ptx va) w) (h' : Inv c.dirs userIx held k free') (hn : k.npages = c.kern.npages)
    (hf : ∀ q, q ∈ free' ↔ q ∈ free ∨ (mapped c.kern.mem D va = some q ∧ k.ref q = 0)) :
    view held { c with kern := k } = (view held c).put D (pgnum va) ((present w).map pageOf) := by
  have hi : pdx va ∈ userIx := mem_userIx.mpr (pdx_of_lt_utop hva)
  have hT := table_of_dir hD hi ht
  have hmap : (view held { c with kern := k }).map = Paging.set (view held c).map D (pgnum va) ((present w).map pageOf) := by
    funext E v
    by_cases he : E = D ∧ v = pgnum va
    · obtain ⟨rfl, rfl⟩ := he
      rw [Paging.set_self, view_map (c := { c with kern := k }) hD hva]
      show (pte k.mem E va).map pageOf = _
      rw [hm, h.wf.pte_write hD hi ht w hD hi, if_pos ⟨rfl, rfl⟩]
    · rw [Paging.set_of_ne _ _ he]
      show (if E ∈ c.dirs ∧ v < pgnum utop then _ else _) = (if E ∈ c.dirs ∧ v < pgnum utop then _ else _)
      split
      · rename_i hc
        obtain ⟨hu, hg⟩ := page2pa_user hc.2
        show (pte k.mem E (page2pa v)).map pageOf = _
        rw [hm, h.wf.pte_write hD hi ht w hc.1 hu, hg, if_neg he]
      · rfl
  have huses : (view held { c with kern := k }).uses = (view held c).uses :=
    view_uses_eq (by rw [hm, tables_set_entry (h.table_dir T hT)])
  apply Paging.State.ext
  · exact hmap
  · ext q
    show k.onFree q ↔ q ∈ (view held c).free ∨ ((∃ f, (view held c).map D (pgnum va) = some (q, f)) ∧
      ¬ Paging.Maps (Paging.set (view held c).map D (pgnum va) ((present w).map pageOf)) q ∧ (view held c).uses q = 0)
    rw [mem_view_free h, ← hmap, ← huses]
    refine h'.chain.linked_iff.trans ((hf q).trans (or_congr_right ?_))
    have hold : mapped c.kern.mem D va = some q ↔ ∃ f, (view held c).map D (pgnum va) = some (q, f) := by
      rw [view_map hD hva, mapped_eq_pte]
      cases pte c.kern.mem D va with
      | none => simp
      | some x => simp [pageOf]
    rw [← hold]
    refine and_congr_right fun hq => ref_eq_zero_iff (c := { c with kern := k }) h' ?_
    obtain ⟨U, hU, hq⟩ := mapped_eq_some.mp hq
    show q < k.npages
    rw [hn]
    exact h.entry_lt U (table_of_dir hD hi hU) _ (ptx_lt va) q hq
  · exact huses

omit h in
theorem mem_dropFree {s : Kern} : p ∈ Inv.dropFree s free q ↔ p ∈ free ∨ (q = p ∧ (s.dropRef q).ref p = 0) := by
  rw [Kern.dropRef_ref, Inv.dropFree]
  by_cases hz : s.ref q - 1 = 0
  · rw [if_pos hz, List.mem_cons]
    constructor
    · rintro (rfl | hp)
      · exact Or.inr ⟨rfl, by rw [Function.update_self, hz]⟩
      · exact Or.inl hp
    · rintro (hp | ⟨rfl, _⟩)
      · exact Or.inr hp
      · exact Or.inl rfl
  · rw [if_neg hz]
    refine ⟨Or.inl, ?_⟩
    rintro (hp | ⟨rfl, hr⟩)
    · exact hp
    · rw [Function.update_self] at hr
      exact absurd hr hz

theorem view_remove (hD : D ∈ c.dirs) (hva : va < utop) (hs : Op.Removable c.kern D va) :
    ∃ k, c.kern.pageRemove (kva D) va = .ok k ∧ (∃ free', Inv c.dirs userIx held k free') ∧
      view held { c with kern := k } = (view held c).put D (pgnum va) none := by
  have hi : pdx va ∈ userIx := mem_userIx.mpr (pdx_of_lt_utop hva)
  cases ht : target (c.kern.mem D (pdx va)) with
  | none =>
    have hm : (view held c).map D (pgnum va) = none := by rw [view_map hD hva, pte_none ht, Option.map_none]
    exact ⟨_, h.remove_absent hD ht, ⟨free, h⟩, (Paging.State.put_none hm).symm⟩
  | some T =>
    have hq : mapped c.kern.mem D va ≠ none := hs.resolve_left (by rw [ht]; exact Option.some_ne_none T)
    rw [mapped_eq ht] at hq
    obtain ⟨q, hq⟩ := Option.ne_none_iff_exists'.mp hq
    obtain ⟨he, h'⟩ := h.remove_mapped hD hi ht hq
    refine ⟨_, he, ⟨_, h'⟩, ?_⟩
    refine (view_put (w := 0) h hD hva ht ?_ h' ?_ fun x => ?_).trans (by rw [present_zero, Option.map_none])
    · rw [Kern.invlpg_mem, Kern.write_mem, Kern.dropRef_mem]
    · rw [Kern.invlpg_npages, Kern.write_npages, Kern.dropRef_npages]
    · rw [mem_dropFree, mapped_eq ht, hq, Kern.invlpg_ref, Kern.write_ref, Option.some.injEq]

section
variable {perm : Word} (hD : D ∈ c.dirs) (hva : va < utop) (hp : p < c.kern.npages) (hf : p ∉ free)
  (hperm : perm.toNat < 4096) (hd : p ∈ c.dirs → 0 < held p)
include hD hva hp hf hperm hd

omit hD hva hf hd in
theorem present_pte : (present (page2pa p ||| perm ||| pteP)).map pageOf = some (p, perm ||| pteP) := by
  have := h.npages_le
  have hlt := or_flags_lt hperm (show pteP.toNat < 4096 by decide)
  have ht := h.target_perm' hp hperm
  have hg : pgoff (page2pa p ||| perm ||| pteP) = perm ||| pteP := by
    apply BitVec.eq_of_toNat_eq
    rw [pgoff_toNat, BitVec.or_assoc, or_flags_toNat (page2pa_aligned p) hlt, Nat.add_mod, page2pa_aligned, Nat.zero_add,
      Nat.mod_mod, Nat.mod_eq_of_lt hlt]
  rw [present_of_target ht, Option.map_some, pageOf, (target_eq_some.mp ht).2, hg]

theorem view_insert_old (ht : target (c.kern.mem D (pdx va)) = some T) (hq : target (c.kern.mem T (ptx va)) = some q)
    (hr : (c.kern.ref p).toNat < 65535 ∨ q = p) : ∃ k, c.kern.pageInsert (kva D) p va perm = .ok (0, k) ∧
      (∃ free', Inv c.dirs userIx held k free') ∧
      view held { c with kern := k } = (view held c).put D (pgnum va) (some (p, perm ||| pteP)) := by
  have hi : pdx va ∈ userIx := mem_userIx.mpr (pdx_of_lt_utop hva)
  rw [← present_pte h hp hperm]
  by_cases hqp : q = p
  · subst hqp
    obtain ⟨he, h'⟩ := h.insert_same hD hi hp hperm hd ht hq
    refine ⟨_, he, ⟨_, h'⟩, view_put h hD hva ht ?_ h' rfl fun x => ?_⟩
    · rw [Kern.write_mem, Kern.invlpg_mem, Kern.write_mem, Mem.set_set]
    · rw [Kern.write_ref, Kern.invlpg_ref, Kern.write_ref, mapped_eq ht, hq]
      refine ⟨Or.inl, ?_⟩
      rintro (hx | ⟨hx, h0⟩)
      · exact hx
      · cases hx
        exact absurd h0 (h.ref_ne_zero hp (Nat.lt_of_lt_of_le (refs_entry (table_of_dir hD hi ht) (ptx_lt va) hq)
          (Nat.le_add_left ..)))
  · obtain ⟨he, h'⟩ := h.insert_replace hD hi hp hperm hd ht hq hf (hr.resolve_right hqp)
    refine ⟨_, he, ⟨_, h'⟩, view_put h hD hva ht ?_ h' ?_ fun x => ?_⟩
    · rw [Kern.write_mem, Kern.invlpg_mem, Kern.write_mem, Kern.dropRef_mem, Kern.setRef_mem, Mem.set_set]
    · rw [Kern.write_npages, Kern.invlpg_npages, Kern.write_npages, Kern.dropRef_npages, Kern.setRef_npages]
    · rw [mem_dropFree, mapped_eq ht, hq, Kern.write_ref, Kern.invlpg_ref, Kern.write_ref, Option.some.injEq]

theorem view_insert (hs : Op.Room c.kern D p va) : ∃ r k, c.kern.pageInsert (kva D) p va perm = .ok (r, k) ∧
    (∃ free', Inv c.dirs userIx held k free') ∧
    Paging.Step (view held c) (.insert D (pgnum va) p (perm ||| pteP) (r = 0)) (view held { c with kern := k }) := by
  have hi : pdx va ∈ userIx := mem_userIx.mpr (pdx_of_lt_utop hva)
  have hpf : p ∉ (view held c).free := fun hx => hf ((mem_view_free h).mp hx)
  rcases h.wf.walk_create hD hi with ⟨ht, hnil, he⟩ | ⟨T, s', free', hw, he⟩
  · refine ⟨_, _, Kern.pageInsert_noMem he, ⟨free, h⟩, ?_⟩
    refine Paging.Step.insertFail (Set.eq_empty_of_forall_notMem fun x hx => ?_)
    rw [mem_view_free h, hnil] at hx
    cases hx
  obtain ⟨h', ht, hn⟩ := h.walkTo_inv hD hi hw
  cases hq : target (s'.mem T (ptx va)) with
  | none =>
    have hr : (c.kern.ref p).toNat < 65535 := by
      rcases hs with hr | hr | ⟨hr, hnil⟩
      · exact hr
      · rw [← h.wf.walkTo_mapped hD hi hw, mapped_eq ht, hq] at hr
        cases hr
      · rcases hw with ⟨ht, _, _⟩ | ⟨_, hc, _⟩
        · rw [hr] at ht
          cases ht
        · have hh := h.head
          rw [hnil, hc] at hh
          cases hh
    obtain ⟨he', h''⟩ := h.insert_fresh hD hi hp hf hperm hd hw hq hr he
    obtain ⟨t, ht', hv⟩ := view_walk h hD hi hw
    refine ⟨_, _, he', ⟨_, h''⟩, ?_⟩
    have hput := view_put (c := { c with kern := s' }) h' hD hva ht (by rw [Kern.write_mem, Kern.setRef_mem]) h'' rfl
      fun x => by
        rw [mapped_eq ht, hq]
        simp
    rw [present_pte h hp hperm, hv] at hput
    exact hput ▸ Paging.Step.insert ht' hpf
  | some q =>
    have hm : mapped c.kern.mem D va = some q := by rw [← h.wf.walkTo_mapped hD hi hw, mapped_eq ht, hq]
    obtain ⟨U, hU, hq⟩ := mapped_eq_some.mp hm
    have hr : (c.kern.ref p).toNat < 65535 ∨ q = p := by
      rcases hs with hr | hr | ⟨hr, _⟩
      · exact Or.inl hr
      · rw [hm] at hr
        exact Or.inr (Option.some.inj hr)
      · rw [hr] at hU
        cases hU
    obtain ⟨k, he', h'', hv⟩ := view_insert_old h hD hva hp hf hperm hd hU hq hr
    refine ⟨_, k, he', h'', ?_⟩
    rw [hv]
    have hins := Paging.Step.insert (s := view held c) (d := D) (v := pgnum va) (p := p) (f := perm ||| pteP) (t := none)
      (fun q hq => (Option.some_ne_none q hq.symm).elim) hpf
    rwa [Paging.State.take_none] at hins

end

theorem view_alloc (flags : Word) : ∃ r k, c.kern.pageAlloc flags = .ok (r, k) ∧ (∃ free', Inv c.dirs userIx held k free') ∧
    Paging.Step (view held c) (.alloc r) (view held { c with kern := k }) := by
  cases free with
  | nil =>
    refine ⟨_, _, h.alloc_nil flags, ⟨[], h⟩, .allocNone (Set.eq_empty_of_forall_notMem fun x hx => ?_)⟩
    rw [mem_view_free h] at hx
    cases hx
  | cons p free =>
    have h' := h.alloc_inv flags
    have hp : p ∉ c.dirs := fun hm => h.dir_free p hm List.mem_cons_self
    have hT : p ∉ tables c.kern.mem c.dirs userIx := fun hm => h.table_free hm List.mem_cons_self
    have hne := (List.nodup_cons.mp h.chain.nodup).1
    refine ⟨_, _, h.alloc_cons flags, ⟨free, h'⟩, ?_⟩
    have hmem : ∀ q, q ≠ p → (if flags = 0 then c.kern.pop p else (c.kern.pop p).clear p).mem q = c.kern.mem q := by
      intro q hq
      split
      · rw [Kern.pop_mem]
      · rw [Kern.clear_mem, Kern.pop_mem]
        exact funext fun j => Mem.clear_of_ne _ hq j
    have hdir : ∀ E ∈ c.dirs, ∀ i, (if flags = 0 then c.kern.pop p else (c.kern.pop p).clear p).mem E i = c.kern.mem E i :=
      fun E hE i => congrFun (hmem E fun e => hp (e ▸ hE)) i
    have hv : view held { c with kern := if flags = 0 then c.kern.pop p else (c.kern.pop p).clear p } =
        { view held c with free := { q | q ∈ (view held c).free ∧ q ≠ p } } := by
      apply Paging.State.ext
      · refine view_map_eq fun E hE a ha => ?_
        cases ht : target (c.kern.mem E (pdx a)) with
        | none => rw [pte_none ht, pte_none (by rw [hdir E hE, ht])]
        | some U =>
          rw [pte_eq ht, pte_eq (T := U) (by rw [hdir E hE, ht]), hmem U fun e => hT (e ▸ table_of_dir hE ha ht)]
      · ext q
        refine h'.chain.linked_iff.trans ?_
        show _ ↔ q ∈ (view held c).free ∧ q ≠ p
        rw [mem_view_free h, List.mem_cons]
        constructor
        · exact fun hq => ⟨Or.inr hq, fun e => hne (e ▸ hq)⟩
        · rintro ⟨hq, hqp⟩
          exact hq.resolve_left hqp
      · exact view_uses_eq (tables_congr fun E hE i _ => by rw [hdir E hE])
    rw [hv]
    exact .alloc ((mem_view_free h).mpr List.mem_cons_self)

omit h in
theorem view_newDir (hz : ∀ i < npdentries, c.kern.mem D i = 0) :
    Paging.Step (view held c) (.newSpace D) (view held { c with dirs := insert D c.dirs }) := by
  have ht : ∀ i ∈ userIx, target (c.kern.mem D i) = none := fun i hi => by
    rw [hz i (by have := mem_userIx.mp hi; rw [npdentries]; omega), target_zero]
  have hpte : ∀ v, v < pgnum utop → pte c.kern.mem D (page2pa v) = none := fun v hv => pte_none (ht _ (page2pa_user hv).1)
  have hnone : ∀ v, (view held c).map D v = none := by
    intro v
    show (if D ∈ c.dirs ∧ v < pgnum utop then _ else _) = _
    split
    · rename_i hc
      rw [hpte v hc.2, Option.map_none]
    · rfl
  have hv : view held { c with dirs := insert D c.dirs } = view held c := by
    apply Paging.State.ext
    · funext E v
      by_cases he : E = D
      · subst he
        rw [hnone]
        show (if E ∈ insert E c.dirs ∧ v < pgnum utop then _ else _) = _
        split
        · rename_i hc
          rw [hpte v hc.2, Option.map_none]
        · rfl
      · show (if E ∈ insert D c.dirs ∧ v < pgnum utop then _ else _) = (if E ∈ c.dirs ∧ v < pgnum utop then _ else _)
        simp only [Finset.mem_insert, he, false_or]
    · rfl
    · funext q
      have htab : tables c.kern.mem (insert D c.dirs) userIx = tables c.kern.mem c.dirs userIx := by
        ext U
        rw [mem_tables, mem_tables]
        constructor
        · rintro ⟨E, hE, i, hi, hU⟩
          rcases Finset.mem_insert.mp hE with rfl | hE
          · rw [ht i hi] at hU
            cases hU
          · exact ⟨E, hE, i, hi, hU⟩
        · rintro ⟨E, hE, i, hi, hU⟩
          exact ⟨E, Finset.mem_insert_of_mem hE, i, hi, hU⟩
      show held q + (if q ∈ tables c.kern.mem (insert D c.dirs) userIx then 1 else 0) = _
      rw [htab]
      rfl
  rw [hv]
  exact .newSpace hnone

theorem call_step {op : Op} {e : Paging.Event Nat Nat Nat Word} (hown : ∀ D ∈ own, 0 < held D) (hv : op.Valid own c)
    (hs : op.Safe c) (hc : op.call c = .ok (e, c')) :
    Paging.Step (view held c) e (view held c') ∧ ∃ free', Inv c'.dirs userIx held c'.kern free' := by
  have hfree : ∀ p, c.kern.onFree p ↔ p ∈ free := fun p => h.chain.linked_iff
  cases op with
  | alloc flags =>
    obtain ⟨r, k, he, h', hst⟩ := view_alloc h flags
    rw [Op.call, he] at hc
    cases hc
    exact ⟨hst, h'⟩
  | free p =>
    obtain ⟨hp, hr, hf, hd⟩ := hv
    have hpf := (hfree p).not.mp hf
    rw [Op.call, h.free_ok hp hpf hr] at hc
    cases hc
    have h' := h.push hp hpf hr hd
    obtain ⟨hm, hu⟩ := (ref_eq_zero_iff h hp).mp hr
    have hv : view held { c with kern := c.kern.push p } =
        { view held c with free := { q | q ∈ (view held c).free ∨ q = p } } := by
      apply Paging.State.ext
      · rfl
      · ext q
        refine h'.chain.linked_iff.trans ?_
        show _ ↔ q ∈ (view held c).free ∨ q = p
        rw [mem_view_free h, List.mem_cons, or_comm]
      · rfl
    refine ⟨?_, _, h'⟩
    rw [hv]
    exact .free hf hm hu
  | newDir D =>
    obtain ⟨c'', free', he, _, h', _⟩ := exec_effect (fun _ hx => mem_userIx.mpr hx)
      (fun i hi => by have := mem_userIx.mp hi; rw [npdentries]; omega) hown h (.newDir D) hv hs
    cases hc
    cases he
    exact ⟨view_newDir hv.2.2.2, free', h'⟩
  | walk D va create =>
    obtain ⟨hD, hva⟩ := hv
    have hi : pdx va ∈ userIx := mem_userIx.mpr (pdx_of_lt_utop hva)
    have hsame : Paging.Step (view held c) (.walk D (pgnum va)) (view held c) := by
      have hw := Paging.Step.walk (s := view held c) (d := D) (v := pgnum va) (t := none)
        fun p hp => (Option.some_ne_none p hp.symm).elim
      rwa [Paging.State.take_none] at hw
    cases create with
    | false =>
      cases ht : target (c.kern.mem D (pdx va)) with
      | none =>
        rw [Op.call, Kern.pgdirWalk_absent (h.dir_lt D hD) ht] at hc
        cases hc
        exact ⟨hsame, free, h⟩
      | some T =>
        rw [Op.call, h.wf.walk_present hD hi ht false] at hc
        cases hc
        exact ⟨hsame, free, h⟩
    | true =>
      rcases h.wf.walk_create hD hi with ⟨_, _, he⟩ | ⟨T, s', free', hw, he⟩
      · rw [Op.call, he] at hc
        cases hc
        exact ⟨hsame, free, h⟩
      · rw [Op.call, he] at hc
        cases hc
        obtain ⟨t, ht, hv⟩ := view_walk h hD hi hw
        refine ⟨?_, free', (h.walkTo_inv hD hi hw).1⟩
        rw [hv]
        exact .walk ht
  | insert D p va perm =>
    obtain ⟨hD, hva, hp, hf, hd⟩ := hv
    obtain ⟨hperm, hroom⟩ := hs
    obtain ⟨r, k, he, h', hst⟩ := view_insert h hD hva hp ((hfree p).not.mp hf) hperm (fun hpd => hown p (hd hpd)) hroom
    rw [Op.call, he] at hc
    cases hc
    exact ⟨hst, h'⟩
  | remove D va =>
    obtain ⟨hD, hva⟩ := hv
    obtain ⟨k, he, h', hv⟩ := view_remove h hD hva hs
    rw [Op.call, he] at hc
    cases hc
    refine ⟨?_, h'⟩
    rw [hv]
    exact .remove

theorem view_sound : (view held c).Sound where
  mapped p hp := by
    rw [mem_view_free h] at hp
    exact ((ref_eq_zero_iff h (h.free_lt p hp)).mp (h.free_ref p hp)).1
  uses p hp := by
    rw [mem_view_free h] at hp
    exact ((ref_eq_zero_iff h (h.free_lt p hp)).mp (h.free_ref p hp)).2

end

/-! ## A few calls -/

theorem RoundTrip.calls {k₁ k₂ k₃ : Kern} {perm : Word} (ok : Conf → Op → Prop) (h : RoundTrip c D p va perm k₁ k₂ k₃)
    (hok : ∀ c op, op.Valid ∅ c ∧ op.AtMapped c ∧ op.InsertFits c → ok c op) :
    Calls ok c [.alloc (some p), .insert D (pgnum va) p (perm ||| pteP) true, .remove D (pgnum va)] ⟨c.dirs, k₃⟩ := by
  have ha : Calls ok c [.alloc (some p)] ⟨c.dirs, k₁⟩ := by
    refine Calls.nil.snoc (hok _ (.alloc 0) ⟨trivial, trivial, trivial⟩) ?_
    rw [Op.call, h.alloc]
    rfl
  have hi : Calls ok c [.alloc (some p), .insert D (pgnum va) p (perm ||| pteP) true] ⟨c.dirs, k₂⟩ := by
    refine ha.snoc (hok _ (.insert D p va perm) ⟨h.canInsert.1, trivial, h.canInsert.2⟩) ?_
    rw [Op.call, h.insert]
    rfl
  refine hi.snoc (hok _ (.remove D va) ⟨h.canRemove.1, h.canRemove.2, trivial⟩) ?_
  rw [Op.call, h.remove]
  rfl

def smallCalls : List (Paging.Event Nat Nat Nat Word) :=
  [.alloc (some 511), .insert 398 0 511 (pteW ||| pteP) true, .remove 398 0, .alloc (some 511)]

theorem smallBoot_calls : ∃ c', Calls (fun c op => op.Valid ∅ c ∧ op.Safe c) ⟨{398}, smallBoot⟩ smallCalls c' := by
  obtain ⟨k₁, k₂, k₃, hrt, _, _, h₃, _⟩ := smallBoot_roundTrip userIx pteW (mem_userIx.mpr (by decide)) (by decide)
  have hr := hrt.calls (fun c op => op.Valid ∅ c ∧ op.Safe c) fun _ _ ho => ⟨ho.1, Op.safe_of ho.2.1 ho.2.2⟩
  refine ⟨⟨{398}, k₃.pop 511⟩, Calls.snoc hr (show Op.Valid ∅ _ (.alloc 0) ∧ Op.Safe _ (.alloc 0) from ⟨trivial, trivial⟩) ?_⟩
  rw [Op.call, h₃.alloc_cons 0]
  rfl

theorem smallBoot_insert : ∃ c', Calls (fun c op => op.Valid ∅ c ∧ op.Safe c) ⟨{398}, smallBoot⟩
    [.insert 398 0 0 (pteU ||| pteP) true] c' ∧ 398 ∈ c'.dirs := by
  have h := smallBoot_inv userIx
  obtain ⟨hf, hr⟩ := smallBoot_zero
  have hn : 0 < smallBoot.npages := by
    rw [smallBoot_npages]
    decide
  have h0 : (0 : Nat) ∉ ({398} : Finset Nat) := by decide
  have hva : (0 : Word) < utop := by decide
  have hi : pdx 0 ∈ userIx := mem_userIx.mpr (by decide)
  have hok : ∃ k, smallBoot.pageInsert (kva 398) 0 0 pteU = .ok (0, k) := by
    rcases h.insert_cases (Finset.mem_singleton_self 398) hi hn (fun hm => hf (h.chain.linked_iff.mpr hm))
        (show pteU.toNat < 4096 by decide) (fun hd => absurd hd h0) (Or.inl hr) with
      ⟨_, hnil, _⟩ | ⟨_, _, _, _, _, he, _⟩ | ⟨_, _, _, _, _, _, _, _, _, he, _⟩
    · cases hnil
    · exact ⟨_, he⟩
    · exact ⟨_, he⟩
  obtain ⟨k, hk⟩ := hok
  have hv : Op.Valid ∅ ⟨{398}, smallBoot⟩ (.insert 398 0 0 pteU) ∧ Op.Safe ⟨{398}, smallBoot⟩ (.insert 398 0 0 pteU) :=
    ⟨⟨Finset.mem_singleton_self 398, hva, hn, hf, fun hd => absurd hd h0⟩, by decide, Or.inl hr⟩
  refine ⟨⟨{398}, k⟩, Calls.nil.snoc hv ?_, Finset.mem_singleton_self 398⟩
  rw [Op.call, hk]
  rfl

/-! ## Runs -/

section
variable {tr : List (Paging.Event Nat Nat Nat Word)} (hown : ∀ D ∈ own, 0 < held D) (h : Inv c.dirs userIx held c.kern free)
  (hr : Calls (fun c op => op.Valid own c ∧ op.Safe c) c tr c')
include hown h hr

theorem run_view : Paging.Run (view held c) tr (view held c') ∧ ∃ free', Inv c'.dirs userIx held c'.kern free' := by
  induction hr with
  | nil => exact ⟨.nil, free, h⟩
  | snoc _ ho hc ih =>
    obtain ⟨hrun, free', h'⟩ := ih
    obtain ⟨hs, h''⟩ := call_step h' hown ho.1 ho.2 hc
    exact ⟨hrun.snoc hs, h''⟩

/-- **The code refines the manager of pages**: every run of the operations, safe and called as they may be, is a run of
the manager with the same events, between the views of the two states. -/
theorem calls_refine : Paging.Run (view held c) tr (view held c') :=
  (run_view hown h hr).1

omit hown h hr in
theorem calls_refine_small : ∃ c', Paging.Run (view (bootRefs smallEnd) ⟨{398}, smallBoot⟩) smallCalls
    (view (bootRefs smallEnd) c') := by
  obtain ⟨c', hc⟩ := smallBoot_calls
  exact ⟨c', calls_refine (fun D hD => absurd hD (Finset.notMem_empty D)) (smallBoot_inv userIx) hc⟩

/-- **No page is handed out while it is in use.** A page that `page_alloc` returns is mapped by none of the mappings
that the events before have made and not undone, and between two times that it is returned it is given back. -/
theorem alloc_exclusive {p : Nat} {tr₁ tr₂ : List (Paging.Event Nat Nat Nat Word)} (ha : tr = tr₁ ++ .alloc (some p) :: tr₂) :
    ¬ Paging.Maps (Paging.replay (view held c).map tr₁) p ∧
    ∀ tr₃ tr₄, tr₂ = tr₃ ++ .alloc (some p) :: tr₄ → Paging.GivesBack (Paging.replay (view held c).map tr₁) p tr₃ := by
  obtain ⟨hrun, _⟩ := run_view hown h hr
  subst ha
  refine ⟨hrun.alloc_unused (view_sound h), ?_⟩
  rintro tr₃ tr₄ rfl
  exact hrun.alloc_twice

omit hown h hr in
/-- Page 511 is returned twice, and given back in between. -/
theorem alloc_exclusive_small : ∃ c', Calls (fun c op => op.Valid ∅ c ∧ op.Safe c) ⟨{398}, smallBoot⟩ smallCalls c' ∧
    Paging.GivesBack (Paging.replay (view (bootRefs smallEnd) ⟨{398}, smallBoot⟩).map []) 511
      [.insert 398 0 511 (pteW ||| pteP) true, .remove 398 0] := by
  obtain ⟨c', hc⟩ := smallBoot_calls
  refine ⟨c', hc, ?_⟩
  exact (alloc_exclusive (fun D hD => absurd hD (Finset.notMem_empty D)) (smallBoot_inv userIx) hc
    (show smallCalls = [] ++ .alloc (some 511) :: _ from rfl)).2 _ [] rfl

end

end Jos
