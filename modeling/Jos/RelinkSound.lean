import Jos.LowMem
import Jos.Lib.Partition

/-!
# The relinking of `check_page_free_list`

The free list is split in place: the pages below 4 MB, then the others, each in
their old order. Nothing but the links of its pages and its head is changed.
-/

namespace Jos

namespace Check

open Traced IntrusiveList

structure OnlyLinks (s t : Kern) : Prop where
  eq : t = { s with pages := t.pages, pageFreeList := t.pageFreeList }
  ref : t.ref = s.ref

theorem OnlyLinks.refl (s : Kern) : OnlyLinks s s := ⟨rfl, rfl⟩

theorem OnlyLinks.trans {s t u : Kern} (h : OnlyLinks s t) (h' : OnlyLinks t u) : OnlyLinks s u where
  eq := by
    rw [h'.eq, h.eq]
  ref := h'.ref.trans h.ref

structure Relink.Is (x : Relink) (t : Kern) (y : Split Nat) : Prop where
  link : t.link = y.link
  pp1 : x.pp1 = y.head false
  pp2 : x.pp2 = y.head true
  tp : x.tp = y.tail

variable {s t : Kern} {p n : Nat} {l r : List Nat} {α : Type}

theorem put_run {x : Relink} {y : Split Nat} (h : x.Is t y) (b : Bool) (v : Option Nat) :
    ∃ z u, (x.put b v).run t = ([], .ok (z, u)) ∧ z.Is u (y.put b v) ∧ OnlyLinks t u := by
  unfold Relink.put Split.put
  rw [h.tp]
  cases y.tail b with
  | some q =>
    refine ⟨x, t.setLink q v, bind_ok (modify_run _ t), ⟨?_, h.pp1, h.pp2, h.tp⟩, rfl, Kern.setLink_ref t q v⟩
    rw [Kern.setLink_link, h.link]
  | none =>
    cases b with
    | false => exact ⟨_, t, rfl, ⟨h.link, by simp, by simpa using h.pp2, rfl⟩, .refl t⟩
    | true => exact ⟨_, t, rfl, ⟨h.link, by simpa using h.pp1, by simp, rfl⟩, .refl t⟩

/-! ## The two classes -/

def high4M (p : Nat) : Bool := decide (pdx (page2pa p) ≥ 1)

theorem high4M_eq_false (hp : p < 65536) : high4M p = false ↔ p < 1024 := by
  unfold high4M
  rw [pdx_page2pa (by omega), decide_eq_false_iff_not]
  omega

def dealt (l : List Nat) (b : Bool) : List Nat := l.filter fun p => high4M p = b

theorem dealt_snoc (l : List Nat) (p : Nat) :
    dealt (l ++ [p]) = Function.update (dealt l) (high4M p) (dealt l (high4M p) ++ [p]) := by
  funext b
  unfold dealt
  by_cases hb : b = high4M p
  · subst hb
    simp
  · rw [Function.update_of_ne hb, List.filter_append]
    simp [Ne.symm hb]

/-! ## The loop -/

theorem relinkStep_run {x : Relink} {y : Split Nat} {link : Nat → Option Nat} (h : x.Is t y)
    (hy : Splitting link y (dealt l) (p :: r)) :
    ∃ z u, (relinkStep 1 p x).run t = ([], .ok (z, u)) ∧ z.Is u (y.add (high4M p) p) ∧
      Splitting link (y.add (high4M p) p) (dealt (l ++ [p])) r ∧ OnlyLinks t u ∧ u.link p = r.head? := by
  obtain ⟨z, u, hr, hz, hs⟩ := put_run h (high4M p) (some p)
  have ha := hy.add (high4M p)
  have htp : Function.update z.tp (high4M p) (some p) = (y.add (high4M p) p).tail := by rw [hz.tp]; rfl
  refine ⟨{ z with tp := Function.update z.tp (high4M p) (some p) }, u, ?_, ⟨hz.link, hz.pp1, hz.pp2, htp⟩, ?_, hs, ?_⟩
  · unfold relinkStep
    exact bind_ok hr
  · rw [dealt_snoc]
    exact ha.1
  · rw [hz.link]
    exact ha.2

theorem forFree_run (body : Nat → α → Checked α) {J : List Nat → α → Kern → Prop}
    (hb : ∀ p r x s, J (p :: r) x s → ∃ y t, (body p x).run s = ([], .ok (y, t)) ∧ J r y t ∧ t.link p = r.head?)
    {x : α} (h : J l x s) : ∃ y t, (∀ n ≥ l.length, (forFree body n l.head? x).run s = ([], .ok (y, t))) ∧ J [] y t := by
  induction l generalizing x s with
  | nil => exact ⟨x, s, fun n _ => by unfold forFree; rfl, h⟩
  | cons p r ih =>
    obtain ⟨y, t, hr, hj, hl⟩ := hb p r x s h
    obtain ⟨z, u, hrun, hz⟩ := ih hj
    refine ⟨z, u, fun n hn => ?_, hz⟩
    obtain ⟨m, rfl⟩ : ∃ m, n = m + 1 := ⟨n - 1, by rw [List.length_cons] at hn; omega⟩
    rw [List.head?_cons, forFree, bind_ok hr, bind_ok (get_run t), hl, hrun m (by simpa using hn)]
    rfl

def relinkWithin (n pdxLimit : Nat) (pp1 pp2 : Option Nat) : Checked Unit := do
  let s ← get
  let x ← forFree (relinkStep pdxLimit) n s.pageFreeList ⟨pp1, pp2, fun _ => none⟩
  let x ← x.put true none
  let x ← x.put false x.pp2
  modify fun s => { s with pageFreeList := x.pp1 }

theorem relink_eq (pdxLimit : Nat) (pp1 pp2 : Option Nat) (s : Kern) :
    (relink pdxLimit pp1 pp2).run s = (relinkWithin s.npages pdxLimit pp1 pp2).run s := rfl

theorem relink_run (hc : Chain s.link s.pageFreeList l) (pp1 pp2 : Option Nat) :
    ∃ t, (∀ n ≥ l.length, (relinkWithin n 1 pp1 pp2).run s = ([], .ok ((), t))) ∧
      Chain t.link t.pageFreeList (dealt l false ++ dealt l true) ∧ OnlyLinks s t ∧ ∀ p ∉ l, t.link p = s.link p := by
  have hh := hc.head
  rw [hh] at hc
  obtain ⟨x, t, hrun, d, y, hd, hx, hy, hs⟩ := forFree_run (relinkStep 1)
    (J := fun r x t => ∃ d y, l = d ++ r ∧ x.Is t y ∧ Splitting s.link y (dealt d) r ∧ OnlyLinks s t)
    (fun p r x t ⟨d, y, hd, hx, hy, hs⟩ => by
      obtain ⟨z, u, hr, hz, hsp, hu, hl⟩ := relinkStep_run hx hy
      exact ⟨z, u, hr, ⟨d ++ [p], _, by rw [hd, List.append_assoc]; rfl, hz, hsp, hs.trans hu⟩, hl⟩)
    (x := ⟨pp1, pp2, fun _ => none⟩)
    ⟨[], ⟨s.link, fun b => if b then pp2 else pp1, fun _ => none⟩, rfl, ⟨rfl, rfl, rfl, rfl⟩, .start hc _, .refl s⟩
  rw [List.append_nil] at hd
  subst hd
  obtain ⟨z, u, hr, hz, hu⟩ := put_run hx true none
  obtain ⟨z', v, hr', hz', hv⟩ := put_run hz false z.pp2
  rw [hz.pp2] at hz'
  obtain ⟨hj, hf⟩ := hy.join rfl rfl
  have hov := hs.trans (hu.trans hv)
  refine ⟨{ v with pageFreeList := z'.pp1 }, fun n hn => ?_, ?_, ⟨?_, hov.ref⟩, fun p hp => ?_⟩
  · unfold relinkWithin
    rw [bind_ok (get_run s), hh, bind_ok (hrun n hn), bind_ok hr, bind_ok hr']
    rfl
  · show Chain v.link z'.pp1 _
    rw [hz'.link, hz'.pp1]
    exact hj
  · rw [hov.eq]
  · show v.link p = _
    rw [hz'.link]
    exact hf p fun b hb => hp (List.mem_filter.mp hb).1

/-! ## Stable and complete -/

def Below4M (p : Nat) : Prop := (page2pa p).toNat < 4 * 2 ^ 20

instance (p : Nat) : Decidable (Below4M p) := inferInstanceAs (Decidable (_ < _))

theorem high4M_iff (p : Nat) : high4M p = false ↔ Below4M p := by
  unfold high4M Below4M
  rw [decide_eq_false_iff_not, pdx_eq]
  have := (page2pa p).isLt
  omega

theorem dealt_eq (l : List Nat) : dealt l false = l.filter (Below4M ·) ∧ dealt l true = l.filter (¬ Below4M ·) := by
  constructor
  · refine List.filter_congr fun p _ => ?_
    rw [decide_eq_decide]
    exact high4M_iff p
  · refine List.filter_congr fun p _ => ?_
    rw [decide_eq_decide, ← high4M_iff, Bool.not_eq_false]

/-- **The relinking** ends on every free list that ends, with the pages below 4 MB in front and the others behind
them, both in their old order, whatever the locals hold before they are set. -/
theorem relink_partition (s : Kern) (l : List Nat) (hc : Chain s.link s.pageFreeList l) (pp1 pp2 : Option Nat) :
    ∃ t, (∀ n ≥ l.length, (relinkWithin n 1 pp1 pp2).run s = ([], .ok ((), t))) ∧
      (l.length ≤ s.npages → (relink 1 pp1 pp2).run s = ([], .ok ((), t))) ∧
      Chain t.link t.pageFreeList (l.filter (Below4M ·) ++ l.filter (¬ Below4M ·)) ∧
      (l.filter (Below4M ·) ++ l.filter (¬ Below4M ·)).Perm l ∧ OnlyLinks s t ∧ ∀ p ∉ l, t.link p = s.link p := by
  obtain ⟨t, hrun, hchain, hs, hf⟩ := relink_run hc pp1 pp2
  rw [(dealt_eq l).1, (dealt_eq l).2] at hchain
  refine ⟨t, hrun, fun hn => relink_eq 1 pp1 pp2 s ▸ hrun s.npages hn, hchain, ?_, hs, hf⟩
  have h := List.filter_append_perm (fun p => decide (Below4M p)) l
  simpa using h

theorem relink_partition_small : ∃ t : Kern, t.pageFreeList = some 3 ∧ t.link 3 = some 2000 ∧ t.link 2000 = some 1024 ∧
    t.link 1024 = none := by
  let s : Kern := ⟨4096, 0, 0, 0, fun p => ⟨if p = 2000 then some 3 else if p = 3 then some 1024 else none, 0⟩, some 2000, 0, 0, 0, 0,
    fun _ _ => 0, []⟩
  obtain ⟨t, _, _, hc, _⟩ := relink_partition s [2000, 3, 1024] ⟨rfl, rfl, rfl, rfl⟩ none none
  exact ⟨t, hc.1, hc.2.1, hc.2.2.1, hc.2.2.2⟩

end Check

end Jos
