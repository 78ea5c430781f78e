import Jos.Lib.Tlb
import Jos.Runs

/-!
# The TLB below `UTOP`

The processor walks the installed directory `D` and may keep what it finds at
any moment between the stores of `page_insert` and `page_remove`. After each
call of a run, every translation it has kept for a page below `UTOP` is the one
that the page tables give now.
-/

namespace Jos

open Tlb IntrusiveList

def HwEvent.onCpu : HwEvent → Event Mem Nat
  | store pp i v => .write fun m => m.set pp i v
  | invlpg va => .flush (pgnum va)

def pageWalk (D : Nat) (m : Mem) (v : Nat) : Option Word := pte m D (page2pa v)

def overUtop : Set Nat := { v | pgnum utop ≤ v }

theorem mem_overUtop {v : Nat} : v ∈ overUtop ↔ 977920 ≤ v := Iff.rfl

theorem pageWalk_pgnum (D : Nat) (m : Mem) (va : Word) : pageWalk D m (pgnum va) = pte m D va := by
  obtain ⟨hd, ht⟩ := (pgnum_eq_iff (page2pa (pgnum va)) va).mp (pgnum_page2pa (pgnum_lt va))
  rw [pageWalk, pte, pte, hd, ht]

theorem pgnum_of_lt_utop {va : Word} (h : va < utop) : pgnum va ∉ overUtop := by
  rw [BitVec.lt_def, utop_toNat] at h
  rw [mem_overUtop, pgnum_eq]
  omega

theorem pgnum_of_notMem {v : Nat} (h : v ∉ overUtop) : pgnum (page2pa v) = v := by
  rw [mem_overUtop] at h
  exact pgnum_page2pa (by omega)

theorem pdx_of_notMem {v : Nat} (h : v ∉ overUtop) : pdx (page2pa v) < 955 := by
  rw [mem_overUtop] at h
  rw [pdx_page2pa (by omega)]
  omega

/-! ## Stores to a page that is no table -/

section
variable {D T : Nat}

theorem foldl_set (T : Nat) (m : Mem) (n : Nat) : (List.range n).foldl (fun m i => m.set T i 0) m =
    fun q j => if q = T ∧ j < n then 0 else m q j := by
  induction n with
  | zero =>
    funext q j
    rw [List.range_zero, List.foldl_nil, if_neg fun h => Nat.not_lt_zero j h.2]
  | succ n ih =>
    rw [List.range_succ, List.foldl_append, ih, List.foldl_cons, List.foldl_nil]
    funext q j
    by_cases he : (q, j) = (T, n)
    · cases he
      rw [Mem.set_self, if_pos ⟨rfl, Nat.lt_succ_self n⟩]
    · rw [Mem.set_of_ne _ he]
      by_cases hq : q = T
      · have hj : j ≠ n := fun e => he (by rw [hq, e])
        have hlt : j < n ↔ j < n + 1 := by omega
        simp only [hlt]
      · rw [if_neg fun h => hq h.1, if_neg fun h => hq h.1]

theorem foldl_set_clear (T : Nat) (m : Mem) :
    (List.range nptentries).foldl (fun m i => m.set T i 0) m = m.clear T := foldl_set T m nptentries

/-- `T` is neither the directory nor a table of a page below `UTOP`. -/
def Apart (D T : Nat) (m : Mem) : Prop :=
  D ≠ T ∧ ∀ v ∉ overUtop, target (m D (pdx (page2pa v))) ≠ some T

theorem Apart.set {m : Mem} (h : Apart D T m) (i : Nat) (v : Word) : Apart D T (m.set T i v) := by
  refine ⟨h.1, fun u hu => ?_⟩
  rw [Mem.set_of_page_ne _ h.1]
  exact h.2 u hu

theorem Apart.pageWalk_congr {m m' : Mem} (h : Apart D T m) (hm : ∀ U, U ≠ T → ∀ j, m' U j = m U j) {u : Nat}
    (hu : u ∉ overUtop) : pageWalk D m' u = pageWalk D m u := by
  rw [pageWalk, pageWalk, pte, pte, hm D h.1]
  cases ht : target (m D (pdx (page2pa u))) with
  | none => rfl
  | some U =>
    have hU : U ≠ T := fun e => h.2 u hu (by rw [ht, e])
    exact congrArg present (hm U hU _)

theorem Apart.triple_list {m : Mem} (h : Apart D T m) (l : List Nat) : Triple (pageWalk D) m overUtop
    ((l.map fun i => HwEvent.store T i 0).map HwEvent.onCpu) (l.foldl (fun m i => m.set T i 0) m) overUtop := by
  induction l generalizing m with
  | nil => exact Triple.nil m overUtop
  | cons i l ih =>
    rw [List.map_cons, List.map_cons, List.foldl_cons]
    refine Triple.append (l := [_]) ?_ (ih (h.set i 0))
    exact Triple.write_same fun u hu => h.pageWalk_congr (fun U hU => Mem.set_of_page_ne _ hU 0) hu

theorem Apart.triple_clear {m : Mem} (h : Apart D T m) : Triple (pageWalk D) m overUtop
    (((List.range nptentries).map fun i => HwEvent.store T i 0).map HwEvent.onCpu) (m.clear T) overUtop := by
  have := h.triple_list (List.range nptentries)
  rw [foldl_set_clear] at this
  exact this

end

/-! ## The stores of the operations -/

section
variable {dirs ix : Finset Nat} {s s' : Kern} {free free' : List Nat} {D T : Nat} {va v : Word}
  (h : Wf dirs ix s free) (hix : ∀ i < 955, i ∈ ix) (hD : D ∈ dirs)
include h hix hD

theorem free_apart (hT : T ∈ free) : Apart D T s.mem := by
  refine ⟨fun e => h.dir_free D hD (e ▸ hT), fun u hu ht => ?_⟩
  exact h.table_free T (table_of_dir hD (hix _ (pdx_of_notMem hu)) ht) hT

theorem walk_triple (hw : WalkTo D va s free T s' free') : ∃ evs, s'.log = s.log ++ evs ∧
    Triple (pageWalk D) s.mem overUtop (evs.map HwEvent.onCpu) s'.mem overUtop := by
  rcases hw with ⟨_, rfl, rfl⟩ | ⟨ho, rfl, rfl⟩
  · exact ⟨[], (List.append_nil _).symm, Triple.nil _ _⟩
  · have ha := free_apart h hix hD List.mem_cons_self
    refine ⟨((List.range nptentries).map fun i => .store T i 0) ++
      [.store D (pdx va) (page2pa T ||| tableFlags)], ?_, ?_⟩
    · rw [Kern.addTable, Kern.write_log, Kern.setRef_log, Kern.clear_log, Kern.pop_log, List.append_assoc]
    · rw [List.map_append]
      refine ha.triple_clear.append ?_
      refine Triple.write_same fun u hu => ?_
      have hp := h.pte_addTable hD ho hD (hix _ (pdx_of_notMem hu))
      exact hp.trans (ha.pageWalk_congr (fun U hU => Mem.clear_of_ne _ hU) hu).symm

section
variable (hva : va < utop) (ht : target (s.mem D (pdx va)) = some T)
include hva ht

theorem pageWalk_set {u : Nat} (hu : u ∉ overUtop) (hne : u ≠ pgnum va) :
    pageWalk D (s.mem.set T (ptx va) v) u = pageWalk D s.mem u := by
  have hg := pgnum_of_notMem hu
  have hi := hix _ (pdx_of_lt_utop hva)
  refine (h.pte_write hD hi ht v hD (hix _ (pdx_of_notMem hu))).trans (if_neg fun e => hne ?_)
  rw [← hg]
  exact e.2

theorem store_triple (ho : target (s.mem T (ptx va)) = none) : Triple (pageWalk D) s.mem overUtop
    [HwEvent.onCpu (.store T (ptx va) v)] (s.mem.set T (ptx va) v) overUtop := by
  refine Triple.write_new (pgnum va) (fun u hu hne => pageWalk_set h hix hD hva ht hu hne) ?_
  rw [pageWalk_pgnum, pte_eq ht]
  exact present_eq_none.mpr ho

/-- The store and the `invlpg` that end `page_remove`: between the two, the TLB may
still hold the old entry. -/
theorem remove_triple : Triple (pageWalk D) s.mem overUtop
    ([HwEvent.store T (ptx va) 0, .invlpg va].map HwEvent.onCpu) (s.mem.set T (ptx va) 0) overUtop := by
  have hs : Triple (pageWalk D) s.mem overUtop [HwEvent.onCpu (.store T (ptx va) 0)]
      (s.mem.set T (ptx va) 0) (insert (pgnum va) overUtop) :=
    Triple.write_stale (pgnum va) fun u hu hne => pageWalk_set h hix hD hva ht hu hne
  exact hs.append (Triple.flush _ (pgnum va))

theorem restore_triple : Triple (pageWalk D) (s.mem.set T (ptx va) 0) overUtop
    [HwEvent.onCpu (.store T (ptx va) v)] ((s.mem.set T (ptx va) 0).set T (ptx va) v) overUtop := by
  refine Triple.write_new (pgnum va) (fun u hu hne => ?_) ?_
  · rw [Mem.set_set, pageWalk_set h hix hD hva ht hu hne, pageWalk_set h hix hD hva ht hu hne]
  · have hi := hix _ (pdx_of_lt_utop hva)
    rw [pageWalk_pgnum, h.pte_write hD hi ht 0 hD hi, if_pos ⟨rfl, rfl⟩, present_zero]

end

end

/-! ## Runs -/

def Op.OnDir (own : Finset Nat) (D : Nat) (c : Conf) : Op → Prop
  | insert E p va perm => E = D ∧ (Op.insert E p va perm).Valid own c ∧ (c.kern.ref p).toNat < 65535
  | remove E va => E = D ∧ (Op.remove E va).Valid own c ∧ mapped c.kern.mem D va ≠ none
  | _ => False

def Op.FlagBits : Op → Prop
  | insert _ _ _ perm => perm.toNat < 4096
  | _ => True

/-- One call, with fills of the TLB before, between and after its stores and flushes. -/
inductive TlbStep (ok : Conf → Op → Prop) (D : Nat) :
    Conf × (Nat → Option Word) → Conf × (Nat → Option Word) → Prop
  | mk {c c' : Conf} {tlb tlb' : Nat → Option Word} {m : Mem} (op : Op) (evs : List HwEvent) :
      ok c op → op.exec c = .ok c' → c'.kern.log = c.kern.log ++ evs →
      Exec (pageWalk D) (evs.map HwEvent.onCpu) ⟨c.kern.mem, tlb⟩ ⟨m, tlb'⟩ → TlbStep ok D (c, tlb) (c', tlb')

section
variable {own ix : Finset Nat} {held : Nat → Nat} {free : List Nat} {c₀ c c' : Conf} {D : Nat}
  {tlb tlb' : Nat → Option Word} (hix : ∀ i < 955, i ∈ ix) (hown : ∀ D ∈ own, 0 < held D)
include hix hown

theorem op_triple (h : Inv c.dirs ix held c.kern free) (op : Op) (ho : op.OnDir own D c ∧ op.FlagBits)
    (he : op.exec c = .ok c') : ∃ evs free', c'.dirs = c.dirs ∧ Inv c.dirs ix held c'.kern free' ∧
      c'.kern.log = c.kern.log ++ evs ∧
      Triple (pageWalk D) c.kern.mem overUtop (evs.map HwEvent.onCpu) c'.kern.mem overUtop := by
  cases op with
  | alloc flags => exact ho.1.elim
  | free p => exact ho.1.elim
  | newDir E => exact ho.1.elim
  | walk E va create => exact ho.1.elim
  | insert E p va perm =>
    obtain ⟨⟨rfl, ⟨hD, hva, hp, hf, hd⟩, hr⟩, hperm⟩ := ho
    have hi := hix _ (pdx_of_lt_utop hva)
    rw [Kern.onFree, h.chain.linked_iff] at hf
    rcases h.insert_cases hD hi hp hf hperm (fun hpd => hown p (hd hpd)) (Or.inl hr) with
      ⟨_, _, hx⟩ | ⟨T, s', free', hw, hn, hx, h'⟩ | ⟨T, q, t, free', ht, hq, hm, hl, _, hx, h'⟩
    · rw [Op.exec_insert hx, Except.ok.injEq] at he
      subst he
      exact ⟨[], free, rfl, h, (List.append_nil _).symm, Triple.nil _ _⟩
    · rw [Op.exec_insert hx, Except.ok.injEq] at he
      subst he
      obtain ⟨hwf, ht, _⟩ := h.wf.walkTo_wf hD hi hw
      obtain ⟨evs, hl, htr⟩ := walk_triple h.wf hix hD hw
      refine ⟨evs ++ [.store T (ptx va) (page2pa p ||| perm ||| pteP)], free', rfl, h', ?_, ?_⟩
      · rw [Kern.write_log, Kern.setRef_log, hl, List.append_assoc]
      · rw [List.map_append]
        exact htr.append (store_triple hwf hix hD hva ht hn)
    · rw [Op.exec_insert hx, Except.ok.injEq] at he
      subst he
      refine ⟨[.store T (ptx va) 0, .invlpg va] ++ [.store T (ptx va) (page2pa p ||| perm ||| pteP)], free', rfl, h',
        ?_, ?_⟩
      · rw [Kern.write_log, hl, List.append_assoc]
      · rw [List.map_append, Kern.write_mem, hm]
        exact (remove_triple h.wf hix hD hva ht).append (restore_triple h.wf hix hD hva ht)
  | remove E va =>
    obtain ⟨rfl, ⟨hD, hva⟩, hm⟩ := ho.1
    have hi := hix _ (pdx_of_lt_utop hva)
    obtain ⟨q, hq⟩ := Option.ne_none_iff_exists'.mp hm
    obtain ⟨T, ht, hq⟩ := mapped_eq_some.mp hq
    obtain ⟨hx, h'⟩ := h.remove_mapped hD hi ht hq
    rw [Op.exec, hx, ok_bind, pure_ok, Except.ok.injEq] at he
    subst he
    refine ⟨[.store T (ptx va) 0, .invlpg va], _, rfl, h', ?_, ?_⟩
    · rw [Kern.invlpg_log, Kern.write_log, Kern.dropRef_log, List.append_assoc]
      rfl
    · rw [Kern.invlpg_mem, Kern.write_mem, Kern.dropRef_mem]
      exact remove_triple h.wf hix hD hva ht

theorem tlbStep_coherent (h : Inv c.dirs ix held c.kern free)
    (hc : Coherent (pageWalk D) overUtop ⟨c.kern.mem, tlb⟩) (hs : TlbStep (fun c op => op.OnDir own D c ∧ op.FlagBits) D (c, tlb) (c', tlb')) :
    (∃ free', Inv c'.dirs ix held c'.kern free') ∧ Coherent (pageWalk D) overUtop ⟨c'.kern.mem, tlb'⟩ := by
  obtain ⟨op, evs, ho, he, hl, hx⟩ := hs
  obtain ⟨evs', free', hd, h', hl', htr⟩ := op_triple hix hown h op ho he
  have hevs : evs = evs' := List.append_cancel_left (hl.symm.trans hl')
  subst hevs
  obtain ⟨hm, hc'⟩ := htr _ _ hx rfl hc
  subst hm
  exact ⟨⟨free', hd.symm ▸ h'⟩, hc'⟩

theorem tlbRun_coherent {x : Conf × (Nat → Option Word)} (h : Inv c.dirs ix held c.kern free)
    (hr : Relation.ReflTransGen (TlbStep (fun c op => op.OnDir own D c ∧ op.FlagBits) D) (c, fun _ => none) x) :
    (∃ free', Inv x.1.dirs ix held x.1.kern free') ∧ Coherent (pageWalk D) overUtop ⟨x.1.kern.mem, x.2⟩ := by
  induction hr with
  | refl => exact ⟨⟨free, h⟩, coherent_empty _⟩
  | tail _ hs ih =>
    obtain ⟨⟨free', h'⟩, hc⟩ := ih
    exact tlbStep_coherent hix hown h' hc hs

section
variable {op : Op} (h : Inv c₀.dirs ix held c₀.kern free)
  (hr : Relation.ReflTransGen (TlbStep (fun c op => op.OnDir own D c ∧ op.FlagBits) D) (c₀, fun _ => none) (c, tlb))
  (ho : op.OnDir own D c ∧ op.FlagBits) (he : op.exec c = .ok c')
include h hr ho he

theorem tlbRun_exec : ∃ evs tlb', c'.kern.log = c.kern.log ++ evs ∧
    Exec (pageWalk D) (evs.map HwEvent.onCpu) ⟨c.kern.mem, tlb⟩ ⟨c'.kern.mem, tlb'⟩ := by
  obtain ⟨⟨free', h'⟩, hc⟩ := tlbRun_coherent hix hown h hr
  obtain ⟨evs, _, _, _, hl, htr⟩ := op_triple hix hown h' op ho he
  obtain ⟨d, hx⟩ : ∃ d, Exec (pageWalk D) (evs.map HwEvent.onCpu) ⟨c.kern.mem, tlb⟩ d := ⟨_, .events ..⟩
  refine ⟨evs, d.tlb, hl, ?_⟩
  rw [← (htr _ _ hx rfl hc).1]
  exact hx

theorem tlbRun_fill {va w : Word} (hw : pte c'.kern.mem D va = some w) :
    ∃ tlb', TlbStep (fun c op => op.OnDir own D c ∧ op.FlagBits) D (c, tlb) (c', tlb') ∧ tlb' (pgnum va) = some w := by
  obtain ⟨evs, tlb', hl, hx⟩ := tlbRun_exec hix hown h hr ho he
  have hfill := hx.fill_last (v := pgnum va) ((pageWalk_pgnum D _ va).trans hw)
  exact ⟨_, .mk op evs ho he hl hfill, Function.update_self ..⟩

end

end

/-! ## One address mapped again and again -/

theorem insert_onDir {own : Finset Nat} {k : Kern} {p : Nat} {va perm : Word} {l : List Nat} (hva : va < utop)
    (hn : k.npages = 512) (hp : p < 512) (hne : p ≠ 398) (hc : Chain k.link k.pageFreeList l) (hl : p ∉ l)
    (hr : (k.ref p).toNat < 65535) : (Op.insert 398 p va perm).OnDir own 398 ⟨{398}, k⟩ := by
  refine ⟨rfl, ⟨Finset.mem_singleton_self 398, hva, ?_, ?_, fun h => absurd (Finset.mem_singleton.mp h) hne⟩, hr⟩
  · rw [hn]
    exact hp
  · rw [Kern.onFree, hc.linked_iff]
    exact hl

/-- Page 0 is mapped writable at address 0, mapped again read-only, replaced by page 399, and removed. -/
structure Remaps (k₁ k₂ k₃ k₄ : Kern) : Prop where
  map : (Op.insert 398 0 0 pteW).exec ⟨{398}, smallBoot⟩ = .ok ⟨{398}, k₁⟩
  again : (Op.insert 398 0 0 0).exec ⟨{398}, k₁⟩ = .ok ⟨{398}, k₂⟩
  replace : (Op.insert 398 399 0 0).exec ⟨{398}, k₂⟩ = .ok ⟨{398}, k₃⟩
  remove : (Op.remove 398 0).exec ⟨{398}, k₃⟩ = .ok ⟨{398}, k₄⟩
  canMap : (Op.insert 398 0 0 pteW).OnDir {398} 398 ⟨{398}, smallBoot⟩
  canMapAgain : (Op.insert 398 0 0 0).OnDir {398} 398 ⟨{398}, k₁⟩
  canReplace : (Op.insert 398 399 0 0).OnDir {398} 398 ⟨{398}, k₂⟩
  canRemove : (Op.remove 398 0).OnDir {398} 398 ⟨{398}, k₃⟩
  pte₁ : pte k₁.mem 398 0 = some (page2pa 0 ||| pteW ||| pteP)
  pte₂ : pte k₂.mem 398 0 = some (page2pa 0 ||| 0 ||| pteP)
  pte₃ : pte k₃.mem 398 0 = some (page2pa 399 ||| 0 ||| pteP)
  pte₄ : pte k₄.mem 398 0 = none

theorem small_remaps : ∃ k₁ k₂ k₃ k₄, Remaps k₁ k₂ k₃ k₄ := by
  have h := smallBoot_inv userIx
  have hD : 398 ∈ ({398} : Finset Nat) := Finset.mem_singleton_self 398
  have hi : pdx 0 ∈ userIx := mem_userIx.mpr (by decide)
  have hva : (0 : Word) < utop := by decide
  have hdir : ∀ {p : Nat} {P : Prop}, p ≠ 398 → p ∈ ({398} : Finset Nat) → P := fun hp hm =>
    absurd (Finset.mem_singleton.mp hm) hp
  have hfree : ∀ {k : Kern} {l : List Nat} {p : Nat}, Inv {398} userIx (bootRefs smallEnd) k l → reserved smallEnd p →
      p ∉ l := fun h hp => h.not_free_of_ref (by rw [bootRefs, if_pos hp]; omega)
  have r0 : reserved smallEnd 0 := Or.inl rfl
  have r399 : reserved smallEnd 399 := Or.inr ⟨by decide, by decide⟩
  have href : ∀ {p : Nat}, p < 512 → reserved smallEnd p → (smallBoot.ref p).toNat = 1 := fun hp hr => by
    rw [smallBoot_ref hp, bootRefs, if_pos hr]
  have hn : smallBoot.npages = 512 := smallBoot_npages
  obtain ⟨k₁, l₁, he₁, h₁, hn₁, hp₁, hr₁⟩ := h.insert_mapped pteW hD hi (by rw [hn]; decide) (hfree h r0)
    (by decide) (hdir (by decide)) (by rw [href (by decide) r0]; decide) (Or.inl (List.cons_ne_nil _ _))
  rw [hn] at hn₁ hr₁
  have hr10 := hr₁ 0 (by decide) (hfree h r0)
  have hr1399 := hr₁ 399 (by decide) (hfree h r399)
  rw [href (by decide) r0] at hr10
  rw [href (by decide) r399] at hr1399
  obtain ⟨k₂, l₂, he₂, h₂, hn₂, hp₂, hr₂⟩ := h₁.insert_mapped 0 hD hi (by rw [hn₁]; decide) (hfree h₁ r0)
    (by decide) (hdir (by decide)) (Nat.lt_of_le_of_lt hr10 (by decide)) (Or.inr (by rw [hp₁]; exact Option.some_ne_none _))
  rw [hn₁] at hn₂ hr₂
  have hr2399 := hr₂ 399 (by decide) (hfree h₁ r399)
  obtain ⟨k₃, l₃, he₃, h₃, hn₃, hp₃, _⟩ := h₂.insert_mapped 0 hD hi (by rw [hn₂]; decide) (hfree h₂ r399)
    (by decide) (hdir (by decide)) (Nat.lt_of_le_of_lt hr2399 (by omega)) (Or.inr (by rw [hp₂]; exact Option.some_ne_none _))
  have hm : mapped k₃.mem 398 0 ≠ none := by
    rw [Ne, mapped_eq_none, hp₃]
    exact Option.some_ne_none _
  obtain ⟨q, hq⟩ := Option.ne_none_iff_exists'.mp hm
  obtain ⟨T, hT, hq⟩ := mapped_eq_some.mp hq
  obtain ⟨he₄, _⟩ := h₃.remove_mapped hD hi hT hq
  refine ⟨k₁, k₂, k₃, _, Op.exec_insert he₁, Op.exec_insert he₂, Op.exec_insert he₃, Op.exec_remove he₄, ?_, ?_, ?_, ?_,
    hp₁, hp₂, hp₃, ?_⟩
  · exact insert_onDir hva hn (by decide) (by decide) h.chain (hfree h r0) (by rw [href (by decide) r0]; decide)
  · exact insert_onDir hva hn₁ (by decide) (by decide) h₁.chain (hfree h₁ r0) (Nat.lt_of_le_of_lt hr10 (by decide))
  · exact insert_onDir hva hn₂ (by decide) (by decide) h₂.chain (hfree h₂ r399) (Nat.lt_of_le_of_lt hr2399 (by omega))
  · exact ⟨rfl, ⟨hD, hva⟩, hm⟩
  · rw [Kern.invlpg_mem, Kern.write_mem, Kern.dropRef_mem, h₃.wf.pte_write hD hi hT 0 hD hi, if_pos ⟨rfl, rfl⟩, present_zero]

namespace Kern

variable {s : Kern} {D T p : Nat} {va w : Word}

theorem insertNew_log : ∃ evs : List HwEvent, (s.insertNew D T p va w).log = s.log ++ evs ∧
    ∀ e ∈ evs.map HwEvent.onCpu, ∃ f, e = .write f := by
  refine ⟨((List.range nptentries).map fun i => .store T i 0) ++
    [.store D (pdx va) (page2pa T ||| tableFlags), .store T (ptx va) w], ?_, ?_⟩
  · rw [insertNew, write_log, setRef_log, addTable, write_log, setRef_log, clear_log, pop_log]
    simp only [List.append_assoc, List.cons_append, List.nil_append]
  · intro e he
    rw [List.map_append, List.map_map, List.mem_append] at he
    rcases he with he | he
    · obtain ⟨i, _, rfl⟩ := List.mem_map.mp he
      exact ⟨_, rfl⟩
    · rcases List.mem_cons.mp he with rfl | he
      · exact ⟨_, rfl⟩
      · rw [List.map_cons, List.map_nil, List.mem_singleton] at he
        exact ⟨_, he⟩

end Kern

/-- The machine just booted, after `page_insert` of page 0 at address 0 with `perm` the address of page 511, which is the
new table: the table has an entry for itself. -/
def selfMapped : Kern := smallBoot.insertNew 398 511 0 0 (page2pa 0 ||| 0x1ff000 ||| pteP)

/-- The same again with `perm` 0: `page_remove` frees the table, and the entry is written to it. -/
def freedTable : Kern :=
  ((((selfMapped.setRef 0 (selfMapped.ref 0 + 1)).dropRef 511).write 511 0 0).invlpg 0).write 511 0 (page2pa 0 ||| 0 ||| pteP)

/-- Then at another address: the new table is page 511 again, and cleared. -/
def reusedTable : Kern := freedTable.insertNew 398 511 0 0x401000 (page2pa 0 ||| 0 ||| pteP)

theorem selfMapped_dir (i : Nat) : selfMapped.mem 398 i = if i = 0 then page2pa 511 ||| tableFlags else 0 := by
  rw [selfMapped, Kern.insertNew_dir (by decide), smallBoot_mem, show pdx 0 = 0 from rfl]

theorem selfMapped_entry : selfMapped.mem 511 0 = 0x1ff001 := by
  rw [selfMapped, Kern.insertNew_mem]
  exact Mem.set_self ..

theorem selfMapped_ref : selfMapped.ref 511 = 1 ∧ selfMapped.ref 0 = 2 := by
  have h511 : smallBoot.ref 511 = 0 := (smallBoot_inv userIx).free_ref 511 List.mem_cons_self
  have h0 : smallBoot.ref 0 = 1 := by rw [(smallMachine_boot userIx).loop.ref, if_pos ⟨by decide, Or.inl rfl⟩]
  constructor
  · rw [selfMapped, Kern.insertNew_ref (by decide), if_neg (by decide), if_pos rfl, h511]
    decide
  · rw [selfMapped, Kern.insertNew_ref (by decide), if_pos rfl, h0]
    decide

theorem selfMapped_chain : Chain selfMapped.link selfMapped.pageFreeList (initFree smallEnd 511) := by
  have h := (smallBoot_inv userIx).pop.chain
  rw [selfMapped, Kern.insertNew_chain.1, Kern.insertNew_chain.2]
  exact h

theorem initFree_511 : 511 ∉ initFree smallEnd 511 ∧ 0 ∉ initFree smallEnd 511 :=
  ⟨fun h => absurd (mem_initFree.mp h).1 (by decide), fun h => (mem_initFree.mp h).2 (Or.inl rfl)⟩

theorem selfMapped_link : selfMapped.link 511 = none := by
  rw [selfMapped, Kern.insertNew_chain.1, Kern.pop_link, Function.update_self]

theorem freedTable_mem : freedTable.mem = selfMapped.mem.set 511 0 pteP := by
  rw [freedTable, Kern.write_mem, Kern.invlpg_mem, Kern.write_mem, Kern.dropRef_mem, Kern.setRef_mem, Mem.set_set]
  rfl

theorem selfMapped_npages : selfMapped.npages = 512 := by
  rw [selfMapped, Kern.insertNew_npages, smallBoot_npages]

theorem freedTable_npages : freedTable.npages = 512 := by
  rw [freedTable, Kern.write_npages, Kern.invlpg_npages, Kern.write_npages, Kern.dropRef_npages, Kern.setRef_npages,
    selfMapped_npages]

theorem freedTable_dir (i : Nat) : freedTable.mem 398 i = selfMapped.mem 398 i := by
  rw [freedTable_mem, Mem.set_of_page_ne _ (by decide)]

theorem freedTable_entry : freedTable.mem 511 0 = pteP := by rw [freedTable_mem, Mem.set_self]

theorem freedTable_chain : Chain freedTable.link freedTable.pageFreeList (511 :: initFree smallEnd 511) ∧
    freedTable.ref 0 = 3 := by
  obtain ⟨h1, h0⟩ := selfMapped_ref
  have hr : (selfMapped.setRef 0 (selfMapped.ref 0 + 1)).ref 511 = 1 := by
    rw [Kern.setRef_ref, Function.update_of_ne (by decide), h1]
  have hd : (selfMapped.setRef 0 (selfMapped.ref 0 + 1)).dropRef 511 =
      ((selfMapped.setRef 0 (selfMapped.ref 0 + 1)).setRef 511 (1 - 1)).push 511 := by
    rw [Kern.dropRef, hr, if_pos (by decide)]
  rw [freedTable, hd]
  refine ⟨?_, ?_⟩
  · rw [Kern.write_link, Kern.invlpg_link, Kern.write_link, Kern.push_link, Kern.setRef_link, Kern.setRef_link,
      Kern.setRef_pageFreeList, Kern.setRef_pageFreeList, Kern.write_pageFreeList, Kern.invlpg_pageFreeList,
      Kern.write_pageFreeList, Kern.push_pageFreeList]
    exact selfMapped_chain.push initFree_511.1
  · rw [Kern.write_ref, Kern.invlpg_ref, Kern.write_ref, Kern.push_ref, Kern.setRef_ref, Function.update_of_ne (by decide),
      Kern.setRef_ref, Function.update_self, h0]
    rfl

theorem reusedTable_mem : reusedTable.mem 398 0 = page2pa 511 ||| tableFlags ∧ reusedTable.mem 511 0 = 0 := by
  rw [reusedTable, Kern.insertNew_mem]
  refine ⟨?_, ?_⟩
  · rw [Mem.set_of_page_ne _ (by decide), Mem.set_of_ne _ (by decide), Mem.clear_of_ne _ (by decide), freedTable_dir,
      selfMapped_dir, if_pos rfl]
  · rw [Mem.set_of_ne _ (by decide), Mem.set_of_page_ne _ (by decide), Mem.clear_self _ (by decide)]

/-! ## The three calls -/

theorem target_511 : target (page2pa 511 ||| tableFlags) = some 511 := target_table (by decide)

theorem exec_selfMapped : (Op.insert 398 0 0 0x1ff000).exec ⟨{398}, smallBoot⟩ = .ok ⟨{398}, selfMapped⟩ := by
  have h := smallBoot_inv userIx
  have ho : target (smallBoot.mem 398 (pdx 0)) = none := by
    rw [smallBoot_mem]
    rfl
  exact Op.exec_insert (Kern.pageInsert_new (by decide) ho h.head (h.free_lt 511 List.mem_cons_self) (by decide) (by decide))

theorem exec_freedTable : (Op.insert 398 0 0 0).exec ⟨{398}, selfMapped⟩ = .ok ⟨{398}, freedTable⟩ := by
  have hn : 511 < selfMapped.npages := by
    rw [selfMapped_npages]
    decide
  have ht : target (selfMapped.mem 398 (pdx 0)) = some 511 := by
    rw [show pdx 0 = 0 from rfl, selfMapped_dir, if_pos rfl, target_511]
  have hd : ((selfMapped.setRef 0 (selfMapped.ref 0 + 1)).ref 511) - 1 = 0 →
      (selfMapped.setRef 0 (selfMapped.ref 0 + 1)).link 511 = none := fun _ => by
    rw [Kern.setRef_link, selfMapped_link]
  have hrem : (selfMapped.setRef 0 (selfMapped.ref 0 + 1)).pageRemove (kva 398) 0 =
      .ok ((((selfMapped.setRef 0 (selfMapped.ref 0 + 1)).dropRef 511).write 511 0 0).invlpg 0) :=
    Kern.pageRemove_table (s := selfMapped.setRef 0 (selfMapped.ref 0 + 1)) (by decide) ht hn (by decide)
      (show pgnum (selfMapped.mem 511 0) = 511 by rw [selfMapped_entry]; decide) hn (Kern.pageDecref_eq hd)
  refine Op.exec_insert (Kern.pageInsert_replace (Kern.pgdirWalk_present (by decide) ht hn) (by decide) ?_ hrem)
  rw [show ptx 0 = 0 from rfl, selfMapped_entry]
  decide

theorem exec_reusedTable : (Op.insert 398 0 0x401000 0).exec ⟨{398}, freedTable⟩ = .ok ⟨{398}, reusedTable⟩ := by
  have hn : 511 < freedTable.npages := by
    rw [freedTable_npages]
    decide
  have ho : target (freedTable.mem 398 (pdx 0x401000)) = none := by
    rw [show pdx 0x401000 = 1 from rfl, freedTable_dir, selfMapped_dir, if_neg (by decide), target_zero]
  exact Op.exec_insert (Kern.pageInsert_new (by decide) ho freedTable_chain.1.head hn (by decide) (by decide))

def Op.NoTable (c : Conf) : Op → Prop
  | insert _ p _ _ => p ∉ tables c.kern.mem c.dirs userIx
  | _ => True

theorem noTable {k : Kern} {va perm : Word} (h : ∀ i, k.mem 398 i = 0 ∨ k.mem 398 i = page2pa 511 ||| tableFlags) :
    (Op.insert 398 0 va perm).NoTable ⟨{398}, k⟩ := by
  intro ht
  obtain ⟨D, hD, i, _, ht⟩ := mem_tables.mp ht
  rw [Finset.mem_singleton.mp hD] at ht
  rcases h i with h | h
  · rw [h, target_zero] at ht
    cases ht
  · rw [h, target_511] at ht
    cases ht

theorem selfMapped_noTable (i : Nat) : selfMapped.mem 398 i = 0 ∨ selfMapped.mem 398 i = page2pa 511 ||| tableFlags := by
  rw [selfMapped_dir]
  split
  · exact Or.inr rfl
  · exact Or.inl rfl

theorem TlbStep.stores (ok : Conf → Op → Prop) (tlb : Nat → Option Word) {D : Nat} {c c' : Conf} {op : Op}
    (ho : ok c op) (he : op.exec c = .ok c') (hl : ∃ evs : List HwEvent, c'.kern.log = c.kern.log ++ evs ∧
      ∀ e ∈ evs.map HwEvent.onCpu, ∃ f, e = .write f) : TlbStep ok D (c, tlb) (c', tlb) := by
  obtain ⟨evs, hl, hw⟩ := hl
  have hs := TlbStep.mk op evs ho he hl (Exec.events (pageWalk D) (evs.map HwEvent.onCpu) ⟨c.kern.mem, tlb⟩)
  rw [foldl_write_tlb hw] at hs
  exact hs

theorem freedTable_log : freedTable.log =
    selfMapped.log ++ [HwEvent.store 511 0 0, .invlpg 0, .store 511 0 (page2pa 0 ||| 0 ||| pteP)] := by
  rw [freedTable, Kern.write_log, Kern.invlpg_log, Kern.write_log, Kern.dropRef_log, Kern.setRef_log]
  simp only [List.append_assoc, List.cons_append, List.nil_append]

theorem freedTable_pte : pte freedTable.mem 398 0 = some pteP := by
  have ht : target (freedTable.mem 398 (pdx 0)) = some 511 := by
    rw [show pdx 0 = 0 from rfl, freedTable_dir, selfMapped_dir, if_pos rfl, target_511]
  rw [pte_eq ht, show ptx 0 = 0 from rfl, freedTable_entry]
  rfl

theorem freedTable_fill (ok : Conf → Op → Prop) (ho : ok ⟨{398}, selfMapped⟩ (.insert 398 0 0 0)) :
    ∃ tlb, TlbStep ok 398 (⟨{398}, selfMapped⟩, fun _ => none) (⟨{398}, freedTable⟩, tlb) ∧ tlb (pgnum 0) = some pteP := by
  have hx := Exec.events (pageWalk 398)
    ([HwEvent.store 511 0 0, .invlpg 0, .store 511 0 (page2pa 0 ||| 0 ||| pteP)].map HwEvent.onCpu)
    ⟨selfMapped.mem, fun _ => none⟩
  refine ⟨_, .mk _ _ ho exec_freedTable freedTable_log (hx.fill_last (v := pgnum 0) (w := pteP) ?_),
    Function.update_self ..⟩
  rw [pageWalk_pgnum, ← freedTable_pte, freedTable_mem, ← Mem.set_set]
  rfl

end Jos
