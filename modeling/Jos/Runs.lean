import Jos.Ops
import Jos.PageInit
import Mathlib.Logic.Relation

/-!
# Runs of the page operations

A configuration is the state with the set of page directories in use. `Reach`
is every configuration that a sequence of operations leads to, each called as
its caller may (`Op.Valid`). `Op.Safe` is the condition under which the
operations keep the invariant: `page_remove` is not called at an unmapped
address whose page table exists, no new mapping finds the 16-bit count of its
page at the largest value, and `perm` has no bit of an address, which
`page_insert` would or into the entry.
-/

namespace Jos

open IntrusiveList

structure Conf where
  dirs : Finset Nat
  kern : Kern

inductive Op where
  | alloc (flags : Word)
  | free (p : Nat)
  /-- The caller takes a zeroed page it holds as a page directory. -/
  | newDir (D : Nat)
  | walk (D : Nat) (va : Word) (create : Bool)
  | insert (D p : Nat) (va perm : Word)
  | remove (D : Nat) (va : Word)

def Kern.onFree (s : Kern) (p : Nat) : Prop := Linked s.link s.pageFreeList p

namespace Op

def exec (c : Conf) : Op → Except Panic Conf
  | alloc flags => do
    let (_, k) ← c.kern.pageAlloc flags
    return { c with kern := k }
  | free p => do
    let k ← c.kern.pageFree p
    return { c with kern := k }
  | newDir D => return { c with dirs := Insert.insert D c.dirs }
  | walk D va create => do
    let (_, k) ← c.kern.pgdirWalk (kva D) va create
    return { c with kern := k }
  | insert D p va perm => do
    let (_, k) ← c.kern.pageInsert (kva D) p va perm
    return { c with kern := k }
  | remove D va => do
    let k ← c.kern.pageRemove (kva D) va
    return { c with kern := k }

theorem exec_alloc {c : Conf} {f : Word} {r : Option Nat} {k : Kern} (h : c.kern.pageAlloc f = .ok (r, k)) :
    (alloc f).exec c = .ok { c with kern := k } := by
  rw [exec, h]
  rfl

theorem exec_walk {c : Conf} {D : Nat} {va : Word} {create : Bool} {r : Option Word} {k : Kern}
    (h : c.kern.pgdirWalk (kva D) va create = .ok (r, k)) : (walk D va create).exec c = .ok { c with kern := k } := by
  rw [exec, h]
  rfl

theorem exec_insert {c : Conf} {D p : Nat} {va perm : Word} {r : Int} {k : Kern}
    (h : c.kern.pageInsert (kva D) p va perm = .ok (r, k)) : (insert D p va perm).exec c = .ok { c with kern := k } := by
  rw [exec, h]
  rfl

theorem exec_remove {c : Conf} {D : Nat} {va : Word} {k : Kern} (h : c.kern.pageRemove (kva D) va = .ok k) :
    (remove D va).exec c = .ok { c with kern := k } := by
  rw [exec, h]
  rfl

/-- What the caller owes. A directory page is never freed, and only a directory in `own`,
whose page is reserved, may be mapped. -/
def Valid (own : Finset Nat) (c : Conf) : Op → Prop
  | alloc _ => True
  | free p => p < c.kern.npages ∧ c.kern.ref p = 0 ∧ ¬ c.kern.onFree p ∧ p ∉ c.dirs
  | newDir D => D < c.kern.npages ∧ c.kern.ref D = 0 ∧ ¬ c.kern.onFree D ∧ ∀ i < npdentries, c.kern.mem D i = 0
  | walk D va _ => D ∈ c.dirs ∧ va < utop
  | insert D p va _ => D ∈ c.dirs ∧ va < utop ∧ p < c.kern.npages ∧ ¬ c.kern.onFree p ∧ (p ∈ c.dirs → p ∈ own)
  | remove D va => D ∈ c.dirs ∧ va < utop

/-- `page_insert` of `p` at `va` does not push the count of `p` over its 16 bits. -/
def Room (s : Kern) (D p : Nat) (va : Word) : Prop :=
  (s.ref p).toNat < 65535 ∨ mapped s.mem D va = some p ∨
    (target (s.mem D (pdx va)) = none ∧ s.pageFreeList = none)

/-- `page_remove` meets no page table, or a present entry. -/
def Removable (s : Kern) (D : Nat) (va : Word) : Prop :=
  target (s.mem D (pdx va)) = none ∨ mapped s.mem D va ≠ none

/-- `perm` is below the address bits, and a new mapping has room. -/
def InsertFits (c : Conf) : Op → Prop
  | insert D p va perm => perm.toNat < 4096 ∧ Room c.kern D p va
  | _ => True

def AtMapped (c : Conf) : Op → Prop
  | remove D va => mapped c.kern.mem D va ≠ none
  | _ => True

def Safe (c : Conf) : Op → Prop
  | insert D p va perm => perm.toNat < 4096 ∧ Room c.kern D p va
  | remove D va => Removable c.kern D va
  | _ => True

theorem safe_of {c : Conf} {op : Op} (hm : op.AtMapped c) (hf : op.InsertFits c) : op.Safe c := by
  cases op with
  | insert D p va perm => exact hf
  | remove D va => exact Or.inr hm
  | _ => trivial

theorem Valid.mono {own own' : Finset Nat} {c : Conf} {op : Op} (h : op.Valid own c) (ho : own ⊆ own') :
    op.Valid own' c := by
  cases op with
  | insert D p va perm =>
    obtain ⟨hD, hva, hp, hf, hd⟩ := h
    exact ⟨hD, hva, hp, hf, fun hpd => ho (hd hpd)⟩
  | _ => exact h

end Op

inductive Step (ok : Conf → Op → Prop) : Conf → Conf → Prop
  | mk {c c' : Conf} (op : Op) : ok c op → op.exec c = .ok c' → Step ok c c'

def Reach (ok : Conf → Op → Prop) : Conf → Conf → Prop := Relation.ReflTransGen (Step ok)

theorem Reach.mono {ok ok' : Conf → Op → Prop} {c c' : Conf} (hr : Reach ok c c') (h : ∀ c op, ok c op → ok' c op) :
    Reach ok' c c' := by
  refine Relation.ReflTransGen.mono ?_ _ _ hr
  rintro _ _ ⟨op, ho, he⟩
  exact ⟨op, h _ op ho, he⟩

/-! ## Where runs start -/

/-- `page_init` has taken zeroed descriptors `s₀` to `s`; the directories lie on pages that it
left off the free list, with no entry at the indices `ix`. -/
structure Boot (ix : Finset Nat) (s₀ s : Kern) (firstFree : Word) (dirs : Finset Nat) : Prop where
  npages_le : s₀.npages ≤ 65536
  zeroed : ∀ p, s₀.pages p = ⟨none, 0⟩
  init : s₀.pageInit = .ok s
  firstFree_eq : paddr (s₀.bootAlloc 0).1 = .ok firstFree
  dir_page : ∀ D ∈ dirs, D < s₀.npages ∧ ¬ s.onFree D
  dir_zero : ∀ D ∈ dirs, ∀ i ∈ ix, s₀.mem D i = 0

/-- The reserved pages hold one reference from outside. -/
def bootRefs (firstFree : Word) (p : Nat) : Nat := if reserved firstFree p then 1 else 0

section
variable {ix dirs : Finset Nat} {s₀ s : Kern} {ff : Word}

theorem Boot.loop (h : Boot ix s₀ s ff dirs) : Kern.InitLoop ff s₀ s₀.npages s := by
  obtain ⟨ff', hf, hl⟩ := Kern.pageInit_spec h.zeroed h.init
  rw [h.firstFree_eq, Except.ok.injEq] at hf
  exact hf ▸ hl

theorem Boot.onFree (h : Boot ix s₀ s ff dirs) (p : Nat) : s.onFree p ↔ p < s₀.npages ∧ ¬ reserved ff p := by
  rw [Kern.onFree, h.loop.chain.linked_iff, mem_initFree]

theorem Boot.dir_reserved (h : Boot ix s₀ s ff dirs) {D : Nat} (hD : D ∈ dirs) : reserved ff D := by
  obtain ⟨hn, hf⟩ := h.dir_page D hD
  by_contra hr
  exact hf ((h.onFree D).mpr ⟨hn, hr⟩)

theorem Boot.of_reserved (hn : s₀.npages ≤ 65536) (hz : ∀ p, s₀.pages p = ⟨none, 0⟩) (hi : s₀.pageInit = .ok s)
    (hf : paddr (s₀.bootAlloc 0).1 = .ok ff) (hd : ∀ D ∈ dirs, D < s₀.npages ∧ reserved ff D)
    (h0 : ∀ D ∈ dirs, ∀ i ∈ ix, s₀.mem D i = 0) : Boot ix s₀ s ff dirs := by
  refine ⟨hn, hz, hi, hf, fun D hD => ⟨(hd D hD).1, ?_⟩, h0⟩
  obtain ⟨ff', hf', hl⟩ := Kern.pageInit_spec hz hi
  rw [hf, Except.ok.injEq] at hf'
  subst hf'
  rw [Kern.onFree, hl.chain.linked_iff, mem_initFree]
  exact fun hm => hm.2 (hd D hD).2

theorem Boot.inv (h : Boot ix s₀ s ff dirs) : Inv dirs ix (bootRefs ff) s (initFree ff s₀.npages) := by
  have hl := h.loop
  have hd : ∀ D ∈ dirs, ∀ i ∈ ix, target (s.mem D i) = none := fun D hD i hi => by
    rw [hl.mem, h.dir_zero D hD i hi, target_zero]
  obtain ⟨ht, hr⟩ := refs_empty hd
  have hn : s.npages = s₀.npages := hl.npages
  refine ⟨hn ▸ h.npages_le, hl.chain, ?_, ?_, fun p _ => hl.link_none p, ?_, ?_, fun D _ _ => hr D, ?_, ?_, ?_, ?_, ?_⟩
  · intro p hp; rw [hn]; exact (mem_initFree.mp hp).1
  · intro p hp; rw [hl.ref, if_neg fun e => (mem_initFree.mp hp).2 e.2]
  · intro D hD; have := (h.dir_page D hD).1; have := h.npages_le; omega
  · intro D hD hm; exact (h.dir_page D hD).2 ((hl.chain.linked_iff).mpr hm)
  · rw [ht]; intro T hT; cases hT
  · rw [ht]; intro T hT; cases hT
  · intro D hD D' _ i hi i' _ T h1 _
    rw [hd D hD i hi] at h1; cases h1
  · rw [ht]; intro T hT; cases hT
  · intro p hp
    rw [hn] at hp
    rw [hl.ref, hr, bootRefs]
    by_cases hrp : reserved ff p <;> simp [hrp, hp]

end

/-! ## One step, and a whole run -/

/-- The ways a safe step can go, with the free list before and after it. -/
inductive Effect (ix : Finset Nat) (c : Conf) (free : List Nat) : Conf → List Nat → Prop
  | refl : Effect ix c free c free
  | alloc {p : Nat} {t : List Nat} (flags : Word) (took : free = p :: t) :
      Effect ix c free { c with kern := if flags = 0 then c.kern.pop p else (c.kern.pop p).clear p } t
  | free {p : Nat} (off : p ∉ free) : Effect ix c free { c with kern := c.kern.push p } (p :: free)
  | newDir {D : Nat} (off : D ∉ free) (empty : ∀ i ∈ ix, target (c.kern.mem D i) = none) :
      Effect ix c free { c with dirs := insert D c.dirs } free
  | walk {D T : Nat} {va : Word} {s' : Kern} {free' : List Nat} (dir : D ∈ c.dirs) (idx : pdx va ∈ ix)
      (walks : WalkTo D va c.kern free T s' free') : Effect ix c free { c with kern := s' } free'
  | map {D T p : Nat} {va : Word} {s' : Kern} {free' : List Nat} (v : Word) (dir : D ∈ c.dirs) (idx : pdx va ∈ ix)
      (walks : WalkTo D va c.kern free T s' free') :
      Effect ix c free { c with kern := (s'.setRef p (s'.ref p + 1)).write T (ptx va) v } free'
  | remap {D T : Nat} {va : Word} {t : Kern} {free' : List Nat} (v : Word) (dir : D ∈ c.dirs) (idx : pdx va ∈ ix)
      (table : target (c.kern.mem D (pdx va)) = some T) (cleared : t.mem = c.kern.mem.set T (ptx va) 0) :
      Effect ix c free { c with kern := t.write T (ptx va) v } free'
  | unmap {D T q : Nat} {va : Word} (dir : D ∈ c.dirs) (idx : pdx va ∈ ix)
      (table : target (c.kern.mem D (pdx va)) = some T) (entry : target (c.kern.mem T (ptx va)) = some q) :
      Effect ix c free { c with kern := ((c.kern.dropRef q).write T (ptx va) 0).invlpg va } (Inv.dropFree c.kern free q)

theorem Effect.dirs {ix : Finset Nat} {c c' : Conf} {free free' : List Nat} {E : Nat} (he : Effect ix c free c' free')
    (hE : E ∈ c'.dirs) : E ∈ c.dirs ∨ ∀ i ∈ ix, target (c'.kern.mem E i) = none := by
  cases he with
  | newDir off empty =>
    rcases Finset.mem_insert.mp hE with rfl | hE
    · exact Or.inr empty
    · exact Or.inl hE
  | _ => exact Or.inl hE

section
variable {own ix : Finset Nat} {held : Nat → Nat} {free : List Nat} {c c' : Conf}
  (hix : ∀ i < 955, i ∈ ix) (hle : ∀ i ∈ ix, i < npdentries) (hown : ∀ D ∈ own, 0 < held D)
include hix hle hown

/-- A step called as it may be, and safely, does not panic and keeps the invariant. -/
theorem exec_effect (h : Inv c.dirs ix held c.kern free) (op : Op) (hv : op.Valid own c) (hs : op.Safe c) :
    ∃ c' free', op.exec c = .ok c' ∧ Effect ix c free c' free' ∧ Inv c'.dirs ix held c'.kern free' ∧
      c'.kern.npages = c.kern.npages := by
  have hfree : ∀ p, c.kern.onFree p ↔ p ∈ free := fun p => h.chain.linked_iff
  cases op with
  | alloc flags =>
    cases free with
    | nil => exact ⟨c, [], Op.exec_alloc (h.alloc_nil flags), .refl, h, rfl⟩
    | cons p t =>
      refine ⟨_, t, Op.exec_alloc (h.alloc_cons flags), .alloc flags rfl, h.alloc_inv flags, ?_⟩
      dsimp only
      split <;> rfl
  | free p =>
    obtain ⟨hp, hr, hf, hd⟩ := hv
    rw [hfree] at hf
    exact ⟨{ c with kern := c.kern.push p }, p :: free, by rw [Op.exec, h.free_ok hp hf hr]; rfl, .free hf,
      h.push hp hf hr hd, rfl⟩
  | newDir D =>
    obtain ⟨hp, hr, hf, hz⟩ := hv
    rw [hfree] at hf
    have h0 := h.refs_eq D hp
    rw [hr] at h0
    simp only [BitVec.ofNat_eq_ofNat, BitVec.toNat_ofNat, Nat.zero_mod] at h0
    have := h.npages_le
    have he : ∀ i ∈ ix, target (c.kern.mem D i) = none := fun i hi => by rw [hz i (hle i hi), target_zero]
    refine ⟨{ c with dirs := insert D c.dirs }, free, rfl, .newDir hf he,
      h.newDir (by omega) hf (fun _ => by omega) (fun hT => ?_) he, rfl⟩
    have := refs_table hT
    omega
  | walk D va create =>
    obtain ⟨hD, hva⟩ := hv
    have hi := hix _ (pdx_of_lt_utop hva)
    cases create with
    | false =>
      refine ⟨c, free, ?_, .refl, h, rfl⟩
      cases ht : target (c.kern.mem D (pdx va)) with
      | none => exact Op.exec_walk (Kern.pgdirWalk_absent (h.dir_lt D hD) ht)
      | some T => exact Op.exec_walk (h.wf.walk_present hD hi ht false)
    | true =>
      rcases h.wf.walk_create hD hi with ⟨_, _, he⟩ | ⟨T, s', free', hw, he⟩
      · exact ⟨c, free, Op.exec_walk he, .refl, h, rfl⟩
      · obtain ⟨h', _, hn⟩ := h.walkTo_inv hD hi hw
        exact ⟨{ c with kern := s' }, free', Op.exec_walk he, .walk hD hi hw, h', hn⟩
  | insert D p va perm =>
    obtain ⟨hD, hva, hp, hf, hd⟩ := hv
    obtain ⟨hperm, hroom⟩ := hs
    rw [hfree] at hf
    have hi := hix _ (pdx_of_lt_utop hva)
    have hr : (c.kern.ref p).toNat < 65535 ∨ mapped c.kern.mem D va = some p ∨
        (target (c.kern.mem D (pdx va)) = none ∧ free = []) := by
      refine Or.imp_right (Or.imp_right fun hn => ⟨hn.1, ?_⟩) hroom
      have := h.head
      rw [hn.2, eq_comm, List.head?_eq_none_iff] at this
      exact this
    rcases h.insert_cases hD hi hp hf hperm (fun hpd => hown p (hd hpd)) hr with
      ⟨_, _, he⟩ | ⟨T, s', free', hw, _, he, h'⟩ | ⟨T, q, t, free', ht, _, hm, _, hn, he, h'⟩
    · exact ⟨c, free, Op.exec_insert he, .refl, h, rfl⟩
    · exact ⟨_, free', Op.exec_insert he, .map _ hD hi hw, h', (h.walkTo_inv hD hi hw).2.2⟩
    · exact ⟨_, free', Op.exec_insert he, .remap _ hD hi ht hm, h', hn⟩
  | remove D va =>
    obtain ⟨hD, hva⟩ := hv
    have hi := hix _ (pdx_of_lt_utop hva)
    cases ht : target (c.kern.mem D (pdx va)) with
    | none => exact ⟨c, free, Op.exec_remove (h.remove_absent hD ht), .refl, h, rfl⟩
    | some T =>
      rcases hs with hs | hs
      · rw [ht] at hs
        cases hs
      · rw [mapped_eq ht] at hs
        obtain ⟨q, hq⟩ := Option.ne_none_iff_exists'.mp hs
        obtain ⟨he, h'⟩ := h.remove_mapped hD hi ht hq
        refine ⟨{ c with kern := ((c.kern.dropRef q).write T (ptx va) 0).invlpg va }, _,
          Op.exec_remove he, .unmap hD hi ht hq, h', ?_⟩
        simp only [Kern.invlpg_npages, Kern.write_npages, Kern.dropRef_npages]

theorem step_effect {ok : Conf → Op → Prop} (hok : ∀ c op, ok c op → op.Valid own c ∧ op.Safe c)
    (h : Inv c.dirs ix held c.kern free) (hs : Step ok c c') : ∃ free', Effect ix c free c' free' ∧
      Inv c'.dirs ix held c'.kern free' ∧ c'.kern.npages = c.kern.npages := by
  obtain ⟨op, ho, he⟩ := hs
  obtain ⟨hv, hs⟩ := hok _ op ho
  obtain ⟨c'', free', he', heff, h', hn⟩ := exec_effect hix hle hown h op hv hs
  rw [he, Except.ok.injEq] at he'
  subst he'
  exact ⟨free', heff, h', hn⟩

/-- **Runs keep the invariant**, as long as every step is safe. -/
theorem run_inv {ok : Conf → Op → Prop} (hok : ∀ c op, ok c op → op.Valid own c ∧ op.Safe c)
    (h : Inv c.dirs ix held c.kern free) (hr : Reach ok c c') :
    ∃ free', Inv c'.dirs ix held c'.kern free' ∧ c'.kern.npages = c.kern.npages := by
  induction hr with
  | refl => exact ⟨free, h, rfl⟩
  | tail _ hst ih =>
    obtain ⟨free', h', hn⟩ := ih
    obtain ⟨free'', _, h'', hn'⟩ := step_effect hix hle hown hok h' hst
    exact ⟨free'', h'', hn'.trans hn⟩

end

/-! ## A page taken, mapped and removed -/

/-- Three calls: `page_alloc` returns `p`, `page_insert` maps it at `va`, where there is no page table, and `page_remove`
frees it again. -/
structure RoundTrip (c : Conf) (D p : Nat) (va perm : Word) (k₁ k₂ k₃ : Kern) : Prop where
  alloc : c.kern.pageAlloc 0 = .ok (some p, k₁)
  insert : k₁.pageInsert (kva D) p va perm = .ok (0, k₂)
  remove : k₂.pageRemove (kva D) va = .ok k₃
  canInsert : (Op.insert D p va perm).Valid ∅ ⟨c.dirs, k₁⟩ ∧ (Op.insert D p va perm).InsertFits ⟨c.dirs, k₁⟩
  canRemove : (Op.remove D va).Valid ∅ ⟨c.dirs, k₂⟩ ∧ (Op.remove D va).AtMapped ⟨c.dirs, k₂⟩

section
variable {ix : Finset Nat} {held : Nat → Nat} {c : Conf} {k₁ k₂ k₃ : Kern} {D p T : Nat} {t : List Nat} {va perm : Word}

theorem Inv.roundTrip (h : Inv c.dirs ix held c.kern (p :: T :: t)) (hD : D ∈ c.dirs) (hi : pdx va ∈ ix)
    (hva : va < utop) (ho : target (c.kern.mem D (pdx va)) = none) (hperm : perm.toNat < 4096) :
    ∃ k₁ k₂ k₃, RoundTrip c D p va perm k₁ k₂ k₃ ∧ Inv c.dirs ix held k₁ (T :: t) ∧ Inv c.dirs ix held k₂ t ∧
      Inv c.dirs ix held k₃ (p :: t) ∧ pte k₂.mem D va = some (page2pa p ||| perm ||| pteP) ∧ k₂.ref p = 1 ∧
      k₂.npages = c.kern.npages := by
  have hpd : p ∉ c.dirs := fun hm => h.dir_free p hm List.mem_cons_self
  have hpf : p ∉ T :: t := (List.nodup_cons.mp h.chain.nodup).1
  have hlt := h.free_lt p List.mem_cons_self
  have h₁ := h.pop
  have hroom : ((c.kern.pop p).ref p).toNat < 65535 := by
    rw [Kern.pop_ref, h.free_ref p List.mem_cons_self]
    decide
  obtain ⟨k, hins, h₂, hk, href⟩ := h.insert_taken va perm hD hi hperm ho
  have htgt := h.target_perm' hlt hperm
  have hT : target (k.mem D (pdx va)) = some T := by
    have hTn := h.free_lt T (List.mem_cons_of_mem _ List.mem_cons_self)
    have := h.npages_le
    rw [hk.dir, if_pos rfl, target_table (by omega)]
  have hq : target (k.mem T (ptx va)) = some p := by rw [hk.entry _ (ptx_lt va), if_pos rfl, htgt]
  obtain ⟨hrem, h₃⟩ := h₂.remove_mapped hD hi hT hq
  rw [Inv.dropFree, href, if_pos (by decide)] at h₃
  refine ⟨c.kern.pop p, k, _, ⟨h.alloc_cons 0, hins, hrem, ⟨⟨hD, hva, hlt, ?_, ?_⟩, hperm, Or.inl hroom⟩, ⟨hD, hva⟩, ?_⟩,
    h₁, h₂, h₃, ?_, href, hk.npages⟩
  · rw [Kern.onFree, h₁.chain.linked_iff]
    exact hpf
  · exact fun hm => absurd hm hpd
  · rw [Op.AtMapped, mapped_eq hT, hq]
    exact Option.some_ne_none p
  · rw [pte_eq hT, hk.entry _ (ptx_lt va), if_pos rfl, present_of_target htgt]

theorem RoundTrip.reach (ok : Conf → Op → Prop) (h : RoundTrip c D p va perm k₁ k₂ k₃)
    (hok : ∀ c op, op.Valid ∅ c ∧ op.AtMapped c ∧ op.InsertFits c → ok c op) :
    Reach ok c ⟨c.dirs, k₂⟩ ∧ Reach ok c ⟨c.dirs, k₃⟩ := by
  have hs₁ : Step ok c ⟨c.dirs, k₁⟩ := ⟨.alloc 0, hok _ _ ⟨trivial, trivial, trivial⟩, Op.exec_alloc h.alloc⟩
  have hs₂ : Step ok ⟨c.dirs, k₁⟩ ⟨c.dirs, k₂⟩ := ⟨.insert D p va perm, hok _ _ ⟨h.canInsert.1, trivial, h.canInsert.2⟩, Op.exec_insert (c := ⟨c.dirs, k₁⟩) h.insert⟩
  have hs₃ : Step ok ⟨c.dirs, k₂⟩ ⟨c.dirs, k₃⟩ := ⟨.remove D va, hok _ _ ⟨h.canRemove.1, h.canRemove.2, trivial⟩, Op.exec_remove (c := ⟨c.dirs, k₂⟩) h.remove⟩
  have hr := (Relation.ReflTransGen.single hs₁).tail hs₂
  exact ⟨hr, hr.tail hs₃⟩

end

/-! ## A machine -/

theorem smallMachine_boots (ix : Finset Nat) {dirs : Finset Nat} (hd : ∀ D ∈ dirs, D = 398 ∨ D = 399) :
    Boot ix smallMachine smallBoot smallEnd dirs := by
  refine Boot.of_reserved (by decide) (fun _ => rfl) smallMachine_init smallMachine_end (fun D hD => ?_)
    (fun _ _ _ _ => rfl)
  rcases hd D hD with rfl | rfl
  · exact ⟨by decide, Or.inr ⟨by decide, by decide⟩⟩
  · exact ⟨by decide, Or.inr ⟨by decide, by decide⟩⟩

theorem smallMachine_boot (ix : Finset Nat) : Boot ix smallMachine smallBoot smallEnd {398} :=
  smallMachine_boots ix fun _ hD => Or.inl (Finset.mem_singleton.mp hD)

theorem smallBoot_npages : smallBoot.npages = 512 := (smallMachine_boot ∅).loop.npages

theorem smallBoot_mem : smallBoot.mem = fun _ _ => 0 := (smallMachine_boot ∅).loop.mem

theorem smallBoot_zero : ¬ smallBoot.onFree 0 ∧ (smallBoot.ref 0).toNat < 65535 := by
  have hb := smallMachine_boot ∅
  refine ⟨fun hf => ((hb.onFree 0).mp hf).2 (Or.inl rfl), ?_⟩
  rw [hb.loop.ref]
  split
  · decide
  · decide

theorem smallBoot_inv (ix : Finset Nat) :
    Inv {398} ix (bootRefs smallEnd) smallBoot (511 :: initFree smallEnd 511) := by
  rw [← smallBoot_head]
  exact (smallMachine_boot ix).inv

theorem smallBoot_ref {p : Nat} (hp : p < 512) : (smallBoot.ref p).toNat = bootRefs smallEnd p := by
  rw [(smallMachine_boot ∅).loop.ref, bootRefs]
  by_cases hr : reserved smallEnd p
  · rw [if_pos ⟨hp, hr⟩, if_pos hr]
    rfl
  · rw [if_neg fun e => hr e.2, if_neg hr]
    rfl

theorem smallBoot_roundTrip (ix : Finset Nat) (perm : Word) (hi : pdx 0 ∈ ix) (hperm : perm.toNat < 4096) :
    ∃ k₁ k₂ k₃, RoundTrip ⟨{398}, smallBoot⟩ 398 511 0 perm k₁ k₂ k₃ ∧
      Inv {398} ix (bootRefs smallEnd) k₁ (510 :: initFree smallEnd 510) ∧
      Inv {398} ix (bootRefs smallEnd) k₂ (initFree smallEnd 510) ∧
      Inv {398} ix (bootRefs smallEnd) k₃ (511 :: initFree smallEnd 510) ∧
      pte k₂.mem 398 0 = some (page2pa 511 ||| perm ||| pteP) ∧ k₂.ref 511 = 1 ∧ k₂.npages = 512 := by
  have h := smallBoot_inv ix
  rw [show initFree smallEnd 511 = _ from smallBoot_free (p := 510) (by decide) (by decide)] at h
  rw [← smallBoot_npages]
  refine h.roundTrip (c := ⟨{398}, smallBoot⟩) (Finset.mem_singleton_self 398) hi (by decide) ?_ hperm
  rw [smallBoot_mem]
  rfl

end Jos
