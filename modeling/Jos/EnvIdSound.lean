import Jos.Env
import Jos.Lib.Loop
import Jos.Runs

/-!
# Environment ids

An id is a uniqueifier and a slot. Each `env_alloc` of a slot adds one to its
uniqueifier, which starts over when the sum goes negative, after 524287
allocations. The history of a run lists the slot and the id of each allocation.
-/

namespace Jos

open IntrusiveList

namespace Sys

variable {lab3 : Kern → Nat → Except Panic (Word × Kern)} {s s' : Sys} {e i j n : Nat} {id : Word}

/-! ## The next id -/

def nextGen (c : Nat) : Nat := if c = 524287 then 1 else c + 1

theorem nextId_toNat {c r : Nat} (hid : id.toNat = c * 4096 + r) (hr : r < 1024) (hc : c ≤ 524287) (he : e < 1024) :
    (nextId id e).toNat = nextGen c * 4096 + e := by
  have hg : ((id + (1 : Word) <<< envgenshift) &&& ~~~(BitVec.ofNat 32 nenv - 1)).toNat = (c + 1) * 4096 := by
    rw [show BitVec.ofNat 32 nenv - 1 = BitVec.ofNat 32 (2 ^ 10 - 1) by decide, and_not_ones _ 10 (by decide),
      show (1 : Word) <<< envgenshift = 4096 by decide]
    simp only [BitVec.toNat_shiftLeft, BitVec.toNat_ushiftRight, Nat.shiftRight_eq_div_pow, Nat.shiftLeft_eq,
      BitVec.toNat_add, show (4096 : Word).toNat = 4096 from rfl]
    omega
  have hor : ∀ g : Nat, g ≤ 524287 → ∀ w : Word, w.toNat = g * 4096 → (w ||| BitVec.ofNat 32 e).toNat = g * 4096 + e := by
    intro g hg w hw
    have h1 : (BitVec.ofNat 32 e).toNat = e := by
      rw [BitVec.toNat_ofNat]
      omega
    rw [or_flags_toNat (by omega) (by omega), hw, h1]
  unfold nextId nextGen
  dsimp only
  generalize hw : (id + (1 : Word) <<< envgenshift) &&& ~~~(BitVec.ofNat 32 nenv - 1) = w at hg ⊢
  -- the sum is negative for the last uniqueifier only
  have hsle : w.sle 0 = decide (c = 524287) := by
    rw [BitVec.sle_eq_decide, BitVec.toInt_eq_toNat_cond, hg, show (0 : Word).toInt = 0 from rfl, decide_eq_decide]
    split
    · omega
    · omega
  rw [hsle]
  by_cases h : c = 524287
  · rw [if_pos (decide_eq_true h), if_pos h]
    exact hor 1 (by omega) _ (by decide)
  · rw [if_neg (by rw [decide_eq_true_eq]; exact h), if_neg h]
    exact hor (c + 1) (by omega) w hg

def slotId (e i : Nat) : Word := BitVec.ofNat 32 ((i % 524287 + 1) * 4096 + e)

def lastId (e : Nat) : Nat → Word
  | 0 => 0
  | n + 1 => slotId e n

theorem slotId_toNat (he : e < 1024) (i : Nat) : (slotId e i).toNat = (i % 524287 + 1) * 4096 + e := by
  rw [slotId, BitVec.toNat_ofNat]
  omega

theorem nextId_lastId (he : e < 1024) (n : Nat) : nextId (lastId e n) e = slotId e n := by
  apply BitVec.eq_of_toNat_eq
  rw [slotId_toNat he]
  cases n with
  | zero => exact nextId_toNat (c := 0) (r := 0) rfl (by omega) (by omega) he
  | succ n =>
    have hmod := Nat.mod_lt n (show 0 < 524287 by decide)
    rw [lastId, nextId_toNat (slotId_toNat he n) he (by omega) he, nextGen]
    split
    · omega
    · omega

theorem slotId_eq_iff (he : e < 1024) (hij : i ≤ j) : slotId e i = slotId e j ↔ 524287 ∣ j - i := by
  constructor
  · intro h
    have := congrArg BitVec.toNat h
    rw [slotId_toNat he, slotId_toNat he] at this
    omega
  · intro h
    apply BitVec.eq_of_toNat_eq
    rw [slotId_toNat he, slotId_toNat he]
    omega

theorem slotId_pos (he : e < 1024) (i : Nat) : 0 < (slotId e i).toInt := by
  have := slotId_toNat he i
  have := Nat.mod_lt i (show 0 < 524287 by decide)
  rw [BitVec.toInt_eq_toNat_cond]
  split
  · omega
  · omega

theorem envx_slotId (he : e < 1024) (i : Nat) : envx (slotId e i) = e := by
  rw [envx, BitVec.toNat_and, slotId_toNat he, show (BitVec.ofNat 32 nenv - 1).toNat = 2 ^ 10 - 1 by decide,
    Nat.and_two_pow_sub_one_eq_mod]
  omega

/-! ## What the operations change -/

theorem envSetupVm_cases {r : Int} (h : envSetupVm lab3 s e = .ok (r, s')) :
    ∃ (k : Kern) (pgdir : Word), s' = { s with kern := k }.setEnv e { s.envs e with envPgdir := pgdir } := by
  rw [envSetupVm] at h
  obtain ⟨⟨p, k⟩, _, h⟩ := bind_eq_ok.mp h
  cases p with
  | none =>
    dsimp only at h
    rw [pure_ok, Except.ok.injEq, Prod.mk.injEq] at h
    refine ⟨k, (s.envs e).envPgdir, ?_⟩
    rw [← h.2, setEnv]
    exact congrArg (fun x => { s with kern := k, envs := x }) (Function.update_eq_self e s.envs).symm
  | some p =>
    dsimp only at h
    obtain ⟨⟨pgdir, k'⟩, _, h⟩ := bind_eq_ok.mp h
    obtain ⟨pa, _, h⟩ := bind_eq_ok.mp h
    obtain ⟨t, _, h⟩ := bind_eq_ok.mp h
    rw [pure_ok, Except.ok.injEq, Prod.mk.injEq] at h
    exact ⟨t, pgdir, h.2.symm⟩

theorem envAlloc_cases {r : Int} {o : Option Nat} {parentId : Word} (h : s.envAlloc lab3 parentId = .ok (r, o, s')) :
    (o = none ∧ s'.envFreeList = s.envFreeList ∧ ∀ x, (s'.envs x).envId = (s.envs x).envId ∧
      (s'.envs x).envStatus = (s.envs x).envStatus ∧ (s'.envs x).envLink = (s.envs x).envLink) ∨
    (∃ e, o = some e ∧ s.envFreeList = some e ∧ s'.envFreeList = (s.envs e).envLink ∧
      (∀ x, x ≠ e → s'.envs x = s.envs x) ∧ (s'.envs e).envId = nextId (s.envs e).envId e ∧
      (s'.envs e).envStatus = .runnable ∧ (s'.envs e).envLink = (s.envs e).envLink) := by
  rw [envAlloc] at h
  cases hf : s.envFreeList with
  | none =>
    rw [hf, Except.ok.injEq, Prod.mk.injEq, Prod.mk.injEq] at h
    obtain ⟨_, ho, hs⟩ := h
    subst hs
    exact Or.inl ⟨ho.symm, hf, fun x => ⟨rfl, rfl, rfl⟩⟩
  | some e =>
    rw [hf] at h
    obtain ⟨⟨r', t⟩, ht, h⟩ := bind_eq_ok.mp h
    obtain ⟨k, pgdir, ht⟩ := envSetupVm_cases ht
    dsimp only at h
    by_cases hr : r' < 0
    · rw [if_pos hr, pure_ok, Except.ok.injEq, Prod.mk.injEq, Prod.mk.injEq] at h
      obtain ⟨_, ho, hs⟩ := h
      subst hs
      refine Or.inl ⟨ho.symm, by rw [ht]; exact hf, fun x => ?_⟩
      rw [ht, setEnv]
      by_cases hx : x = e
      · subst hx
        simp only [Function.update_self, and_self]
      · simp only [Function.update_of_ne hx, and_self]
    · rw [if_neg hr, pure_ok, Except.ok.injEq, Prod.mk.injEq, Prod.mk.injEq] at h
      obtain ⟨_, ho, hs⟩ := h
      subst hs
      refine Or.inr ⟨e, ho.symm, rfl, ?_, fun x hx => ?_, ?_, ?_, ?_⟩
      · simp only [cprintf, setEnv, ht, Function.update_self]
      · simp only [cprintf, setEnv, ht, Function.update_of_ne hx]
      · simp only [cprintf, setEnv, ht, Function.update_self]
      · simp only [cprintf, setEnv, ht, Function.update_self]
      · simp only [cprintf, setEnv, ht, Function.update_self]

/-! ## Runs -/

abbrev History := List (Nat × Word)

def ids (hist : History) (e : Nat) : List Word := (hist.filter fun x => x.1 = e).map Prod.snd

theorem ids_self (hist : History) (e : Nat) (id : Word) : ids (hist ++ [(e, id)]) e = ids hist e ++ [id] := by
  simp [ids]

theorem ids_of_ne (hist : History) {e x : Nat} (h : x ≠ e) (id : Word) : ids (hist ++ [(e, id)]) x = ids hist x := by
  simp [ids, h.symm]

/-- A call of `env_alloc` or `env_free`; between calls memory and `curenv` may change. -/
inductive EnvStep (lab3 : Kern → Nat → Except Panic (Word × Kern)) : History × Sys → History × Sys → Prop
  | alloc {hist : History} {s s' : Sys} {r : Int} {e : Nat} (parentId : Word) :
      s.envAlloc lab3 parentId = .ok (r, some e, s') → EnvStep lab3 (hist, s) (hist ++ [(e, (s'.envs e).envId)], s')
  | allocFail {hist : History} {s s' : Sys} {r : Int} (parentId : Word) :
      s.envAlloc lab3 parentId = .ok (r, none, s') → EnvStep lab3 (hist, s) (hist, s')
  | free {hist : History} {s s' : Sys} {e : Nat} : e < nenv → s.envFree e = .ok s' → EnvStep lab3 (hist, s) (hist, s')
  | other {hist : History} {s : Sys} (k : Kern) (c : Option Nat) :
      EnvStep lab3 (hist, s) (hist, { s with kern := k, curenv := c })

abbrev EnvRun (lab3 : Kern → Nat → Except Panic (Word × Kern)) : History × Sys → History × Sys → Prop :=
  Relation.ReflTransGen (EnvStep lab3)

/-- All slots are free, with id 0, and on the free list. -/
structure EnvInit (s : Sys) (l : List Nat) : Prop where
  chain : Chain (fun e => (s.envs e).envLink) s.envFreeList l
  mem : ∀ e, e ∈ l ↔ e < nenv
  free : ∀ e < nenv, (s.envs e).envStatus = .free
  id : ∀ e < nenv, (s.envs e).envId = 0

/-- The free list stays in the table, and every id is the one its position in the history says. -/
structure IdInv (hist : History) (s : Sys) : Prop where
  head_lt : ∀ e, s.envFreeList = some e → e < nenv
  link_lt : ∀ e < nenv, ∀ l, (s.envs e).envLink = some l → l < nenv
  id : ∀ e < nenv, (s.envs e).envId = lastId e (ids hist e).length
  given : ∀ x ∈ hist, x.1 < nenv
  ids : ∀ (e i : Nat) (id : Word), (ids hist e)[i]? = some id → id = slotId e i

theorem EnvInit.inv {l : List Nat} (h : EnvInit s l) : IdInv [] s := by
  have hlink : ∀ (m : List Nat) (hd : Option Nat), Chain (fun e => (s.envs e).envLink) hd m → (∀ e ∈ m, e < nenv) →
      (∀ e, hd = some e → e < nenv) ∧ ∀ e ∈ m, ∀ x, (s.envs e).envLink = some x → x < nenv := by
    intro m
    induction m with
    | nil =>
      intro hd hc _
      rw [chain_nil] at hc
      subst hc
      exact ⟨fun e he => (by cases he), fun e he => (by cases he)⟩
    | cons a m ih =>
      intro hd hc hlt
      obtain ⟨hh, hc⟩ := chain_cons.mp hc
      obtain ⟨h1, h2⟩ := ih _ hc fun e he => hlt e (List.mem_cons_of_mem _ he)
      refine ⟨fun e he => ?_, fun e he x hx => ?_⟩
      · rw [hh, Option.some.injEq] at he
        exact he ▸ hlt a List.mem_cons_self
      · rcases List.mem_cons.mp he with rfl | he
        · exact h1 x hx
        · exact h2 e he x hx
  obtain ⟨h1, h2⟩ := hlink l _ h.chain fun e he => (h.mem e).mp he
  refine ⟨h1, fun e he => h2 e ((h.mem e).mpr he), h.id, fun x hx => ?_, fun e i id hi => ?_⟩
  · cases hx
  · cases hi

theorem IdInv.alloc {hist : History} (h : IdInv hist s) (hf : s.envFreeList = some e)
    (hf' : s'.envFreeList = (s.envs e).envLink) (hx : ∀ x, x ≠ e → s'.envs x = s.envs x)
    (hid : (s'.envs e).envId = nextId (s.envs e).envId e) (hl : (s'.envs e).envLink = (s.envs e).envLink) :
    IdInv (hist ++ [(e, (s'.envs e).envId)]) s' := by
  have he := h.head_lt e hf
  have hslot : (s'.envs e).envId = slotId e (Sys.ids hist e).length := by
    rw [hid, h.id e he, nextId_lastId he]
  refine ⟨fun x hx' => ?_, fun x hxn y hy => ?_, fun x hxn => ?_, fun x hxm => ?_, fun x i id hi => ?_⟩
  · rw [hf'] at hx'
    exact h.link_lt e he x hx'
  · by_cases hxe : x = e
    · subst hxe
      rw [hl] at hy
      exact h.link_lt x he y hy
    · rw [hx x hxe] at hy
      exact h.link_lt x hxn y hy
  · by_cases hxe : x = e
    · subst hxe
      rw [ids_self, List.length_append, List.length_singleton]
      exact hslot
    · rw [ids_of_ne _ hxe, hx x hxe]
      exact h.id x hxn
  · rcases List.mem_append.mp hxm with hxm | hxm
    · exact h.given x hxm
    · rw [List.mem_singleton.mp hxm]
      exact he
  · by_cases hxe : x = e
    · subst hxe
      rw [ids_self] at hi
      by_cases hlt : i < (Sys.ids hist x).length
      · rw [List.getElem?_append_left hlt] at hi
        exact h.ids x i id hi
      · rw [List.getElem?_append_right (Nat.not_lt.mp hlt), List.getElem?_singleton] at hi
        split at hi
        · rename_i h0
          have : i = (Sys.ids hist x).length := by omega
          rw [this, ← hslot]
          exact (Option.some.inj hi).symm
        · cases hi
    · rw [ids_of_ne _ hxe] at hi
      exact h.ids x i id hi

theorem IdInv.step {hist hist' : History} (h : IdInv hist s) (hs : EnvStep lab3 (hist, s) (hist', s')) :
    IdInv hist' s' := by
  cases hs with
  | alloc parentId ha =>
    rcases envAlloc_cases ha with ⟨ho, _⟩ | ⟨e, ho, hf, hf', hx, hid, _, hl⟩
    · cases ho
    · cases ho
      exact h.alloc hf hf' hx hid hl
  | allocFail parentId ha =>
    rcases envAlloc_cases ha with ⟨_, hf, hx⟩ | ⟨e, ho, _⟩
    · refine ⟨fun e he => h.head_lt e (hf ▸ he), fun e he l hl => ?_, fun e he => ?_, h.given, h.ids⟩
      · rw [(hx e).2.2] at hl
        exact h.link_lt e he l hl
      · rw [(hx e).1]
        exact h.id e he
    · cases ho
  | free he hfree =>
    rename_i e
    obtain ⟨k, rfl⟩ := envFree_cases hfree
    refine ⟨fun x hx => ?_, fun x hxn l hl => ?_, fun x hxn => ?_, h.given, h.ids⟩
    · rw [putFree_envFreeList, Option.some.injEq] at hx
      exact hx ▸ he
    · rw [putFree_envs] at hl
      by_cases hxe : x = e
      · subst hxe
        rw [Function.update_self] at hl
        exact h.head_lt l hl
      · rw [Function.update_of_ne hxe] at hl
        exact h.link_lt x hxn l hl
    · rw [putFree_envs]
      by_cases hxe : x = e
      · subst hxe
        rw [Function.update_self]
        exact h.id x hxn
      · rw [Function.update_of_ne hxe]
        exact h.id x hxn
  | other k c => exact ⟨h.head_lt, h.link_lt, h.id, h.given, h.ids⟩

theorem IdInv.run {x y : History × Sys} (h : IdInv x.1 x.2) (hr : EnvRun lab3 x y) : IdInv y.1 y.2 := by
  induction hr with
  | refl => exact h
  | tail _ hs ih => exact ih.step hs

theorem free_step {hist hist' : History} (hf : (s.envs e).envStatus = .free)
    (hs : EnvStep lab3 (hist, s) (hist', s')) :
    (ids hist' e).length = (ids hist e).length + 1 ∨ (ids hist' e = ids hist e ∧ (s'.envs e).envStatus = .free) := by
  cases hs with
  | alloc parentId ha =>
    rcases envAlloc_cases ha with ⟨ho, _⟩ | ⟨a, ho, _, _, hx, _⟩
    · cases ho
    · obtain rfl := Option.some.inj ho.symm
      by_cases hae : e = a
      · subst hae
        rw [ids_self, List.length_append, List.length_singleton]
        exact Or.inl rfl
      · rw [ids_of_ne _ hae, hx e hae]
        exact Or.inr ⟨rfl, hf⟩
  | allocFail parentId ha =>
    rcases envAlloc_cases ha with ⟨_, _, hx⟩ | ⟨a, ho, _⟩
    · exact Or.inr ⟨rfl, (hx e).2.1.trans hf⟩
    · cases ho
  | free he hfr =>
    rename_i a
    obtain ⟨k, rfl⟩ := envFree_cases hfr
    refine Or.inr ⟨rfl, ?_⟩
    rw [putFree_envs]
    by_cases hae : e = a
    · subst hae
      rw [Function.update_self]
    · rw [Function.update_of_ne hae]
      exact hf
  | other k c => exact Or.inr ⟨rfl, hf⟩

theorem ids_step {x y : History × Sys} (e : Nat) (hs : EnvStep lab3 x y) :
    (ids x.1 e).length ≤ (ids y.1 e).length := by
  cases hs with
  | alloc parentId ha =>
    rw [ids, ids, List.filter_append, List.map_append, List.length_append]
    exact Nat.le_add_right _ _
  | allocFail parentId ha => exact Nat.le_refl _
  | free he hfr => exact Nat.le_refl _
  | other k c => exact Nat.le_refl _

theorem free_run {x y : History × Sys} (hf : (x.2.envs e).envStatus = .free) (hr : EnvRun lab3 x y) :
    (ids x.1 e).length < (ids y.1 e).length ∨ (ids y.1 e = ids x.1 e ∧ (y.2.envs e).envStatus = .free) := by
  induction hr with
  | refl => exact Or.inr ⟨rfl, hf⟩
  | tail _ hs ih =>
    have hle := ids_step e hs
    rcases ih with hlt | ⟨hids, hst⟩
    · exact Or.inl (Nat.lt_of_lt_of_le hlt hle)
    · rcases free_step hst hs with h | ⟨h, h'⟩
      · refine Or.inl ?_
        rw [← hids]
        exact Nat.lt_of_lt_of_eq (Nat.lt_succ_self _) h.symm
      · exact Or.inr ⟨h.trans hids, h'⟩

/-! ## `envid2env` -/

theorem envid2env_slotId {hist : History} (h : IdInv hist s) (he : e < nenv) (i : Nat) (hi : i < (ids hist e).length) :
    s.envid2env (slotId e i) false =
      if (s.envs e).envStatus = .free ∨ ¬ 524287 ∣ (ids hist e).length - 1 - i then .ok (-eBadEnv, none)
      else .ok (0, some e) := by
  have hne : slotId e i ≠ 0 := fun h0 => by
    have := slotId_pos he i
    rw [h0] at this
    exact absurd this (by decide)
  obtain ⟨n, hn⟩ : ∃ n, (ids hist e).length = n + 1 := ⟨(ids hist e).length - 1, by omega⟩
  have hid : (s.envs e).envId ≠ slotId e i ↔ ¬ 524287 ∣ (ids hist e).length - 1 - i := by
    rw [h.id e he, hn, lastId, ne_eq, eq_comm, slotId_eq_iff he (by omega), Nat.add_sub_cancel]
  rw [envid2env, if_neg hne]
  simp only [envx_slotId he, hid, Bool.false_eq_true, false_and, if_false]

/-- From `s` on, the last id of slot `e` is unknown until the slot is allocated a multiple of 524287 times more. -/
def Stale (lab3 : Kern → Nat → Except Panic (Word × Kern)) (hist : History) (s : Sys) (e : Nat) (id : Word) : Prop :=
  ∀ (hist' : History) (t : Sys), EnvRun lab3 (hist, s) (hist', t) →
    ¬ ((ids hist e).length < (ids hist' e).length ∧ 524287 ∣ (ids hist' e).length - (ids hist e).length) →
    t.envid2env id false = .ok (-eBadEnv, none)

section
variable {hist : History} (h : IdInv hist s)
include h

theorem IdInv.lt_of_ids {i : Nat} {id : Word} (hi : (Sys.ids hist e)[i]? = some id) : e < nenv := by
  obtain ⟨x, hx, _⟩ := List.mem_map.mp (List.mem_of_getElem? hi)
  obtain ⟨hx, he⟩ := List.mem_filter.mp hx
  exact of_decide_eq_true he ▸ h.given x hx

theorem IdInv.last {id : Word} (hid : (Sys.ids hist e).getLast? = some id) :
    e < nenv ∧ 0 < (Sys.ids hist e).length ∧ id = slotId e ((Sys.ids hist e).length - 1) := by
  rw [List.getLast?_eq_getElem?] at hid
  have hlt := (List.getElem?_eq_some_iff.mp hid).1
  exact ⟨h.lt_of_ids hid, by omega, h.ids e _ id hid⟩

theorem IdInv.stale {id : Word} (hid : (Sys.ids hist e).getLast? = some id) (hst : (s.envs e).envStatus = .free) :
    Stale lab3 hist s e id := by
  intro hist' t hr hm
  obtain ⟨he, hpos, hid⟩ := h.last hid
  have h' : IdInv hist' t := IdInv.run (x := (hist, s)) (y := (hist', t)) h hr
  have hrun := free_run hst hr
  dsimp only at hrun
  have hlen : (Sys.ids hist e).length ≤ (Sys.ids hist' e).length := by
    rcases hrun with hlt | ⟨heq, _⟩
    · exact Nat.le_of_lt hlt
    · rw [heq]
  rw [hid, envid2env_slotId h' he _ (by omega), if_pos]
  rcases hrun with hlt | ⟨_, hst'⟩
  · refine Or.inr fun hd => hm ⟨hlt, ?_⟩
    have : (Sys.ids hist' e).length - 1 - ((Sys.ids hist e).length - 1) =
        (Sys.ids hist' e).length - (Sys.ids hist e).length := by omega
    rw [this] at hd
    exact hd
  · exact Or.inl hst'

end

/-- The rest of `env_setup_vm`: the new page becomes the directory, with one reference, and
takes the entries of `kern_pgdir` in page 398. -/
def copyPgdir (k : Kern) (p : Nat) : Except Panic (Word × Kern) := do
  let a ← k.page2kva p
  let k := k.setRef p (k.ref p + 1)
  return (a, (List.range npdentries).foldl (fun k i => k.write p i (k.mem 398 i)) k)

def firstSys : Sys where
  kern := smallBoot
  envs e := ⟨Trapframe.zero, if e + 1 < nenv then some (e + 1) else none, 0, 0, .user, .free, 0, 0⟩
  envFreeList := some 0
  curenv := none
  printed := []

theorem firstSys_chain (n : Nat) : ∀ k, k + (n + 1) = nenv →
    Chain (fun e => (firstSys.envs e).envLink) (some k) (List.range' k (n + 1)) := by
  induction n with
  | zero =>
    intro k hk
    refine ⟨rfl, ?_⟩
    show (if k + 1 < nenv then some (k + 1) else none) = none
    rw [if_neg (by omega)]
  | succ n ih =>
    intro k hk
    refine ⟨rfl, ?_⟩
    show Chain _ (if k + 1 < nenv then some (k + 1) else none) _
    rw [if_pos (by omega)]
    exact ih (k + 1) (by omega)

theorem firstSys_init : EnvInit firstSys (List.range' 0 nenv) := by
  refine ⟨firstSys_chain 1023 0 rfl, fun e => ?_, fun e _ => rfl, fun e _ => rfl⟩
  rw [List.mem_range'_1]
  omega

theorem copy_dir {k : Kern} {p : Nat} (hp : p ≠ 398) (n : Nat) : ∀ {t : Kern},
    (List.range n).foldl (fun k i => k.write p i (k.mem 398 i)) k = t →
    t.npages = k.npages ∧ t.pages = k.pages ∧ t.mem 398 = k.mem 398 ∧ ∀ i < n, t.mem p i = k.mem 398 i := by
  induction n with
  | zero =>
    rintro t rfl
    exact ⟨rfl, rfl, rfl, fun i hi => absurd hi (Nat.not_lt_zero i)⟩
  | succ n ih =>
    rintro t rfl
    obtain ⟨h1, h2, h3, h4⟩ := ih rfl
    rw [List.range_succ, List.foldl_append, List.foldl_cons, List.foldl_nil]
    refine ⟨h1, h2, ?_, fun i hi => ?_⟩
    · funext i
      rw [Kern.write_mem, Mem.set_of_page_ne _ hp.symm, h3]
    · rw [Kern.write_mem]
      by_cases hin : i = n
      · subst hin
        rw [Mem.set_self, h3]
      · rw [Mem.set_of_index_ne _ hin]
        exact h4 i (by omega)

structure Fresh (s : Sys) (e p : Nat) : Prop where
  pgdir : (s.envs e).envPgdir = kva p
  notCur : s.curenv = none
  lt : p < 65536
  lt_npages : p < s.kern.npages
  ref : s.kern.ref p = 1
  link : s.kern.link p = none
  empty : ∀ i < 955, target (s.kern.mem p i) = none

theorem envAlloc_copyPgdir {p : Nat} (hf : s.envFreeList = some e) (hk : s.kern.pageFreeList = some p)
    (hp : p < s.kern.npages) (hp' : p < 65536) (hp398 : p ≠ 398) (hr : s.kern.ref p = 0) (hc : s.curenv = none)
    (hz : ∀ i < 955, s.kern.mem 398 i = 0) (parentId : Word) :
    ∃ t, s.envAlloc copyPgdir parentId = .ok (0, some e, t) ∧ t.kern.npages = s.kern.npages ∧ t.kern.mem 398 = s.kern.mem 398 ∧
      Fresh t e p := by
  have ha : s.kern.pageAlloc allocZero = .ok (some p, (s.kern.pop p).clear p) :=
    Kern.pageAlloc_clear hk (by decide) hp hp'
  have hkva : ((s.kern.pop p).clear p).page2kva p = .ok (kva p) := Kern.kaddr_page2pa _ (by omega) hp
  have hst : ∀ k : Kern, k.store (entry (kva p) (pdx uvpt)) (page2pa p ||| pteP ||| pteU) =
      .ok (k.write p (pdx uvpt) (page2pa p ||| pteP ||| pteU)) := fun k => Kern.store_entry k hp' (by decide) _
  obtain ⟨k, hcopy⟩ : ∃ k, (List.range npdentries).foldl (fun k i => k.write p i (k.mem 398 i))
      (((s.kern.pop p).clear p).setRef p (((s.kern.pop p).clear p).ref p + 1)) = k := ⟨_, rfl⟩
  obtain ⟨hn, hpg, hm398, hm⟩ := copy_dir hp398 npdentries hcopy
  simp only [envAlloc, envSetupVm, copyPgdir, hf, ha, hkva, ok_bind, paddr_kva hp', hst, pure_ok, hcopy]
  refine ⟨_, rfl, hn, ?_, ?_, hc, hp', Nat.lt_of_lt_of_eq hp hn.symm, ?_, ?_, fun i hi => ?_⟩
  · funext i
    simp only [cprintf, setEnv, Kern.write_mem]
    rw [Mem.set_of_page_ne _ hp398.symm, hm398, Kern.setRef_mem, Kern.clear_mem, Mem.clear_of_ne _ hp398.symm, Kern.pop_mem]
  · simp only [cprintf, setEnv, Function.update_self]
  · simp only [cprintf, setEnv, Kern.write_ref]
    rw [Kern.ref, hpg, ← Kern.ref, Kern.setRef_ref, Function.update_self, Kern.clear_ref, Kern.pop_ref, hr]
    rfl
  · simp only [cprintf, setEnv, Kern.write_link]
    rw [Kern.link, hpg, ← Kern.link, Kern.setRef_link, Kern.clear_link, Kern.pop_link, Function.update_self]
  · simp only [cprintf, setEnv, Kern.write_mem]
    rw [Mem.set_of_index_ne _ (by rw [show pdx uvpt = 957 from rfl]; omega), hm i (by rw [show npdentries = 1024 from rfl]; omega),
      Kern.setRef_mem, Kern.clear_mem, Mem.clear_of_ne _ hp398.symm, Kern.pop_mem, hz i hi, target_zero]

theorem Fresh.envFree {p : Nat} (h : Fresh s e p) : s.envFree e = .ok (s.putFree e (s.kern.dropRef p)) := by
  have hl : (List.range (pdx utop)).foldlM (freePde (kva p)) s.kern = .ok s.kern := by
    obtain ⟨t, ht, rfl⟩ := Loop.range_ok (f := freePde (kva p)) (n := 955) (fun _ t => s.kern = t) rfl fun i hi t ht => by
      subst ht
      refine ⟨s.kern, ?_, rfl⟩
      rw [freePde, Kern.load_entry s.kern h.lt (by omega), ok_bind, if_pos (target_eq_none.mp (h.empty i hi)), pure_ok]
    exact ht
  have hlv : s.leavePgdir e = .ok s.kern := by
    rw [leavePgdir, if_neg (by rw [h.notCur]; exact fun hc => by cases hc), pure_ok]
  have hpp : s.kern.pa2page (page2pa p) = .ok p := by
    rw [Kern.pa2page, pgnum_page2pa (by have := h.lt; omega), if_neg (Nat.not_le.mpr h.lt_npages)]
  exact envFree_eq hlv (h.pgdir ▸ hl) (h.pgdir ▸ paddr_kva h.lt) hpp (Kern.pageDecref_eq fun _ => h.link)

theorem Fresh.freed {p : Nat} (h : Fresh s e p) : (s.kern.dropRef p).pageFreeList = some p ∧ (s.kern.dropRef p).ref p = 0 := by
  have h0 : s.kern.ref p - 1 = 0 := by
    rw [h.ref]
    rfl
  rw [Kern.dropRef, if_pos h0]
  exact ⟨rfl, by rw [Kern.push_ref, Kern.setRef_ref, Function.update_self, h0]⟩

end Sys

end Jos
