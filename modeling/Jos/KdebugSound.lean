import Jos.Kdebug
import Mathlib.Order.Basic

/-!
# Where the searches of `debuginfo_eip` end

The searches and scans stay in the table unless the first one leaves its region
on the left. `Underrun` says from the table when a search does that: its probes
are all above the address down to the leftmost index.
-/

namespace Jos.Kdebug

section
variable (t : List Stab) (type : Byte)

/-! ## Probes -/

structure Probe (l h m : Int) : Prop where
  lo : l ≤ m
  hi : m ≤ h
  hit : (stab t m).type = type
  last : ∀ i, m < i → i ≤ h → (stab t i).type ≠ type

def NoProbe (l h : Int) : Prop := ∀ i, l ≤ i → i ≤ h → (stab t i).type ≠ type

/-- From `r` on each probe is above the address, and the last one is `l` itself. -/
inductive Descends (addr : Word) (l : Int) : Int → Prop
  | last {r : Int} (probe : Probe t type l ((l + r) / 2) l) (above : addr < (stab t l).value) : Descends addr l r
  | next {r m : Int} (probe : Probe t type l ((l + r) / 2) m) (above : addr < (stab t m).value)
      (tail : Descends addr l (m - 1)) : Descends addr l r

/-- The search in `[l, r]` ends at `l - 1`. The second case is that of an `addr++` that wraps. -/
def Underrun (addr : Word) (l r : Int) : Prop :=
  Descends t type addr l r ∨ addr = -1 ∧ Probe t type l ((l + r) / 2) l ∧ (stab t l).value = -1

inductive FirstProbe (m : Int) : Int → Int → Prop
  | here {l r : Int} (probe : Probe t type l ((l + r) / 2) m) : FirstProbe m l r
  | skip {l r : Int} (le : l ≤ r) (no : NoProbe t type l ((l + r) / 2)) (tail : FirstProbe m ((l + r) / 2 + 1) r) :
      FirstProbe m l r

/-- The turns of the loop of `stab_binsearch`, without the reads. -/
inductive Search : Int → Int → Bool → Region → Word → Bool → Region → Prop
  | done {l r any g addr} (lt : r < l) : Search l r any g addr any g
  | skip {l r any g addr any' g'} (le : l ≤ r) (no : NoProbe t type l ((l + r) / 2))
      (next : Search ((l + r) / 2 + 1) r any g addr any' g') : Search l r any g addr any' g'
  | less {l r any g addr any' g' m} (probe : Probe t type l ((l + r) / 2) m) (lt : (stab t m).value < addr)
      (next : Search ((l + r) / 2 + 1) r true { g with left := m } addr any' g') : Search l r any g addr any' g'
  | greater {l r any g addr any' g' m} (probe : Probe t type l ((l + r) / 2) m) (gt : addr < (stab t m).value)
      (next : Search l (m - 1) true { g with right := m - 1 } addr any' g') : Search l r any g addr any' g'
  | equal {l r any g addr any' g' m} (probe : Probe t type l ((l + r) / 2) m) (eq : (stab t m).value = addr)
      (next : Search m r true { g with left := m } (addr + 1) any' g') : Search l r any g addr any' g'

end

section
variable {t : List Stab} {type : Byte} {l r h m m' : Int} {addr : Word} {any any' : Bool} {g g' : Region}

theorem Probe.unique (p : Probe t type l h m) (p' : Probe t type l h m') : m = m' := by
  rcases lt_trichotomy m m' with hlt | heq | hgt
  · exact absurd p'.hit (p.last m' hlt p'.hi)
  · exact heq
  · exact absurd p.hit (p'.last m hgt p.hi)

theorem Probe.not_noProbe (p : Probe t type l h m) : ¬ NoProbe t type l h := fun no => no m p.lo p.hi p.hit

theorem Probe.le (p : Probe t type l ((l + r) / 2) m) : l ≤ r := by
  have := p.lo
  have := p.hi
  omega

theorem Probe.le_right (p : Probe t type l ((l + r) / 2) m) : m ≤ r := by
  have := p.lo
  have := p.hi
  omega

/-! ## The scans -/

theorem bind_ok {α β : Type} (x : α) (f : α → Except Fault β) : (Except.ok x >>= f) = f x := rfl

theorem bind_error {α β : Type} (e : Fault) (f : α → Except Fault β) : (Except.error e >>= f) = .error e := rfl

theorem readStab_ok {i : Int} (h0 : 0 ≤ i) (hn : i < t.length) : readStab t i = .ok (stab t i) := if_pos ⟨h0, hn⟩

theorem readStab_neg {i : Int} (h : i < 0) : readStab t i = .error .bounds := if_neg fun hi => absurd hi.1 (by omega)

theorem scanDown_ok (stop : Stab → Bool) (hl : 0 ≤ l) (hm : m < t.length) :
    ∃ k, scanDown t stop l m = .ok k ∧ k ≤ m ∧ (l ≤ m → l - 1 ≤ k) ∧ (m < l → k = m) ∧
      (∀ i, k < i → i ≤ m → stop (stab t i) = false) ∧ (l ≤ k → stop (stab t k) = true) := by
  induction hk : (m + 1 - l).toNat generalizing m with
  | zero =>
    rw [scanDown, if_neg (by omega)]
    exact ⟨m, rfl, by omega, by omega, fun _ => rfl, by omega, by omega⟩
  | succ k ih =>
    rw [scanDown, if_pos (by omega), readStab_ok (by omega) hm]
    dsimp only
    by_cases hs : stop (stab t m) = true
    · rw [if_pos hs]
      exact ⟨m, rfl, by omega, by omega, fun _ => rfl, by omega, fun _ => hs⟩
    · rw [if_neg hs]
      obtain ⟨j, he, h1, h2, h3, h4, h5⟩ := ih (m := m - 1) (by omega) (by omega)
      refine ⟨j, he, by omega, by omega, by omega, fun i hji him => ?_, h5⟩
      rcases Int.lt_or_eq_of_le him with hlt | rfl
      · exact h4 i hji (by omega)
      · exact Bool.eq_false_of_not_eq_true hs

theorem scanType_cases (hl : 0 ≤ l) (hm : m < t.length) (hlm : l ≤ m) :
    (NoProbe t type l m ∧ scanDown t (·.type = type) l m = .ok (l - 1)) ∨
      ∃ k, Probe t type l m k ∧ scanDown t (·.type = type) l m = .ok k := by
  obtain ⟨k, he, h1, h2, _, h4, h5⟩ := scanDown_ok (fun s => s.type = type) hl hm
  have hne : ∀ i, k < i → i ≤ m → (stab t i).type ≠ type := fun i hi him => of_decide_eq_false (h4 i hi him)
  rcases Int.lt_or_le k l with hk | hk
  · have : k = l - 1 := by
      have := h2 hlm
      omega
    rw [this] at he
    exact Or.inl ⟨fun i hi him => hne i (by omega) him, he⟩
  · exact Or.inr ⟨k, ⟨hk, h1, of_decide_eq_true (h5 hk), hne⟩, he⟩

/-! ## The binary search -/

theorem searchLoop_ok {n : Nat} (hl : 0 ≤ l) (hr : r < t.length) (hn : 2 * (r + 1 - l).toNat + 1 ≤ n)
    (hn' : (∃ m, Probe t type l ((l + r) / 2) m ∧ (stab t m).value = addr) → 2 * (r + 1 - l).toNat + 2 ≤ n)
    (any : Bool) (g : Region) :
    ∃ any' g', searchLoop t type n l r any g addr = .ok (any', g') ∧ Search t type l r any g addr any' g' := by
  induction n generalizing l r addr any g with
  | zero => omega
  | succ n ih =>
    rw [searchLoop]
    rcases Int.lt_or_le r l with hlt | hle
    · rw [if_neg (by omega)]
      exact ⟨any, g, rfl, .done hlt⟩
    · have hmid : (l + r).tdiv 2 = (l + r) / 2 := Int.tdiv_eq_ediv_of_nonneg (by omega)
      rw [if_pos hle]
      dsimp only
      rw [hmid]
      have hmt : (l + r) / 2 < t.length := by omega
      rcases scanType_cases (t := t) hl hmt (by omega) with ⟨no, he⟩ | ⟨m, p, he⟩
      · rw [he, bind_ok, if_pos (by omega)]
        obtain ⟨any', g', hs, hrel⟩ := @ih _ _ addr (show (0 : Int) ≤ (l + r) / 2 + 1 by omega) hr (by omega)
          (fun _ => by omega) any g
        exact ⟨any', g', hs, .skip hle no hrel⟩
      · have hlm := p.lo
        have hmm := p.hi
        rw [he, bind_ok, if_neg (by omega), readStab_ok (by omega) (by omega), bind_ok]
        by_cases hlt : (stab t m).value < addr
        · rw [if_pos hlt]
          obtain ⟨any', g', hs, hrel⟩ := @ih _ _ addr (show (0 : Int) ≤ (l + r) / 2 + 1 by omega) hr (by omega)
            (fun _ => by omega) true { g with left := m }
          exact ⟨any', g', hs, .less p hlt hrel⟩
        · rw [if_neg hlt]
          by_cases hgt : (stab t m).value > addr
          · rw [if_pos hgt]
            obtain ⟨any', g', hs, hrel⟩ := @ih _ _ addr hl (show m - 1 < t.length by omega) (by omega)
              (fun _ => by omega) true { g with right := m - 1 }
            exact ⟨any', g', hs, .greater p hgt hrel⟩
          · rw [if_neg hgt]
            have heq : (stab t m).value = addr := BitVec.le_antisymm (BitVec.not_lt.mp hgt) (BitVec.not_lt.mp hlt)
            have hmore := hn' ⟨m, p, heq⟩
            -- when `l` stays, the next probe is `m` again, and no longer at the address
            have hagain : (∃ k, Probe t type m ((m + r) / 2) k ∧ (stab t k).value = addr + 1) →
                2 * (r + 1 - m).toNat + 2 ≤ n := by
              rintro ⟨k, pk, hk⟩
              rcases Int.lt_or_eq_of_le hlm with h | rfl
              · omega
              · obtain rfl := p.unique pk
                rw [heq] at hk
                have := congrArg BitVec.toNat hk
                rw [BitVec.toNat_add, show (1 : Word).toNat = 1 from rfl] at this
                have := addr.isLt
                omega
            obtain ⟨any', g', hs, hrel⟩ := ih (show 0 ≤ m by omega) hr (by omega) hagain true
              { g with left := m }
            exact ⟨any', g', hs, .equal p heq hrel⟩

theorem Search.region {l₀ : Int} (hs : Search t type l r any g addr any' g') (hr : g.right = r) (hl₀ : l₀ ≤ g.left)
    (hl : g.left ≤ l) (hlr : l ≤ r + 1) :
    l - 1 ≤ g'.right ∧ g'.right ≤ r ∧ l₀ ≤ g'.left ∧ g'.left ≤ g'.right + 1 := by
  induction hs with
  | done lt => omega
  | skip le no next ih =>
    have := ih hr hl₀ (by omega) (by omega)
    omega
  | less probe lt next ih =>
    have := probe.lo
    have := probe.hi
    have := ih hr (show l₀ ≤ _ by dsimp only; omega) (by dsimp only; omega) (by omega)
    omega
  | greater probe gt next ih =>
    have := probe.lo
    have := probe.le_right
    have := ih rfl hl₀ hl (by omega)
    omega
  | equal probe eq next ih =>
    have := probe.lo
    have := probe.le_right
    have := ih hr (show l₀ ≤ _ by dsimp only; omega) (by dsimp only; omega) (by omega)
    omega

theorem Search.unmatched (hs : Search t type l r any g addr any' g') : any' = false → any = false ∧ g' = g := by
  induction hs with
  | done lt => exact fun h => ⟨h, rfl⟩
  | skip le no next ih => exact ih
  | less probe lt next ih => exact fun h => absurd (ih h).1 (by decide)
  | greater probe gt next ih => exact fun h => absurd (ih h).1 (by decide)
  | equal probe eq next ih => exact fun h => absurd (ih h).1 (by decide)

theorem Search.le_of_matched (hs : Search t type l r false g addr true g') : l ≤ r := by
  cases hs with
  | skip le no next => exact le
  | less probe lt next => exact probe.le
  | greater probe gt next => exact probe.le
  | equal probe eq next => exact probe.le

theorem Search.left_type (hs : Search t type l r any g addr any' g') : g'.left = g.left ∨ (stab t g'.left).type = type := by
  induction hs with
  | done lt => exact Or.inl rfl
  | skip le no next ih => exact ih
  | less probe lt next ih =>
    rcases ih with h | h
    · rw [h]
      exact Or.inr probe.hit
    · exact Or.inr h
  | greater probe gt next ih => exact ih
  | equal probe eq next ih =>
    rcases ih with h | h
    · rw [h]
      exact Or.inr probe.hit
    · exact Or.inr h

theorem Descends.leftmost (hd : Descends t type addr l r) : (stab t l).type = type ∧ addr < (stab t l).value := by
  induction hd with
  | last probe above => exact ⟨probe.hit, above⟩
  | next probe above tail ih => exact ih

theorem Underrun.le (hu : Underrun t type addr l r) : l ≤ r := by
  rcases hu with hd | ⟨_, p, _⟩
  · cases hd with
    | last probe above => exact probe.le
    | next probe above tail => exact probe.le
  · exact p.le

theorem Underrun.leftmost (hu : Underrun t type addr l r) : (stab t l).type = type := by
  rcases hu with hd | ⟨_, p, _⟩
  · exact hd.leftmost.1
  · exact p.hit

theorem Probe.descends_iff (p : Probe t type l ((l + r) / 2) m) :
    Descends t type addr l r ↔ addr < (stab t m).value ∧ (m = l ∨ Descends t type addr l (m - 1)) := by
  constructor
  · intro hd
    cases hd with
    | last probe above =>
      obtain rfl := p.unique probe
      exact ⟨above, Or.inl rfl⟩
    | next probe above tail =>
      obtain rfl := p.unique probe
      exact ⟨above, Or.inr tail⟩
  · rintro ⟨above, rfl | tail⟩
    · exact .last p above
    · exact .next p above tail

theorem lt_succ_iff (addr : Word) : addr + 1 < addr ↔ addr = -1 := by
  have h := addr.isLt
  rw [BitVec.lt_def, ← BitVec.toNat_inj, BitVec.toNat_add, show (1 : Word).toNat = 1 from rfl,
    show (-1 : Word).toNat = 2 ^ 32 - 1 from rfl]
  omega

theorem ne_succ (addr : Word) : addr ≠ addr + 1 := by
  intro h
  have hn := congrArg BitVec.toNat h
  have := addr.isLt
  rw [BitVec.toNat_add, show (1 : Word).toNat = 1 from rfl] at hn
  omega

theorem not_max_lt (v : Word) : ¬ (-1 : Word) < v := by
  have := v.isLt
  rw [BitVec.lt_def, show (-1 : Word).toNat = 2 ^ 32 - 1 from rfl]
  omega

/-- **Leaving the region**: only a search whose probes are all above the address gets before `l`. -/
theorem Search.underrun_iff (hs : Search t type l r any g addr any' g') (hr : g.right = r) (hl : g.left ≤ l) (hlr : l ≤ r) :
    g'.right = l - 1 ↔ Underrun t type addr l r := by
  induction hs with
  | done lt => omega
  | skip le no next ih =>
    have := next.region hr (Int.le_refl _) (by omega) (by omega)
    refine iff_of_false (by omega) ?_
    rintro (hd | ⟨_, p, _⟩)
    · cases hd with
      | last probe above => exact probe.not_noProbe no
      | next probe above tail => exact probe.not_noProbe no
    · exact p.not_noProbe no
  | less probe lt next ih =>
    have := probe.lo
    have := probe.hi
    have := next.region hr (Int.le_refl _) (by dsimp only; omega) (by omega)
    refine iff_of_false (by omega) ?_
    rintro (hd | ⟨rfl, p, hv⟩)
    · exact BitVec.lt_asymm lt (probe.descends_iff.mp hd).1
    · rw [probe.unique p, hv] at lt
      exact not_max_lt _ lt
  | @greater l r any g addr any' g' m probe gt next ih =>
    have hm := probe.lo
    have hmr := probe.le_right
    have hreg := next.region rfl (Int.le_refl _) hl (by omega)
    have hmax : addr ≠ -1 := by
      rintro rfl
      exact not_max_lt _ gt
    have hu : Underrun t type addr l r ↔ m = l ∨ Descends t type addr l (m - 1) := by
      rw [Underrun, probe.descends_iff]
      simp only [gt, hmax, true_and, false_and, or_false]
    rw [hu]
    rcases Int.lt_or_eq_of_le hm with hlt | rfl
    · rw [ih rfl hl (by omega), Underrun]
      have hne : m ≠ l := by omega
      simp only [hmax, hne, false_and, or_false, false_or]
    · exact iff_of_true (by dsimp only at hreg; omega) (Or.inl rfl)
  | @equal l r any g addr any' g' m probe eq next ih =>
    have hm := probe.lo
    have hmr := probe.le_right
    have hreg := next.region hr (Int.le_refl _) (Int.le_refl _) (by omega)
    have hu : Underrun t type addr l r ↔ m = l ∧ addr = -1 := by
      rw [Underrun, probe.descends_iff, eq]
      constructor
      · rintro (⟨h, _⟩ | ⟨h, p, _⟩)
        · exact absurd h (BitVec.lt_irrefl addr)
        · exact ⟨probe.unique p, h⟩
      · rintro ⟨rfl, h⟩
        exact Or.inr ⟨h, probe, by rw [eq, h]⟩
    rw [hu]
    rcases Int.lt_or_eq_of_le hm with hlt | rfl
    · exact iff_of_false (by omega) fun h => by omega
    · rw [ih hr (Int.le_refl _) hlr, Underrun, probe.descends_iff, eq, lt_succ_iff]
      have hne := ne_succ addr
      constructor
      · rintro (⟨h, _⟩ | ⟨h, _, h'⟩)
        · exact ⟨rfl, h⟩
        · exact absurd (h'.trans h.symm) hne
      · rintro ⟨_, h⟩
        exact Or.inl ⟨h, Or.inl rfl⟩

theorem Probe.firstProbe_iff (p : Probe t type l ((l + r) / 2) m) : FirstProbe t type m' l r ↔ m' = m := by
  constructor
  · intro hf
    cases hf with
    | here probe => exact probe.unique p
    | skip le no tail => exact absurd no p.not_noProbe
  · rintro rfl
    exact .here p

theorem firstProbe_skip_iff (le : l ≤ r) (no : NoProbe t type l ((l + r) / 2)) :
    FirstProbe t type m l r ↔ FirstProbe t type m ((l + r) / 2 + 1) r := by
  constructor
  · intro hf
    cases hf with
    | here probe => exact absurd no probe.not_noProbe
    | skip _ _ tail => exact tail
  · exact .skip le no

theorem FirstProbe.lo (hf : FirstProbe t type m l r) : l ≤ m := by
  induction hf with
  | here probe => exact probe.lo
  | skip le no tail ih => omega

theorem FirstProbe.le (hf : FirstProbe t type m l r) : l ≤ r := by
  cases hf with
  | here probe => exact probe.le
  | skip le no tail => exact le

/-- Without the type at 0 and 1, the search gets from a match at 2 to the region's right end 1 only by
a wrap of the address. -/
theorem Search.wrap_iff (h01 : ∀ i, 0 ≤ i → i < 2 → (stab t i).type ≠ type) (hs : Search t type l r any g addr any' g')
    (hr : g.right = r) (hg : g.left < 2) (hgl : g.left ≤ l) (h0 : 0 ≤ l) (h2 : l ≤ 2) (hlr : l ≤ r + 1) :
    (g'.left = 2 ∧ g'.right = 1) ↔
      addr = -1 ∧ FirstProbe t type 2 l r ∧ (stab t 2).value = -1 ∧ Descends t type 0 2 r := by
  have high : ∀ {m : Int}, 0 ≤ m → (stab t m).type = type → 2 ≤ m := fun {m} hm ht => by
    by_contra hlt
    exact h01 m hm (by omega) ht
  induction hs with
  | done lt =>
    refine iff_of_false (by omega) ?_
    rintro ⟨_, hf, _⟩
    have := hf.le
    omega
  | skip le no next ih =>
    rw [firstProbe_skip_iff le no]
    rename_i l r any g addr any' g'
    rcases Int.lt_or_le 2 ((l + r) / 2 + 1) with hlt | hle
    · have := next.region hr (Int.le_refl _) (by omega) (by omega)
      refine iff_of_false (by omega) ?_
      rintro ⟨_, hf, _⟩
      have := hf.lo
      omega
    · exact ih hr hg (by omega) (by omega) hle (by omega)
  | less probe lt next ih =>
    have hm := high (by have := probe.lo; omega) probe.hit
    have := probe.hi
    have := next.region hr (Int.le_refl _) (by dsimp only; omega) (by omega)
    refine iff_of_false (by omega) ?_
    rintro ⟨rfl, hf, hv, _⟩
    rw [← probe.firstProbe_iff.mp hf, hv] at lt
    exact not_max_lt _ lt
  | @greater l r any g addr any' g' m probe gt next ih =>
    have hm := high (by have := probe.lo; omega) probe.hit
    have hmax : ∀ p : Prop, ¬ (addr = -1 ∧ p) := fun p hp => by
      rw [hp.1] at gt
      exact not_max_lt _ gt
    have hnext := ih rfl hg hgl h0 h2 (by have := probe.lo; omega)
    exact iff_of_false (fun h => hmax _ (hnext.mp h)) (hmax _)
  | @equal l r any g addr any' g' m probe eq next ih =>
    have hm := high (by have := probe.lo; omega) probe.hit
    have hmr := probe.le_right
    have hreg := next.region hr (Int.le_refl _) (Int.le_refl _) (by omega)
    dsimp only at hreg
    rw [probe.firstProbe_iff]
    rcases Int.lt_or_eq_of_le hm with hlt | rfl
    · exact iff_of_false (by omega) fun h => by omega
    · -- from here on the search is one in `[2, r]`
      have hu := next.underrun_iff hr (Int.le_refl _) hmr
      have hl : g'.left = 2 ∧ g'.right = 1 ↔ g'.right = 2 - 1 := by omega
      rw [hl, hu, eq]
      constructor
      · rintro (hd | ⟨h, _, hv⟩)
        · have habove := hd.leftmost.2
          rw [eq, lt_succ_iff] at habove
          subst habove
          exact ⟨rfl, rfl, rfl, hd⟩
        · exact absurd ((eq.symm.trans hv).trans h.symm) (ne_succ addr)
      · rintro ⟨rfl, _, _, hd⟩
        exact Or.inl hd

/-! ## `stab_binsearch` -/

structure Found (t : List Stab) (type : Byte) (addr : Word) (g g' : Region) : Prop where
  left_ge : g.left - 1 ≤ g'.left
  right_le : g'.right ≤ g.right
  matched : g'.left ≤ g'.right ∨ g'.left = g.left ∧ g'.right = g.left - 1
  underrun : g'.left = g.left - 1 ↔ Underrun t type addr g.left g.right
  before : g'.left = g.left - 1 → g'.right = g.left - 1

def Wraps (t : List Stab) (type : Byte) (addr : Word) (r : Int) : Prop :=
  addr = -1 ∧ FirstProbe t type 2 0 r ∧ (stab t 2).value = -1 ∧ Descends t type 0 2 r

variable {n : Nat}

theorem stabBinsearch_ok (type : Byte) (addr : Word) (hl : 0 ≤ g.left) (hr : g.right < t.length) (hlr : g.left ≤ g.right + 1) (hn : 2 * t.length + 2 ≤ n) :
    ∃ g', stabBinsearch n t g type addr = .ok g' ∧ Found t type addr g g' ∧
      (g.left = 0 → (∀ i, 0 ≤ i → i < 2 → (stab t i).type ≠ type) →
        (g'.left = 1 ↔ Wraps t type addr g.right) ∧ (g'.left = 1 → g'.right = 1)) := by
  obtain ⟨any', s, he, hs⟩ := @searchLoop_ok t type _ _ addr n hl hr (by omega) (fun _ => by omega) false g
  have hreg := hs.region rfl (Int.le_refl _) (Int.le_refl _) hlr
  have hund : s.right = g.left - 1 ∧ g.left ≤ g.right ↔ Underrun t type addr g.left g.right := by
    constructor
    · rintro ⟨h, hle⟩
      exact (hs.underrun_iff rfl (Int.le_refl _) hle).mp h
    · intro hu
      exact ⟨(hs.underrun_iff rfl (Int.le_refl _) hu.le).mpr hu, hu.le⟩
  have hwrap : g.left = 0 → (∀ i, 0 ≤ i → i < 2 → (stab t i).type ≠ type) →
      (s.left = 2 ∧ s.right = 1 ↔ Wraps t type addr g.right) := fun h0 h01 => by
    have := hs.wrap_iff h01 rfl (by omega) (Int.le_refl _) hl (by omega) hlr
    rwa [h0] at this
  cases any' with
  | false =>
    obtain ⟨_, rfl⟩ := hs.unmatched rfl
    refine ⟨{ s with right := s.left - 1 }, ?_, ⟨?_, ?_, Or.inr ⟨rfl, rfl⟩, ?_, fun _ => rfl⟩, fun h0 h01 => ⟨?_, ?_⟩⟩
    · rw [stabBinsearch, he, bind_ok]
      rfl
    · dsimp only
      omega
    · dsimp only
      omega
    · rw [← hund]
      dsimp only
      omega
    · rw [← hwrap h0 h01]
      dsimp only
      omega
    · dsimp only
      omega
  | true =>
    obtain ⟨k, hk, h1, h2, h3, _, h5⟩ := scanDown_ok (t := t) (fun s => s.type = type) (show 0 ≤ s.left + 1 by omega)
      (show s.right < t.length by omega)
    have hle := hs.le_of_matched
    have hone : (∀ i, 0 ≤ i → i < 2 → (stab t i).type ≠ type) → g.left = 0 → (k = 1 ↔ s.left = 2 ∧ s.right = 1) := by
      intro h01 h0
      constructor
      · rintro rfl
        have hne : ¬ s.left + 1 ≤ 1 := fun h => h01 1 (by omega) (by omega) (of_decide_eq_true (h5 h))
        rcases hs.left_type with h | h
        · omega
        · have : s.left ≠ 1 := fun h1 => by
            rw [h1] at h
            exact h01 1 (by omega) (by omega) h
          omega
      · rintro ⟨_, _⟩
        omega
    refine ⟨{ s with left := k }, ?_, ⟨?_, ?_, Or.inl ?_, ?_, ?_⟩, fun h0 h01 => ⟨?_, fun h => ?_⟩⟩
    · rw [stabBinsearch, he, bind_ok]
      dsimp only
      rw [if_neg (by decide), hk, bind_ok]
    · dsimp only
      omega
    · dsimp only
      omega
    · dsimp only
      omega
    · rw [← hund]
      dsimp only
      omega
    · dsimp only
      omega
    · rw [← hwrap h0 h01]
      exact hone h01 h0
    · exact ((hone h01 h0).mp h).2

end

/-! ## The strings -/

def Name.Valid (str : List Byte) : Name → Prop
  | .unknown => True
  | .stabstr strx => ∃ j, strx ≤ j ∧ str[j]? = some 0

section
variable {t : List Stab} {str : List Byte} {addr : Word} {n : Nat}

theorem getElem_last (hstr : str.getLast? = some 0) : str[str.length - 1]? = some 0 := by
  rw [← List.getLast?_eq_getElem?]
  exact hstr

theorem nameAt_valid (hstr : str.getLast? = some 0) (s : Stab) : (nameAt str s .unknown).Valid str := by
  unfold nameAt
  split
  · exact ⟨str.length - 1, by omega, getElem_last hstr⟩
  · trivial

theorem strfind_ok {s : List Byte} (h : 0 ∈ s) : ∃ k, strfind s = .ok k := by
  induction s with
  | nil => cases h
  | cons c s ih =>
    rw [strfind]
    split
    · exact ⟨0, rfl⟩
    · next hc =>
      rcases List.mem_cons.mp h with h0 | h0
      · exact absurd (Or.inl h0.symm) hc
      · obtain ⟨k, hk⟩ := ih h0
        exact ⟨k + 1, by rw [hk]; rfl⟩

theorem namelen_ok {name : Name} (hv : name.Valid str) : ∃ k, namelen str name = .ok k := by
  cases name with
  | unknown => exact ⟨9, rfl⟩
  | stabstr strx =>
    obtain ⟨j, hj, h0⟩ := hv
    refine strfind_ok ?_
    rw [List.mem_iff_getElem?]
    refine ⟨j - strx, ?_⟩
    rw [List.getElem?_drop, ← h0]
    congr 1
    omega

/-! ## The steps of `debuginfo_eip` -/

theorem countArgs_ok {l r : Int} (hl : 0 ≤ l) (hr : r ≤ t.length) (narg : Nat) : ∃ k, countArgs t l r narg = .ok k := by
  induction hk : (r - l).toNat generalizing l narg with
  | zero =>
    rw [countArgs, if_neg (by omega)]
    exact ⟨narg, rfl⟩
  | succ k ih =>
    rw [countArgs, if_pos (by omega), readStab_ok hl (by omega)]
    dsimp only
    split
    · exact ih (by omega) _ (by omega)
    · exact ⟨narg, rfl⟩

theorem findFile_ok (hstr : str.getLast? = some 0) {lfile lline : Int} (hl : 0 ≤ lfile) (hr : lline < t.length) :
    ∃ name, findFile t str lfile lline = .ok name ∧ name.Valid str := by
  obtain ⟨k, hk, h1, _⟩ := scanDown_ok isFileStab hl hr
  rw [findFile, hk, bind_ok]
  split
  · rw [readStab_ok (by omega) (by omega), bind_ok]
    exact ⟨_, rfl, nameAt_valid hstr _⟩
  · exact ⟨_, rfl, trivial⟩

theorem findLine_ok {g : Region} (hl : 0 ≤ g.left) (hr : g.right < t.length) : ∃ line, findLine t g = .ok line := by
  unfold findLine
  split
  · rw [readStab_ok hl (by omega), bind_ok]
    exact ⟨_, rfl⟩
  · exact ⟨_, rfl⟩

theorem findFun_ok (hstr : str.getLast? = some 0) (addr : Word) (file : Region) {fn : Region} (hl : 0 ≤ fn.left) (hr : fn.right < t.length) :
    ∃ name fnAddr, findFun t str file fn addr =
      .ok (if fn.left ≤ fn.right then (name, fnAddr, addr - (stab t fn.left).value, fn) else (name, fnAddr, addr, file)) ∧
      name.Valid str := by
  unfold findFun
  split
  · rw [readStab_ok hl (by omega), bind_ok]
    exact ⟨_, _, rfl, nameAt_valid hstr _⟩
  · exact ⟨_, _, rfl, trivial⟩

/-! ## `debuginfo_eip` -/

def Safe (n : Nat) (t : List Stab) (str : List Byte) (addr : Word) : Prop :=
  ∃ ret info, debuginfoEip n t str addr = .ok (ret, info) ∧ info.file.Valid str ∧ info.fnName.Valid str

/-- The one table that gets the other searches below 0, at the highest address. -/
structure Corner (t : List Stab) (addr : Word) : Prop where
  file : Wraps t nSo addr (t.length - 1)
  funType : (stab t 1).type = nFun
  funValue : (stab t 1).value = -1
  lineType : (stab t 0).type = nSline
  lineValue : 2 ^ 31 ≤ (stab t 0).value.toNat

theorem types_of_line_fun (h0 : (stab t 0).type = nSline) (h1 : (stab t 1).type = nFun) :
    ∀ i, 0 ≤ i → i < 2 → (stab t i).type ≠ nSo := by
  intro i hi0 hi2
  have hi : i = 0 ∨ i = 1 := by omega
  rcases hi with rfl | rfl
  · rw [h0]
    decide
  · rw [h1]
    decide

theorem probe_one {type : Byte} {i : Int} (h : (stab t i).type = type) : Probe t type i ((i + i) / 2) i :=
  ⟨Int.le_refl i, by omega, h, fun j _ _ => by omega⟩

theorem underrun_one {type : Byte} {i : Int} :
    Underrun t type addr i i ↔ (stab t i).type = type ∧ (addr < (stab t i).value ∨ addr = -1 ∧ (stab t i).value = -1) := by
  constructor
  · rintro (hd | ⟨h, p, hv⟩)
    · exact ⟨hd.leftmost.1, Or.inl hd.leftmost.2⟩
    · exact ⟨p.hit, Or.inr ⟨h, hv⟩⟩
  · rintro ⟨ht, h | ⟨h, hv⟩⟩
    · exact Or.inl (.last (probe_one ht) h)
    · exact Or.inr ⟨h, probe_one ht, hv⟩

theorem max_sub_lt_iff (v : Word) : (-1 - v < v ∨ -1 - v = -1 ∧ v = -1) ↔ 2 ^ 31 ≤ v.toNat := by
  have h := v.isLt
  have hs : (-1 - v).toNat = 2 ^ 32 - 1 - v.toNat := by
    rw [BitVec.toNat_sub, show (-1 : Word).toNat = 2 ^ 32 - 1 from rfl]
    omega
  rw [BitVec.lt_def, ← BitVec.toNat_inj, ← BitVec.toNat_inj, hs, show (-1 : Word).toNat = 2 ^ 32 - 1 from rfl]
  omega

def Described (n : Nat) (t : List Stab) (str : List Byte) (addr : Word) (file : Region) : Prop :=
  ∃ ret info, describe n t str addr file = .ok (ret, info) ∧ info.file.Valid str ∧ info.fnName.Valid str

theorem described_iff {file fn line : Region} {name : Name} {fnAddr addr' : Word} (hstr : str.getLast? = some 0)
    (hn : 2 * t.length + 2 ≤ n) (hl : 1 ≤ file.left) (hfn : stabBinsearch n t file nFun addr = .ok fn)
    (hfl : 0 ≤ fn.left) (hfr : fn.right < t.length)
    (hfun : findFun t str file fn addr = .ok (name, fnAddr, addr', line)) (hname : name.Valid str)
    (hll : 0 ≤ line.left) (hlr : line.left ≤ line.right) (hr : line.right < t.length) :
    Described n t str addr file ↔ ¬ (line.left = 0 ∧ Underrun t nSline addr' 0 line.right) := by
  obtain ⟨len, hlen⟩ := namelen_ok hname
  obtain ⟨l, hs, hf, _⟩ := stabBinsearch_ok nSline addr' hll hr (by omega) hn
  obtain ⟨narg, hargs⟩ := countArgs_ok (t := t) (show 0 ≤ fn.left + 1 by omega) (show fn.right ≤ t.length by omega) 0
  have hge := hf.left_ge
  have hle := hf.right_le
  have hund : l.left = -1 ↔ line.left = 0 ∧ Underrun t nSline addr' 0 line.right := by
    constructor
    · intro h
      have h0 : line.left = 0 := by omega
      have hu := hf.underrun.mp (by omega)
      rw [h0] at hu
      exact ⟨h0, hu⟩
    · rintro ⟨h0, hu⟩
      rw [← h0] at hu
      have := hf.underrun.mpr hu
      omega
  rw [← hund, Described, describe, hfn, bind_ok, hfun, bind_ok]
  dsimp only
  rw [hlen, bind_ok, hs, bind_ok]
  by_cases hneg : l.left = -1
  · refine iff_of_false ?_ (not_not.mpr hneg)
    have hright : l.right = -1 := by
      have := hf.before (by omega)
      omega
    rw [findLine, if_pos (by omega), readStab_neg (by omega), bind_error]
    rintro ⟨ret, info, h, _⟩
    cases h
  · refine iff_of_true ?_ hneg
    have hlend : l.left < t.length := by
      rcases hf.matched with h | h <;> omega
    obtain ⟨eipLine, hline⟩ := findLine_ok (t := t) (g := l) (by omega) (by omega)
    obtain ⟨eipFile, hfile, hvalid⟩ := findFile_ok hstr (show 0 ≤ file.left by omega) hlend
    rw [hline, bind_ok, hfile, bind_ok, hargs, bind_ok]
    exact ⟨_, _, rfl, hvalid, hname⟩

theorem Corner.fun_region {file fn : Region} (hc : Corner t addr)
    (hw : (∀ i, 0 ≤ i → i < 2 → (stab t i).type ≠ nSo) → (file.left = 1 ↔ Wraps t nSo addr (t.length - 1)) ∧
      (file.left = 1 → file.right = 1)) (hf : Found t nFun addr file fn) : fn.left = 0 ∧ fn.right = 0 := by
  obtain ⟨hwr, hright⟩ := hw (types_of_line_fun hc.lineType hc.funType)
  have hfl := hwr.mpr hc.file
  have hone : Underrun t nFun addr 1 1 := underrun_one.mpr ⟨hc.funType, Or.inr ⟨hc.file.1, hc.funValue⟩⟩
  have hu : fn.left = file.left - 1 := by
    apply hf.underrun.mpr
    rw [hfl, hright hfl]
    exact hone
  have hfr := hf.before hu
  exact ⟨by omega, by omega⟩

theorem described_file_iff {file : Region} (hstr : str.getLast? = some 0) (hn : 2 * t.length + 2 ≤ n)
    (hl : 1 ≤ file.left) (hlr : file.left ≤ file.right) (hr : file.right < t.length)
    (hw : (∀ i, 0 ≤ i → i < 2 → (stab t i).type ≠ nSo) → (file.left = 1 ↔ Wraps t nSo addr (t.length - 1)) ∧
      (file.left = 1 → file.right = 1)) : Described n t str addr file ↔ ¬ Corner t addr := by
  obtain ⟨fn, hfn, hf, _⟩ := stabBinsearch_ok nFun addr (show 0 ≤ file.left by omega) hr (by omega) hn
  have hge := hf.left_ge
  have hle := hf.right_le
  obtain ⟨name, fnAddr, hfun, hname⟩ := findFun_ok hstr addr file
    (show 0 ≤ fn.left by omega) (show fn.right < t.length by omega)
  by_cases hm : fn.left ≤ fn.right
  · rw [if_pos hm] at hfun
    rw [described_iff hstr hn hl hfn (by omega) (by omega) hfun hname (by omega) hm (by omega), not_iff_not]
    constructor
    · rintro ⟨h0, hu⟩
      have hfl : file.left = 1 := by omega
      have hfr : fn.right = 0 := by
        have := hf.before (by omega)
        omega
      have huf := hf.underrun.mp (by omega)
      rw [hfl] at huf
      rw [hfr, h0, underrun_one] at hu
      obtain ⟨hwr, hright⟩ := hw (types_of_line_fun hu.1 huf.leftmost)
      have hwraps := hwr.mp hfl
      obtain rfl := hwraps.1
      rw [hright hfl, underrun_one] at huf
      refine ⟨hwraps, huf.1, ?_, hu.1, (max_sub_lt_iff _).mp hu.2⟩
      rcases huf.2 with h | h
      · exact absurd h (not_max_lt _)
      · exact h.2
    · intro hc
      obtain ⟨h0, hr0⟩ := hc.fun_region hw hf
      obtain rfl := hc.file.1
      refine ⟨h0, ?_⟩
      rw [hr0, h0]
      exact underrun_one.mpr ⟨hc.lineType, (max_sub_lt_iff _).mpr hc.lineValue⟩
  · rw [if_neg hm] at hfun
    rw [described_iff hstr hn hl hfn (by omega) (by omega) hfun hname (by omega) hlr hr]
    refine iff_of_true (fun h => by omega) fun hc => ?_
    obtain ⟨h0, hr0⟩ := hc.fun_region hw hf
    omega

theorem stabBinsearch_neg {file : Region} (hl : file.left = -1) (hr : file.right = -1) (hn : 1 ≤ n) (type : Byte) :
    stabBinsearch n t file type addr = .error .bounds := by
  obtain ⟨k, rfl⟩ : ∃ k, n = k + 1 := ⟨n - 1, by omega⟩
  have hmid : ((-1 : Int) + -1).tdiv 2 = -1 := by decide
  rw [stabBinsearch, hl, hr, searchLoop, if_pos (Int.le_refl _)]
  dsimp only
  rw [hmid, scanDown, if_pos (Int.le_refl _), readStab_neg (by omega)]
  rfl

theorem debuginfoEip_start (addr : Word) (hstr : str.getLast? = some 0) (hn : 2 * t.length + 2 ≤ n) :
    ∃ file, Found t nSo addr ⟨0, t.length - 1⟩ file ∧
      debuginfoEip n t str addr = (if file.left = 0 then .ok (-1, noInfo addr) else describe n t str addr file) ∧
      ((∀ i, 0 ≤ i → i < 2 → (stab t i).type ≠ nSo) → (file.left = 1 ↔ Wraps t nSo addr (t.length - 1)) ∧
        (file.left = 1 → file.right = 1)) := by
  obtain ⟨file, he, hf, hw⟩ := @stabBinsearch_ok t ⟨0, t.length - 1⟩ n nSo addr
    (Int.le_refl 0) (show (t.length : Int) - 1 < t.length by omega) (by dsimp only; omega) hn
  refine ⟨file, hf, ?_, hw rfl⟩
  rw [debuginfoEip, if_neg (not_not.mpr hstr), he, bind_ok]

theorem not_safe_of_underrun (hstr : str.getLast? = some 0) (hn : 2 * t.length + 2 ≤ n)
    (hu : Underrun t nSo addr 0 (t.length - 1)) : ¬ Safe n t str addr := by
  obtain ⟨file, hf, hstart, _⟩ := debuginfoEip_start addr hstr hn
  have hl : file.left = -1 := hf.underrun.mpr hu
  have hr : file.right = -1 := hf.before hl
  rintro ⟨ret, info, h, _⟩
  rw [hstart, if_neg (by omega), describe, stabBinsearch_neg hl hr (by omega), bind_error] at h
  cases h

/-- **`debuginfo_eip`**: it reads only stabs and string bytes of the tables, and the names it returns are
strings of the table or the built-in one, just when the search for the file does not underrun and the
table is not the one of `Corner`. -/
theorem debuginfoEip_safe_iff (t : List Stab) (str : List Byte) (hstr : str.getLast? = some 0) (addr : Word) (n : Nat)
    (hn : 2 * t.length + 2 ≤ n) :
    Safe n t str addr ↔ ¬ Underrun t nSo addr 0 (t.length - 1) ∧ ¬ Corner t addr := by
  by_cases hu : Underrun t nSo addr 0 (t.length - 1)
  · exact iff_of_false (not_safe_of_underrun hstr hn hu) fun h => h.1 hu
  · obtain ⟨file, hf, hstart, hw⟩ := debuginfoEip_start addr hstr hn
    have hge : -1 ≤ file.left := hf.left_ge
    have hne : file.left ≠ -1 := fun h => hu (hf.underrun.mp h)
    have hle : file.right ≤ t.length - 1 := hf.right_le
    rw [Safe, hstart]
    by_cases h0 : file.left = 0
    · rw [if_pos h0]
      refine iff_of_true ⟨_, _, rfl, trivial, trivial⟩ ⟨hu, fun hc => ?_⟩
      have := (hw (types_of_line_fun hc.lineType hc.funType)).1.mpr hc.file
      omega
    · rw [if_neg h0]
      have hlr : file.left ≤ file.right := by
        rcases hf.matched with h | ⟨h, _⟩
        · exact h
        · exact absurd h h0
      have hd := described_file_iff hstr hn (show 1 ≤ file.left by omega) hlr (by omega) hw
      rw [← Described, hd]
      exact ⟨fun h => ⟨hu, h⟩, fun h => h.2⟩

theorem debuginfoEip_safe_small : Safe 6 [⟨0, nSo, 0, 0x1000⟩, ⟨0, nSo, 0, 0x2000⟩] [0x61, 0] 0x2500 := by
  refine (debuginfoEip_safe_iff [⟨0, nSo, 0, 0x1000⟩, ⟨0, nSo, 0, 0x2000⟩] [0x61, 0] rfl 0x2500 6 (by decide)).mpr ⟨?_, fun hc => ?_⟩
  · have p : Probe [⟨0, nSo, 0, 0x1000⟩, ⟨0, nSo, 0, 0x2000⟩] nSo 0 ((0 + 1) / 2) 0 :=
      ⟨by decide, by decide, rfl, fun i h1 h2 => by omega⟩
    rintro (hd | ⟨h, _⟩)
    · exact absurd (p.descends_iff.mp hd).1 (by decide)
    · exact absurd h (by decide)
  · exact absurd hc.lineType (by decide)

/-- One source file above the address. -/
theorem debuginfoEip_unsafe : ¬ ∀ (t : List Stab) (str : List Byte) (addr : Word) (n : Nat), str.getLast? = some 0 →
    2 * t.length + 2 ≤ n → Safe n t str addr := by
  intro h
  have hu : Underrun [⟨0, nSo, 0, 0x1000⟩] nSo 0x500 0 0 := underrun_one.mpr ⟨rfl, Or.inl (by decide)⟩
  exact not_safe_of_underrun rfl (by decide) hu (h [⟨0, nSo, 0, 0x1000⟩] [0] 0x500 4 rfl (by decide))

end

end Jos.Kdebug
