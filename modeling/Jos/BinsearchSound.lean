import Jos.Stabs
import Jos.KdebugSound

/-!
# What `stab_binsearch` finds

The search ends for any contents of the array, without a read outside of its range.
It reports that nothing was found just when the range holds no stab of the type, so
not when all of them lie above the address; and where the stabs are in order it finds
the one that contains the address, unless it meets the address and then the next one.
-/

namespace Jos.Kdebug.Stabs

open FilterSearch

instance : LinearOrder Word where
  le_refl := BitVec.le_refl
  le_trans _ _ _ := BitVec.le_trans
  lt_iff_le_not_ge x y := by rw [BitVec.le_def, BitVec.le_def, BitVec.lt_def]; omega
  le_antisymm _ _ := BitVec.le_antisymm
  le_total := BitVec.le_total
  toDecidableLE := inferInstance

variable {read : Stabs} {a : Int → Stab} {type addr : Word} {l r m L R left : Int} {any : Bool} {n : Nat}

def counts (a : Int → Stab) (type : Word) (i : Int) : Prop := (a i).isType type

def value (a : Int → Stab) (i : Int) : Word := (a i).value

def succ (addr : Word) : Word := addr + 1

theorem succ_ne (addr : Word) : succ addr ≠ addr := fun h => by
  have := congrArg BitVec.toNat h
  rw [succ, BitVec.toNat_add, show (1 : Word).toNat = 1 from rfl] at this
  have := addr.isLt
  omega

theorem lt_succ_iff (h : addr ≠ 0xFFFFFFFF) (v : Word) : v < succ addr ↔ v ≤ addr := by
  have hne : addr.toNat ≠ 4294967295 := fun e => h (BitVec.eq_of_toNat_eq e)
  have := addr.isLt
  rw [BitVec.lt_def, BitVec.le_def, succ, BitVec.toNat_add, show (1 : Word).toNat = 1 from rfl]
  omega

section
variable (hread : ∀ i, L ≤ i → i ≤ R → read i = .ok (a i))
include hread

theorem scanDown_ok (type : Word) (hl : L ≤ l) (hm : m ≤ R) : ∃ k, scanDown read type l m = .ok k ∧ k ≤ m ∧ (l ≤ m → l - 1 ≤ k) ∧
    (m < l → k = m) ∧ (∀ i, k < i → i ≤ m → ¬ counts a type i) ∧ (l ≤ k → counts a type k) := by
  induction hk : (m + 1 - l).toNat generalizing m with
  | zero =>
    rw [scanDown, if_neg (by omega)]
    exact ⟨m, rfl, by omega, by omega, fun _ => rfl, by omega, by omega⟩
  | succ k ih =>
    rw [scanDown, if_pos (by omega), hread m (by omega) hm]
    dsimp only
    by_cases hs : (a m).isType type
    · rw [if_pos hs]
      exact ⟨m, rfl, by omega, by omega, fun _ => rfl, by omega, fun _ => hs⟩
    · rw [if_neg hs]
      obtain ⟨j, he, h1, h2, h3, h4, h5⟩ := ih (m := m - 1) (by omega) (by omega)
      refine ⟨j, he, by omega, by omega, by omega, fun i hji him => ?_, h5⟩
      rcases Int.lt_or_eq_of_le him with hlt | rfl
      · exact h4 i hji (by omega)
      · exact hs

theorem scanDown_cases (type : Word) (hl : L ≤ l) (hm : m ≤ R) (hlm : l ≤ m) :
    (NoHit (counts a type) l m ∧ scanDown read type l m = .ok (l - 1)) ∨
      ∃ k, LastHit (counts a type) l m k ∧ scanDown read type l m = .ok k := by
  obtain ⟨k, he, h1, h2, _, h4, h5⟩ := scanDown_ok hread type hl hm
  rcases Int.lt_or_le k l with hk | hk
  · have : k = l - 1 := by
      have := h2 hlm
      omega
    rw [this] at he
    exact Or.inl ⟨fun i hi him => h4 i (by omega) him, he⟩
  · exact Or.inr ⟨k, ⟨hk, h1, h5 hk, h4⟩, he⟩

theorem searchLoop_turns (h0 : 0 ≤ l) (hl : L ≤ l) (hr : r ≤ R) (hn : 2 * (r + 1 - l).toNat + 1 ≤ n)
    (hn' : (∃ m, LastHit (counts a type) l ((l + r) / 2) m ∧ value a m = addr) → 2 * (r + 1 - l).toNat + 2 ≤ n)
    (any : Bool) (left : Int) : ∃ any' left' r', searchLoop read type n l r any ⟨left, r⟩ addr = .ok (any', ⟨left', r'⟩) ∧
      Turns (counts a type) (value a) succ l r any left addr any' left' r' := by
  induction n generalizing l r addr any left with
  | zero => omega
  | succ n ih =>
    rw [searchLoop]
    rcases Int.lt_or_le r l with hlt | hle
    · rw [if_neg (by omega)]
      exact ⟨any, left, r, rfl, .done hlt⟩
    · have hmid : (l + r).tdiv 2 = (l + r) / 2 := Int.tdiv_eq_ediv_of_nonneg (by omega)
      rw [if_pos hle]
      dsimp only
      rw [hmid]
      rcases scanDown_cases hread type hl (show (l + r) / 2 ≤ R by omega) (by omega) with ⟨no, he⟩ | ⟨m, p, he⟩
      · rw [he, bind_ok, if_pos (by omega)]
        obtain ⟨any', left', r', hs, ht⟩ := @ih addr _ _ (show (0 : Int) ≤ (l + r) / 2 + 1 by omega) (by omega) hr
          (by omega) (fun _ => by omega) any left
        exact ⟨any', left', r', hs, .skip hle no ht⟩
      · have hlm := p.lo
        have hmr := p.interval
        have hmm := p.hi
        rw [he, bind_ok, if_neg (by omega), hread m (by omega) (by omega), bind_ok]
        by_cases hlt : (a m).value < addr
        · rw [if_pos hlt]
          obtain ⟨any', left', r', hs, ht⟩ := @ih addr _ _ (show (0 : Int) ≤ (l + r) / 2 + 1 by omega) (by omega) hr
            (by omega) (fun _ => by omega) true m
          exact ⟨any', left', r', hs, .less p hlt ht⟩
        · rw [if_neg hlt]
          by_cases hgt : (a m).value > addr
          · rw [if_pos hgt]
            obtain ⟨any', left', r', hs, ht⟩ := @ih addr _ _ h0 hl (show m - 1 ≤ R by omega) (by omega)
              (fun _ => by omega) true left
            exact ⟨any', left', r', hs, .greater p hgt ht⟩
          · rw [if_neg hgt]
            have heq : value a m = addr := le_antisymm (not_lt.mp hgt) (not_lt.mp hlt)
            have hmore := hn' ⟨m, p, heq⟩
            -- when `l` stays, the next probe is `m` again, and no longer at the address
            have hagain : (∃ k, LastHit (counts a type) m ((m + r) / 2) k ∧ value a k = addr + 1) →
                2 * (r + 1 - m).toNat + 2 ≤ n := by
              rintro ⟨k, pk, hk⟩
              rcases Int.lt_or_eq_of_le hlm with h | rfl
              · omega
              · obtain rfl := p.unique pk
                rw [heq] at hk
                exact absurd hk.symm (succ_ne addr)
            obtain ⟨any', left', r', hs, ht⟩ := ih (show 0 ≤ m by omega) (by omega) hr (by omega) hagain true m
            exact ⟨any', left', r', hs, .equal p heq ht⟩

end

theorem searchLoop_succ {x : Bool × Region} {g : Region} (h : searchLoop read type n l r any g addr = .ok x) :
    searchLoop read type (n + 1) l r any g addr = .ok x := by
  induction n generalizing l r any g addr with
  | zero => cases h
  | succ n ih =>
    rw [searchLoop] at h ⊢
    by_cases hle : l ≤ r
    · rw [if_pos hle] at h ⊢
      dsimp only at h ⊢
      cases hm : scanDown read type l ((l + r).tdiv 2) with
      | error e => rw [hm] at h; cases h
      | ok m =>
        rw [hm, bind_ok] at h
        rw [bind_ok]
        by_cases hml : m < l
        · rw [if_pos hml] at h ⊢
          exact ih h
        · rw [if_neg hml] at h ⊢
          cases hs : read m with
          | error e => rw [hs] at h; cases h
          | ok s =>
            rw [hs, bind_ok] at h
            rw [bind_ok]
            by_cases hlt : s.value < addr
            · rw [if_pos hlt] at h ⊢
              exact ih h
            · rw [if_neg hlt] at h ⊢
              by_cases hgt : s.value > addr
              · rw [if_pos hgt] at h ⊢
                exact ih h
              · rw [if_neg hgt] at h ⊢
                exact ih h
    · rw [if_neg hle] at h ⊢
      exact h

theorem searchLoop_le {n' : Nat} {x : Bool × Region} {g : Region} (hn : n ≤ n')
    (h : searchLoop read type n l r any g addr = .ok x) : searchLoop read type n' l r any g addr = .ok x := by
  induction hn with
  | refl => exact h
  | step _ ih => exact searchLoop_succ ih

/-- **The search** on an array that can be read in `[L, R]` ends, with what `Result` says. -/
theorem binsearch_result (hread : ∀ i, L ≤ i → i ≤ R → read i = .ok (a i)) (h0 : 0 ≤ L) (type addr : Word) :
    ∃ g : Region, (∀ n ≥ turns L R, binsearch n read ⟨L, R⟩ type addr = .ok g) ∧
      Result (counts a type) (value a) succ L R addr g.left g.right := by
  obtain ⟨any, left, right, hs, ht⟩ := @searchLoop_turns _ _ type addr _ _ _ _ (turns L R) hread h0
    (Int.le_refl L) (Int.le_refl R) (by unfold turns; omega) (fun _ => Nat.le_refl _) false L
  have hloop : ∀ n ≥ turns L R, searchLoop read type n L R false ⟨L, R⟩ addr = .ok (any, ⟨left, right⟩) := fun n hn =>
    searchLoop_le hn hs
  cases any with
  | false =>
    refine ⟨⟨left, left - 1⟩, fun n hn => ?_, Or.inl ⟨right, ht, rfl⟩⟩
    rw [binsearch, hloop n hn]
    rfl
  | true =>
    obtain ⟨hge, hle⟩ := ht.bounds (Int.le_refl L) (Int.le_refl R) (Int.le_refl L)
    obtain ⟨k, he, h1, h2, h3, h4, h5⟩ := scanDown_ok hread type (show L ≤ left + 1 by omega) hle
    have hscan : ScanEnd (counts a type) left right k := by
      refine ⟨h1, fun h => ?_, fun h => h3 (by omega), fun h => h5 (by omega), h4⟩
      by_cases h' : left + 1 ≤ right
      · have := h2 h'
        omega
      · have := h3 (by omega)
        omega
    refine ⟨⟨k, right⟩, fun n hn => ?_, Or.inr ⟨left, ht, hscan⟩⟩
    rw [binsearch, hloop n hn, bind_ok]
    dsimp only
    rw [he]
    rfl

theorem within_read (a : Int → Stab) : ∀ i, L ≤ i → i ≤ R → within a L R i = .ok (a i) := fun _ h1 h2 => if_pos ⟨h1, h2⟩

theorem binsearch_unique {g g' : Region} (h : ∀ n ≥ turns L R, binsearch n read ⟨L, R⟩ type addr = .ok g)
    (h' : ∀ n ≥ turns L R, binsearch n read ⟨L, R⟩ type addr = .ok g') : g = g' :=
  Except.ok.inj ((h _ (Nat.le_refl _)).symm.trans (h' _ (Nat.le_refl _)))

/-- **Termination.** For any contents of the array, any type and any address the search ends, with at most
`turns L R` turns of its loop, and reads no index outside `[L, R]`. -/
theorem stabBinsearch_ends (a : Int → Stab) {L : Int} (h0 : 0 ≤ L) (R : Int) (type addr : Word) :
    ∃ g : Region, ∀ n ≥ turns L R, binsearch n (within a L R) ⟨L, R⟩ type addr = .ok g := by
  obtain ⟨g, hg, _⟩ := binsearch_result (within_read a) h0 type addr
  exact ⟨g, hg⟩

def shuffled (i : Int) : Stab := ⟨0, if i = 1 then nSline else nFun, 0, if i = 0 then 0x3000 else if i = 2 then 0x1000 else 0x2000⟩

theorem stabBinsearch_ends_small : ∃ g : Region,
    ∀ n ≥ turns 0 3, binsearch n (within shuffled 0 3) ⟨0, 3⟩ 0x24 0x1800 = .ok g :=
  stabBinsearch_ends shuffled (Int.le_refl 0) 3 0x24 0x1800

/-- **Nothing found.** The search says that no stab contains the address just when there is no stab of the type
at all: stabs above the address leave a region that looks found. -/
theorem stabBinsearch_absent_iff (a : Int → Stab) {L : Int} (h0 : 0 ≤ L) (R : Int) (type addr : Word) :
    ∃ g : Region, (∀ n ≥ turns L R, binsearch n (within a L R) ⟨L, R⟩ type addr = .ok g) ∧
      (g.left > g.right ↔ ∀ i, L ≤ i → i ≤ R → ¬ counts a type i) := by
  obtain ⟨g, hg, hr⟩ := binsearch_result (within_read a) h0 type addr
  exact ⟨g, hg, hr.right_lt_left_iff⟩

/-- Functions are found, in a region that says so, below all of them; source files are not. -/
theorem stabBinsearch_absent_small :
    (∃ g : Region, (∀ n ≥ turns 0 3, binsearch n (within shuffled 0 3) ⟨0, 3⟩ 0x24 0x800 = .ok g) ∧ ¬ g.left > g.right) ∧
    ∃ g : Region, (∀ n ≥ turns 0 3, binsearch n (within shuffled 0 3) ⟨0, 3⟩ 0x64 0x800 = .ok g) ∧ g.left > g.right := by
  obtain ⟨g, hg, h⟩ := stabBinsearch_absent_iff shuffled (Int.le_refl 0) 3 0x24 0x800
  obtain ⟨g', hg', h'⟩ := stabBinsearch_absent_iff shuffled (Int.le_refl 0) 3 0x64 0x800
  refine ⟨⟨g, hg, fun hgt => h.mp hgt 0 (by decide) (by decide) rfl⟩, ⟨g', hg', h'.mpr fun i _ _ => ?_⟩⟩
  show (shuffled i).type.setWidth 32 ≠ 0x64
  unfold shuffled
  dsimp only
  split
  · decide
  · decide

abbrev InOrder (a : Int → Stab) (type : Word) (L R : Int) : Prop := Sorted (counts a type) (value a) L R

/-- **Found.** Where stabs of the type lie at or below the address, the search finds the last one and the end of
its region, just when it does not meet the address and then the next address as well. -/
theorem stabBinsearch_found_iff (a : Int → Stab) {L R : Int} (h0 : 0 ≤ L) (type : Word) {addr : Word}
    (hmax : addr ≠ 0xFFFFFFFF) (hs : InOrder a type L R)
    (he : ∃ i, L ≤ i ∧ i ≤ R ∧ counts a type i ∧ value a i ≤ addr) :
    ∃ g : Region, (∀ n ≥ turns L R, binsearch n (within a L R) ⟨L, R⟩ type addr = .ok g) ∧
      (Brackets (counts a type) (value a) L R addr g.left g.right ↔
        ¬ Overshoots (counts a type) (value a) succ addr L R) := by
  obtain ⟨g, hg, hr⟩ := binsearch_result (within_read a) h0 type addr
  obtain ⟨i, h1, h2, h3, h4⟩ := he
  exact ⟨g, hg, hr.brackets_iff hs (fun h => not_lt.mpr h4 (h i h1 h2 h3)) (lt_succ_iff hmax) succ_ne⟩

/-! ## Two functions -/

def twoFuns (i : Int) : Stab := ⟨0, nFun, 0, if i ≤ 0 then 0x1000 else 0x1001⟩

theorem twoFuns_counts (i : Int) : counts twoFuns 0x24 i := by
  show (twoFuns i).type.setWidth 32 = 0x24
  rfl

theorem twoFuns_inOrder : InOrder twoFuns 0x24 0 1 := by
  intro i j _ hij _ _ _
  unfold value twoFuns
  dsimp only
  split
  · split
    · exact le_refl _
    · decide
  · rw [if_neg (by omega)]

theorem stabBinsearch_found_small : ∃ g : Region,
    (∀ n ≥ turns 0 1, binsearch n (within twoFuns 0 1) ⟨0, 1⟩ 0x24 0x1800 = .ok g) ∧
      (Brackets (counts twoFuns 0x24) (value twoFuns) 0 1 0x1800 g.left g.right ↔
        ¬ Overshoots (counts twoFuns 0x24) (value twoFuns) succ 0x1800 0 1) :=
  stabBinsearch_found_iff twoFuns (Int.le_refl 0) 0x24 (by decide) twoFuns_inOrder
    ⟨0, by decide, by decide, twoFuns_counts 0, by decide⟩

/-- For the first function's address the search ends in the second one. -/
theorem stabBinsearch_next_function : ¬ ∀ (a : Int → Stab) (L R : Int) (type addr : Word), 0 ≤ L → L ≤ R →
    addr ≠ 0xFFFFFFFF → InOrder a type L R → (∃ i, L ≤ i ∧ i ≤ R ∧ counts a type i ∧ value a i ≤ addr) →
    ∃ g : Region, (∀ n ≥ turns L R, binsearch n (within a L R) ⟨L, R⟩ type addr = .ok g) ∧
      Brackets (counts a type) (value a) L R addr g.left g.right := by
  intro h
  obtain ⟨g, hg, hb⟩ := h twoFuns 0 1 0x24 0x1000 (by decide) (by decide) (by decide) twoFuns_inOrder
    ⟨0, by decide, by decide, twoFuns_counts 0, by decide⟩
  obtain ⟨g', hg', hr⟩ := binsearch_result (within_read twoFuns) (show (0 : Int) ≤ 0 by decide) 0x24 0x1000
  obtain rfl := binsearch_unique hg hg'
  have hlast : ∀ l h : Int, l ≤ h → LastHit (counts twoFuns 0x24) l h h := fun l h hle =>
    ⟨hle, Int.le_refl h, twoFuns_counts h, fun i h1 h2 => by omega⟩
  have m₀ : Meets (counts twoFuns 0x24) (value twoFuns) 0x1000 0 1 0 1 := .here (hlast 0 _ (by decide)) rfl
  have m₁ : Meets (counts twoFuns 0x24) (value twoFuns) 0x1001 1 1 0 1 :=
    .less (hlast 0 _ (by decide)) (show (0x1000 : Word) < 0x1001 by decide) (.here (hlast 1 _ (by decide)) rfl)
  have hover : Overshoots (counts twoFuns 0x24) (value twoFuns) succ 0x1000 0 1 :=
    ⟨0, 1, m₀, 1, 1, m₁, fun hn => absurd hn.1 (by decide)⟩
  exact (hr.brackets_iff twoFuns_inOrder (fun h => absurd (h 0 (by decide) (by decide) (twoFuns_counts 0)) (by decide))
    (lt_succ_iff (by decide)) succ_ne).mp hb hover

/-- Below both functions the search does not say that nothing was found. -/
theorem stabBinsearch_below : ¬ ∀ (a : Int → Stab) (L R : Int) (type addr : Word), 0 ≤ L → L ≤ R →
    InOrder a type L R → (∀ i, L ≤ i → i ≤ R → counts a type i → addr < value a i) →
    ∃ g : Region, (∀ n ≥ turns L R, binsearch n (within a L R) ⟨L, R⟩ type addr = .ok g) ∧ g.left > g.right := by
  intro h
  obtain ⟨g, hg, hgt⟩ := h twoFuns 0 1 0x24 0x800 (by decide) (by decide) twoFuns_inOrder fun i _ _ _ => by
    unfold value twoFuns
    dsimp only
    split
    · decide
    · decide
  obtain ⟨g', hg', hr⟩ := binsearch_result (within_read twoFuns) (show (0 : Int) ≤ 0 by decide) 0x24 0x800
  obtain rfl := binsearch_unique hg hg'
  exact hr.right_lt_left_iff.mp hgt 0 (by decide) (by decide) (twoFuns_counts 0)

end Jos.Kdebug.Stabs
