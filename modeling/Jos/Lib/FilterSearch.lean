import Mathlib.Order.Lattice
import Mathlib.Tactic.Common

/-!
# Binary search over an array in which only some entries count

`hit i` says that entry `i` counts, and `val i` is its value. A turn of the search
takes the last entry that counts at or before the middle and compares it with `x`.
A search that meets `x` does not stop: it goes on for `next x`, to find the right
end as well. `Turns` are the turns of the loop, `Result` what the search leaves after
a last scan to the left.

On values in order the search brackets `x` unless it meets `x` and then `next x`, which
it takes for part of the same region. `Overshoots` says when.
-/

namespace FilterSearch

variable {α : Type*} [LinearOrder α]

section
variable (hit : Int → Prop) (val : Int → α) (next : α → α)

structure LastHit (l h m : Int) : Prop where
  lo : l ≤ m
  hi : m ≤ h
  counts : hit m
  last : ∀ i, m < i → i ≤ h → ¬ hit i

def NoHit (l h : Int) : Prop := ∀ i, l ≤ i → i ≤ h → ¬ hit i

/-- The loop on `[l, r]`: whether an entry has counted yet, the left end so far and the value that
is searched for; then what the loop ends with. The right end is `r`. -/
inductive Turns : Int → Int → Bool → Int → α → Bool → Int → Int → Prop
  | done {l r any left x} (lt : r < l) : Turns l r any left x any left r
  | skip {l r any left x any' left' r'} (le : l ≤ r) (no : NoHit hit l ((l + r) / 2))
      (rest : Turns ((l + r) / 2 + 1) r any left x any' left' r') : Turns l r any left x any' left' r'
  | less {l r any left x any' left' r' m} (probe : LastHit hit l ((l + r) / 2) m) (lt : val m < x)
      (rest : Turns ((l + r) / 2 + 1) r true m x any' left' r') : Turns l r any left x any' left' r'
  | greater {l r any left x any' left' r' m} (probe : LastHit hit l ((l + r) / 2) m) (gt : x < val m)
      (rest : Turns l (m - 1) true left x any' left' r') : Turns l r any left x any' left' r'
  | equal {l r any left x any' left' r' m} (probe : LastHit hit l ((l + r) / 2) m) (eq : val m = x)
      (rest : Turns m r true m (next x) any' left' r') : Turns l r any left x any' left' r'

/-- The search for `x` in `[l, r]` compares equal first at `m`, with `h` as its right end then. -/
inductive Meets (x : α) (m h : Int) : Int → Int → Prop
  | here {l} (probe : LastHit hit l ((l + h) / 2) m) (eq : val m = x) : Meets x m h l h
  | skip {l r} (le : l ≤ r) (no : NoHit hit l ((l + r) / 2)) (rest : Meets x m h ((l + r) / 2 + 1) r) : Meets x m h l r
  | less {l r k} (probe : LastHit hit l ((l + r) / 2) k) (lt : val k < x) (rest : Meets x m h ((l + r) / 2 + 1) r) :
      Meets x m h l r
  | greater {l r k} (probe : LastHit hit l ((l + r) / 2) k) (gt : x < val k) (rest : Meets x m h l (k - 1)) :
      Meets x m h l r

structure ScanEnd (left right k : Int) : Prop where
  le : k ≤ right
  ge : left ≤ right → left ≤ k
  stop : right ≤ left → k = right
  counts : left < k → hit k
  none : ∀ i, k < i → i ≤ right → ¬ hit i

def Result (L R : Int) (x : α) (left right : Int) : Prop :=
  (∃ r, Turns hit val next L R false L x false left r ∧ right = left - 1) ∨
    ∃ left', Turns hit val next L R false L x true left' right ∧ ScanEnd hit left' right left

/-- `left` is the last entry at or below `x`, and `right` lies before the first one above it. -/
structure Brackets (L R : Int) (x : α) (left right : Int) : Prop where
  left_ge : L ≤ left
  left_le : left ≤ R
  left_hit : hit left
  left_val : val left ≤ x
  left_last : ∀ i, left < i → i ≤ R → hit i → x < val i
  right : (right = R ∧ ∀ i, L ≤ i → i ≤ R → hit i → val i ≤ x) ∨
    (L ≤ right + 1 ∧ right + 1 ≤ R ∧ hit (right + 1) ∧ x < val (right + 1) ∧
      ∀ i, L ≤ i → i < right + 1 → hit i → val i ≤ x)

/-- After `x` the search meets `next x`. Where `next` wraps, it may still end well. -/
def Overshoots (x : α) (l r : Int) : Prop :=
  ∃ m h, Meets hit val x m h l r ∧ ∃ b h', Meets hit val (next x) b h' m h ∧
    ¬ (next (next x) < next x ∧ hit (b - 1) ∧ val (b - 1) ≤ x)

/-- The search for `x` does not end at `x`. Where `next` wraps at `x` itself, meeting it is enough. -/
def Strays (x : α) (l r : Int) : Prop :=
  Overshoots hit val next x l r ∨ (next x < x ∧ ∃ m h, Meets hit val x m h l r)

end

section
variable {hit : Int → Prop} {val : Int → α} {next : α → α} {l r m h k L R left left' r' : Int} {x a : α} {any any' : Bool}

/-! ## Probes -/

theorem LastHit.unique (p : LastHit hit l h m) (q : LastHit hit l h k) : m = k := by
  rcases Int.lt_trichotomy m k with hlt | heq | hgt
  · exact absurd q.counts (p.last k hlt q.hi)
  · exact heq
  · exact absurd p.counts (q.last m hgt p.hi)

theorem LastHit.not_noHit (p : LastHit hit l h m) : ¬ NoHit hit l h := fun no => no m p.lo p.hi p.counts

theorem LastHit.interval (p : LastHit hit l ((l + r) / 2) m) : l ≤ r ∧ m ≤ r := by
  have := p.lo
  have := p.hi
  omega

/-! ## What the loop does to its bounds -/

theorem Turns.bounds (t : Turns hit val next l r any left x any' left' r') (hl : L ≤ l) (hr : r ≤ R) (hleft : L ≤ left) :
    L ≤ left' ∧ r' ≤ R := by
  induction t with
  | done => exact ⟨hleft, hr⟩
  | skip le _ _ ih => exact ih (by omega) hr hleft
  | less p _ _ ih =>
    have := p.lo
    have := p.interval
    exact ih (by omega) hr (by omega)
  | greater p _ _ ih =>
    have := p.interval
    exact ih hl (by omega) hleft
  | equal p _ _ ih =>
    have := p.lo
    exact ih (by omega) hr (by omega)

theorem Turns.any_of_any (t : Turns hit val next l r any left x any' left' r') (h : any = true) : any' = true := by
  induction t with
  | done => exact h
  | skip _ _ _ ih => exact ih h
  | less _ _ _ ih => exact ih rfl
  | greater _ _ _ ih => exact ih rfl
  | equal _ _ _ ih => exact ih rfl

theorem Turns.unmatched (t : Turns hit val next l r any left x any' left' r') (h : any' = false) :
    left' = left ∧ r' = r ∧ NoHit hit l r := by
  induction t with
  | done lt => exact ⟨rfl, rfl, fun i h1 h2 => by omega⟩
  | @skip l r _ _ _ _ _ _ _ no _ ih =>
    obtain ⟨h1, h2, h3⟩ := ih h
    refine ⟨h1, h2, fun i hl hr => ?_⟩
    rcases Int.lt_or_le ((l + r) / 2) i with hlt | hle
    · exact h3 i hlt hr
    · exact no i hl hle
  | less _ _ rest _ => rw [rest.any_of_any rfl] at h; cases h
  | greater _ _ rest _ => rw [rest.any_of_any rfl] at h; cases h
  | equal _ _ rest _ => rw [rest.any_of_any rfl] at h; cases h

theorem Turns.matched (t : Turns hit val next l r false left x any' left' r') (h : any' = true) :
    ¬ NoHit hit l r := by
  generalize ha : false = any at t
  induction t with
  | done => rw [← ha] at h; cases h
  | skip _ _ _ ih => exact fun no => ih h ha fun i h1 h2 => no i (by omega) h2
  | less p _ _ _ => exact fun no => no _ p.lo p.interval.2 p.counts
  | greater p _ _ _ => exact fun no => no _ p.lo p.interval.2 p.counts
  | equal p _ _ _ => exact fun no => no _ p.lo p.interval.2 p.counts

theorem Result.right_lt_left_iff {right : Int} (t : Result hit val next L R x left right) :
    right < left ↔ NoHit hit L R := by
  rcases t with ⟨r', t, rfl⟩ | ⟨left', t, s⟩
  · exact iff_of_true (by omega) (t.unmatched rfl).2.2
  · exact iff_of_false (fun h => by have := s.le; omega) (t.matched rfl)

/-! ## Where a search meets a value -/

theorem Meets.le (t : Meets hit val x m h l r) : l ≤ r := by
  cases t with
  | here p _ => exact p.interval.1
  | skip le _ _ => exact le
  | less p _ _ => exact p.interval.1
  | greater p _ _ => exact p.interval.1

theorem Meets.spec (t : Meets hit val x m h l r) : l ≤ m ∧ m ≤ h ∧ h ≤ r ∧ hit m ∧ val m = x := by
  induction t with
  | here p eq => exact ⟨p.lo, p.interval.2, Int.le_refl _, p.counts, eq⟩
  | skip le _ _ ih => exact ⟨by omega, ih.2⟩
  | less p _ _ ih =>
    have := p.interval
    exact ⟨by omega, ih.2⟩
  | greater p _ _ ih =>
    have := p.interval
    exact ⟨ih.1, ih.2.1, by omega, ih.2.2.2⟩

theorem meets_skip (le : l ≤ r) (no : NoHit hit l ((l + r) / 2)) :
    Meets hit val x m h l r ↔ Meets hit val x m h ((l + r) / 2 + 1) r := by
  refine ⟨fun t => ?_, .skip le no⟩
  cases t with
  | here p _ => exact absurd no p.not_noHit
  | skip _ _ rest => exact rest
  | less p _ _ => exact absurd no p.not_noHit
  | greater p _ _ => exact absurd no p.not_noHit

theorem meets_less (p : LastHit hit l ((l + r) / 2) k) (lt : val k < x) :
    Meets hit val x m h l r ↔ Meets hit val x m h ((l + r) / 2 + 1) r := by
  refine ⟨fun t => ?_, .less p lt⟩
  cases t with
  | here q eq => rw [p.unique q, eq] at lt; exact absurd lt (lt_irrefl x)
  | skip _ no _ => exact absurd no p.not_noHit
  | less _ _ rest => exact rest
  | greater q gt _ => rw [p.unique q] at lt; exact absurd gt (lt_asymm lt)

theorem meets_greater (p : LastHit hit l ((l + r) / 2) k) (gt : x < val k) :
    Meets hit val x m h l r ↔ Meets hit val x m h l (k - 1) := by
  refine ⟨fun t => ?_, .greater p gt⟩
  cases t with
  | here q eq => rw [p.unique q, eq] at gt; exact absurd gt (lt_irrefl x)
  | skip _ no _ => exact absurd no p.not_noHit
  | less q lt _ => rw [p.unique q] at gt; exact absurd gt (lt_asymm lt)
  | greater q _ rest => rwa [p.unique q]

theorem meets_equal (p : LastHit hit l ((l + r) / 2) k) (eq : val k = x) :
    Meets hit val x m h l r ↔ m = k ∧ h = r := by
  constructor
  · intro t
    cases t with
    | here q _ => exact ⟨q.unique p, rfl⟩
    | skip _ no _ => exact absurd no p.not_noHit
    | less q lt _ => rw [← p.unique q, eq] at lt; exact absurd lt (lt_irrefl x)
    | greater q gt _ => rw [← p.unique q, eq] at gt; exact absurd gt (lt_irrefl x)
  · rintro ⟨rfl, rfl⟩
    exact .here p eq

theorem Meets.unique {m' h' : Int} (t : Meets hit val x m h l r) (t' : Meets hit val x m' h' l r) : m' = m ∧ h' = h := by
  induction t with
  | here p eq => exact (meets_equal p eq).mp t'
  | skip le no _ ih => exact ih ((meets_skip le no).mp t')
  | less p lt _ ih => exact ih ((meets_less p lt).mp t')
  | greater p gt _ ih => exact ih ((meets_greater p gt).mp t')

/-! ## Values in order -/

variable (hit val) in
def Sorted (L R : Int) : Prop := ∀ i j, L ≤ i → i ≤ j → j ≤ R → hit i → hit j → val i ≤ val j

variable (hit val) in
/-- What lies outside of `[l, r]` is on its side of `a`, and `left` is an entry at or below `a`, if
one has been passed. -/
structure Split (a : α) (L R l r left : Int) : Prop where
  lo : L ≤ l
  hi : r ≤ R
  below : ∀ i, L ≤ i → i < l → hit i → val i ≤ a
  above : ∀ i, r < i → i ≤ R → hit i → a < val i
  right : r = R ∨ (L ≤ r + 1 ∧ r + 1 ≤ R ∧ hit (r + 1))
  left : (left = L ∧ ∀ i, L ≤ i → i < l → ¬ hit i) ∨ (L ≤ left ∧ left ≤ R ∧ hit left ∧ val left ≤ a)

section
variable (hs : Sorted hit val L R) (hi : Split hit val a L R l r left)
include hi

theorem Split.skip (le : l ≤ r) (no : NoHit hit l ((l + r) / 2)) : Split hit val a L R ((l + r) / 2 + 1) r left := by
  have hnew : ∀ i, L ≤ i → i < (l + r) / 2 + 1 → hit i → i < l := fun i _ h2 h3 => by
    by_contra hge
    exact no i (by omega) (by omega) h3
  have := hi.lo
  refine ⟨by omega, hi.hi, fun i h1 h2 h3 => hi.below i h1 (hnew i h1 h2 h3) h3, hi.above, hi.right, ?_⟩
  rcases hi.left with ⟨h, hno⟩ | h
  · exact Or.inl ⟨h, fun i h1 h2 h3 => hno i h1 (hnew i h1 h2 h3) h3⟩
  · exact Or.inr h

include hs

theorem Split.pass (p : LastHit hit l ((l + r) / 2) m) (hm : val m ≤ a) :
    Split hit val a L R ((l + r) / 2 + 1) r m := by
  have hlo := hi.lo
  have hhi := hi.hi
  have hp := p.interval
  have hpl := p.lo
  refine ⟨by omega, hi.hi, fun i h1 h2 h3 => ?_, hi.above, hi.right, Or.inr ⟨by omega, by omega, p.counts, hm⟩⟩
  have him : i ≤ m := by
    by_contra hlt
    exact p.last i (by omega) (by omega) h3
  exact le_trans (hs i m h1 him (by omega) h3 p.counts) hm

theorem Split.cut (p : LastHit hit l ((l + r) / 2) m) (hm : a < val m) : Split hit val a L R l (m - 1) left := by
  have hlo := hi.lo
  have hhi := hi.hi
  have hp := p.interval
  have hpl := p.lo
  refine ⟨hi.lo, by omega, hi.below, fun i h1 h2 h3 => ?_, Or.inr ?_, hi.left⟩
  · exact lt_of_lt_of_le hm (hs m i (by omega) (by omega) h2 p.counts h3)
  · rw [Int.sub_add_cancel]
    exact ⟨by omega, by omega, p.counts⟩

theorem Split.meet (p : LastHit hit l ((l + r) / 2) m) (hm : val m = a) : Split hit val a L R m r m := by
  have hlo := hi.lo
  have hhi := hi.hi
  have hp := p.interval
  have hpl := p.lo
  refine ⟨by omega, hi.hi, fun i h1 h2 h3 => ?_, hi.above, hi.right, Or.inr ⟨by omega, by omega, p.counts, le_of_eq hm⟩⟩
  exact hm ▸ hs i m h1 (by omega) (by omega) h3 p.counts

end

theorem Split.brackets (hi : Split hit val a L R l r left) (hlt : r < l) (he : ¬ ∀ i, L ≤ i → i ≤ R → hit i → a < val i)
    (sc : ScanEnd hit left r k) : Brackets hit val L R a k r := by
  push Not at he
  obtain ⟨e, h1, h2, h3, h4⟩ := he
  have her : e ≤ r := by
    by_contra hgt
    exact absurd (hi.above e (by omega) h2 h3) (not_lt.mpr h4)
  obtain ⟨hl, hlR, hlh, hlv⟩ : L ≤ left ∧ left ≤ R ∧ hit left ∧ val left ≤ a := by
    rcases hi.left with ⟨_, hno⟩ | h
    · exact absurd h3 (hno e h1 (by omega))
    · exact h
  have hle : left ≤ r := by
    by_contra hgt
    exact absurd (hi.above left (by omega) hlR hlh) (not_lt.mpr hlv)
  have hk := sc.ge hle
  have hkr := sc.le
  have hkh : hit k := by
    rcases Int.lt_or_eq_of_le hk with h | rfl
    · exact sc.counts h
    · exact hlh
  have hlow : ∀ i, L ≤ i → i ≤ r → hit i → val i ≤ a := fun i h1 h2 => hi.below i h1 (by omega)
  have hrR := hi.hi
  refine ⟨by omega, by omega, hkh, hlow k (by omega) hkr hkh, fun i h1 h2 h3 => ?_, ?_⟩
  · by_cases hir : i ≤ r
    · exact absurd h3 (sc.none i h1 hir)
    · exact hi.above i (by omega) h2 h3
  · rcases hi.right with rfl | ⟨h1, h2, h3⟩
    · exact Or.inl ⟨rfl, hlow⟩
    · exact Or.inr ⟨h1, h2, h3, hi.above _ (by omega) h2 h3, fun i h4 h5 => hlow i h4 (by omega)⟩

/-! ## The search for `a` -/

/-- Either the search for `x` in `[l, r]` ends without meeting `x`, or it goes on from there for `next x`. -/
theorem Turns.meets_or (t : Turns hit val next l r any left x any' left' r') :
    (∀ m h, ¬ Meets hit val x m h l r) ∨
      ∃ m h, Meets hit val x m h l r ∧ Turns hit val next m h true m (next x) any' left' r' := by
  induction t with
  | done lt => exact Or.inl fun m h t => absurd t.le (by omega)
  | skip le no _ ih => simpa only [meets_skip le no] using ih
  | less p lt _ ih => simpa only [meets_less p lt] using ih
  | greater p gt _ ih => simpa only [meets_greater p gt] using ih
  | equal p eq rest _ => exact Or.inr ⟨_, _, .here p eq, rest⟩

theorem Turns.after (t : Turns hit val next l r any left x any' left' r') (hm : Meets hit val x m h l r) :
    Turns hit val next m h true m (next x) any' left' r' := by
  rcases t.meets_or with hno | ⟨m', h', hm', rest⟩
  · exact absurd hm (hno m h)
  · obtain ⟨rfl, rfl⟩ := hm.unique hm'
    exact rest

section
variable (hs : Sorted hit val L R)
include hs

theorem Turns.split (t : Turns hit val next l r any left x any' left' r') (hlt : ∀ v, v < x → v ≤ a)
    (hgt : ∀ v, x < v → a < v) (hno : ∀ m h, ¬ Meets hit val x m h l r) (hi : Split hit val a L R l r left) :
    ∃ l', r' < l' ∧ Split hit val a L R l' r' left' := by
  induction t with
  | done lt => exact ⟨_, lt, hi⟩
  | skip le no _ ih => exact ih hlt hgt (by simpa only [meets_skip le no] using hno) (hi.skip le no)
  | less p lt _ ih => exact ih hlt hgt (by simpa only [meets_less p lt] using hno) (hi.pass hs p (hlt _ lt))
  | greater p gt _ ih => exact ih hlt hgt (by simpa only [meets_greater p gt] using hno) (hi.cut hs p (hgt _ gt))
  | equal p eq _ _ => exact absurd (.here p eq) (hno _ _)

theorem Meets.split (t : Meets hit val a m h l r) (hi : Split hit val a L R l r left) : Split hit val a L R m h m := by
  induction t generalizing left with
  | here p eq => exact hi.meet hs p eq
  | skip le no _ ih => exact ih (hi.skip le no)
  | less p lt _ ih => exact ih (hi.pass hs p (le_of_lt lt))
  | greater p gt _ ih => exact ih (hi.cut hs p gt)

end

theorem Turns.stays {b : Int} (t : Turns hit val next l r any left x any' left' r')
    (hb : b ≤ left ∧ b ≤ r ∧ ((b ≤ l ∧ val b < x) ∨ b < l)) : b ≤ left' ∧ b ≤ r' := by
  induction t with
  | done => exact ⟨hb.1, hb.2.1⟩
  | skip le _ _ ih => exact ih ⟨hb.1, hb.2.1, Or.inr (by omega)⟩
  | less p _ _ ih =>
    have := p.interval
    have := p.lo
    exact ih ⟨by omega, hb.2.1, Or.inr (by omega)⟩
  | @greater l r _ _ _ _ _ _ m p gt _ ih =>
    have hp := p.lo
    obtain ⟨h1, h2, h3⟩ := hb
    have hne : b ≠ m := fun e => by
      rcases h3 with ⟨_, h⟩ | h
      · exact lt_asymm gt (e ▸ h)
      · omega
    exact ih ⟨h1, by omega, h3⟩
  | @equal l r _ _ _ _ _ _ m p eq _ ih =>
    have hp := p.lo
    have hp' := p.interval
    obtain ⟨h1, h2, h3⟩ := hb
    have hne : b ≠ m := fun e => by
      rcases h3 with ⟨_, h⟩ | h
      · rw [e, eq] at h; exact lt_irrefl _ h
      · omega
    exact ih ⟨by omega, h2, Or.inr (by omega)⟩

theorem Turns.cuts {b : Int} (t : Turns hit val next l r any left x any' left' r') (hb : hit b)
    (hab : ∀ i, b ≤ i → i ≤ r → hit i → x < val i) (hl : l = b) (hr : b ≤ r + 1) : left' = left ∧ r' = b - 1 := by
  induction t with
  | done lt => exact ⟨rfl, by omega⟩
  | skip le no _ _ => exact absurd hb (no b (by omega) (by omega))
  | less p lt _ _ =>
    have := p.lo
    exact absurd lt (lt_asymm (hab _ (by omega) p.interval.2 p.counts))
  | greater p _ _ ih =>
    have := p.lo
    exact ih (fun i h1 h2 => hab i h1 (by have := p.interval; omega)) hl (by omega)
  | equal p eq _ _ =>
    have := p.lo
    have := hab _ (by omega) p.interval.2 p.counts
    rw [eq] at this
    exact absurd this (lt_irrefl _)

theorem Turns.past {b h' : Int} (t : Turns hit val next l r any left a any' left' r') (t1 : Meets hit val a m h l r)
    (t2 : Meets hit val (next a) b h' m h) (hup : next a < next (next a)) : b ≤ left' ∧ b ≤ r' := by
  have hb := t2.spec
  apply ((t.after t1).after t2).stays
  exact ⟨Int.le_refl b, hb.2.1, Or.inl ⟨Int.le_refl b, by rw [hb.2.2.2.2]; exact hup⟩⟩

theorem ScanEnd.ge_of {right b : Int} (sc : ScanEnd hit left right k) (hl : b ≤ left) (hr : b ≤ right) : b ≤ k := by
  rcases Int.le_total left right with hle | hle
  · have := sc.ge hle
    omega
  · have := sc.stop hle
    omega

theorem Turns.right_ge {c : Int} (t : Turns hit val next l r any left x any' left' r') (hc : ∀ i, l ≤ i → hit i → c < i)
    (hr : c ≤ r) : c ≤ r' := by
  induction t with
  | done => exact hr
  | skip le _ _ ih => exact ih (fun i h => hc i (by omega)) hr
  | less p _ _ ih =>
    have := p.interval
    exact ih (fun i h => hc i (by omega)) hr
  | greater p _ _ ih =>
    have := hc _ p.lo p.counts
    exact ih hc (by omega)
  | equal p _ _ ih =>
    have := p.lo
    exact ih (fun i h => hc i (by omega)) hr

theorem Turns.above (t : Turns hit val next l r any left x any' left' r')
    (hab : ∀ i, l ≤ i → i ≤ r → hit i → x < val i) : left' = left ∧ NoHit hit l r' := by
  induction t with
  | done lt => exact ⟨rfl, fun i h1 h2 => by omega⟩
  | @skip l r _ _ _ _ _ _ le no _ ih =>
    obtain ⟨h1, h2⟩ := ih fun i h => hab i (by omega)
    refine ⟨h1, fun i h3 h4 => ?_⟩
    rcases Int.lt_or_le ((l + r) / 2) i with hlt | hle
    · exact h2 i hlt h4
    · exact no i h3 hle
  | less p lt _ _ => exact absurd lt (lt_asymm (hab _ p.lo p.interval.2 p.counts))
  | greater p _ _ ih =>
    have := p.interval
    exact ih fun i h1 h2 => hab i h1 (by omega)
  | equal p eq _ _ => exact absurd (hab _ p.lo p.interval.2 p.counts) (by rw [eq]; exact lt_irrefl _)

/-! ## The bracket -/

section
variable {right right' b : Int} (br : Brackets hit val L R x left right)
include br

theorem Brackets.right_le : right ≤ R := by
  rcases br.right with ⟨rfl, _⟩ | ⟨_, h, _⟩
  · exact Int.le_refl _
  · omega

theorem Brackets.le_of_le_right (h1 : L ≤ b) (h2 : b ≤ right) (hb : hit b) : val b ≤ x := by
  rcases br.right with ⟨rfl, h⟩ | ⟨_, _, _, _, h⟩
  · exact h b h1 h2 hb
  · exact h b h1 (by omega) hb

theorem Brackets.right_lt (h1 : L ≤ b) (hb : hit b) (hx : x < val b) : right < b := by
  by_contra hge
  exact absurd hx (not_lt.mpr (br.le_of_le_right h1 (by omega) hb))

theorem Brackets.only (h1 : left < b) (h2 : b ≤ right) : ¬ hit b := fun hb => by
  have hge := br.left_ge
  have hle := br.right_le
  exact absurd (br.left_last b h1 (by omega) hb) (not_lt.mpr (br.le_of_le_right (by omega) h2 hb))

theorem Brackets.left_ge_of (br' : Brackets hit val L R x left' right') : left' ≤ left := by
  by_contra hlt
  exact absurd (br.left_last left' (by omega) br'.left_le br'.left_hit) (not_lt.mpr br'.left_val)

theorem Brackets.right_ge_of (br' : Brackets hit val L R x left' right') : right' ≤ right := by
  rcases br.right with ⟨rfl, _⟩ | ⟨h1, _, h3, h4, _⟩
  · exact br'.right_le
  · have := br'.right_lt h1 h3 h4
    omega

theorem Brackets.unique (br' : Brackets hit val L R x left' right') : left = left' ∧ right = right' :=
  ⟨Int.le_antisymm (br'.left_ge_of br) (br.left_ge_of br'), Int.le_antisymm (br'.right_ge_of br) (br.right_ge_of br')⟩

end

/-! ## What the search finds -/

section
variable {right b : Int} (t : Result hit val next L R x left right)
include t

theorem Result.of_noHit (no : NoHit hit L R) : left = L ∧ right = L - 1 := by
  rcases t with ⟨r', t, rfl⟩ | ⟨left', t, _⟩
  · have := (t.unmatched rfl).1
    exact ⟨this, by omega⟩
  · exact absurd no (t.matched rfl)

theorem Result.turns (hno : ¬ NoHit hit L R) :
    ∃ left', Turns hit val next L R false L x true left' right ∧ ScanEnd hit left' right left := by
  rcases t with ⟨r, t, _⟩ | t
  · exact absurd (t.unmatched rfl).2.2 hno
  · exact t

theorem Result.right_le (hle : left ≤ right) : right ≤ R := by
  rcases t with ⟨r', _, rfl⟩ | ⟨left', t, _⟩
  · omega
  · exact (t.bounds (Int.le_refl L) (Int.le_refl R) (Int.le_refl L)).2

theorem Result.left_ge (hb : b ≤ L) (hn : ¬ hit b) : b ≤ left := by
  by_cases hno : NoHit hit L R
  · have := (t.of_noHit hno).1
    omega
  · obtain ⟨left', t, sc⟩ := t.turns hno
    have hLR : L ≤ R := by
      by_contra hlt
      exact hno fun i h1 h2 => by omega
    have hl := (t.bounds (Int.le_refl L) (Int.le_refl R) (Int.le_refl L)).1
    apply sc.ge_of (by omega)
    apply t.right_ge _ (by omega)
    intro i hi hc
    exact Int.lt_iff_le_and_ne.mpr ⟨by omega, fun e => hn (e ▸ hc)⟩

theorem Result.left_eq_iff (hab : ∀ i, L ≤ i → i ≤ R → hit i → x < val i) : left = L ↔ ¬ (L ≤ R ∧ hit L) := by
  by_cases hno : NoHit hit L R
  · exact iff_of_true (t.of_noHit hno).1 fun h => hno L (Int.le_refl L) h.1 h.2
  · obtain ⟨left', t', sc⟩ := t.turns hno
    have hLR : L ≤ R := by
      by_contra hlt
      exact hno fun i h1 h2 => by omega
    by_cases hL : hit L
    · obtain ⟨rfl, rfl⟩ := t'.cuts hL hab rfl (by omega)
      have := sc.stop (by omega)
      exact iff_of_false (by omega) fun h => h ⟨hLR, hL⟩
    · obtain ⟨rfl, hnone⟩ := t'.above hab
      have hge := t.left_ge (Int.le_refl _) hL
      refine iff_of_true (Int.le_antisymm (Int.not_lt.mp fun hlt => ?_) hge) fun h => hL h.2
      exact hnone left hge sc.le (sc.counts hlt)

theorem Result.past (hne : ∀ v : α, next v ≠ v) (hup : x < next x) (hup' : next x < next (next x))
    (ho : Strays hit val next x L R) : ∃ b, L < b ∧ b ≤ left ∧ b ≤ R ∧ hit b ∧ val b = next x := by
  rcases ho with ⟨m, h, t1, b, h', t2, _⟩ | ⟨hwrap, _⟩
  · have h1 := t1.spec
    have h2 := t2.spec
    obtain ⟨left', t, sc⟩ := t.turns fun no => no m h1.1 (by omega) h1.2.2.2.1
    have hmb : m ≠ b := fun e => hne x (by rw [← h2.2.2.2.2, ← e, h1.2.2.2.2])
    have hb := t.past t1 t2 hup'
    exact ⟨b, by omega, sc.ge_of hb.1 hb.2, by omega, h2.2.2.2⟩
  · exact absurd hwrap (lt_asymm hup)

end

theorem not_noHit (he : ¬ ∀ i, L ≤ i → i ≤ R → hit i → a < val i) : ¬ NoHit hit L R := fun no =>
  he fun i h1 h2 h3 => absurd h3 (no i h1 h2)

theorem Split.start (hit : Int → Prop) (val : Int → α) (a : α) (L R : Int) : Split hit val a L R L R L :=
  ⟨Int.le_refl _, Int.le_refl _, by omega, by omega, Or.inl rfl, Or.inl ⟨rfl, by omega⟩⟩

section
variable {right : Int} (hs : Sorted hit val L R) (he : ¬ ∀ i, L ≤ i → i ≤ R → hit i → a < val i)
  (t : Result hit val next L R a left right)
include hs he t

theorem Result.brackets_of_unmet (hno : ∀ m h, ¬ Meets hit val a m h L R) : Brackets hit val L R a left right := by
  obtain ⟨left', t, sc⟩ := t.turns (not_noHit he)
  obtain ⟨l', hlt, hi⟩ := t.split hs (fun _ => le_of_lt) (fun _ => id) hno (Split.start hit val a L R)
  exact hi.brackets hlt he sc

variable (ha : ∀ v, v < next a ↔ v ≤ a)
include ha

/-- **The search** for `a` among values in order, at least one of them at or below `a`, brackets `a` just
when it does not overshoot. -/
theorem Result.brackets_iff (hne : ∀ v : α, next v ≠ v) :
    Brackets hit val L R a left right ↔ ¬ Overshoots hit val next a L R := by
  have hlt : a < next a := (ha a).mpr (le_refl a)
  obtain ⟨left', t, sc⟩ := t.turns (not_noHit he)
  by_cases hc : ∀ m h, Meets hit val a m h L R → ∀ b h', ¬ Meets hit val (next a) b h' m h
  · obtain ⟨l', hlt', hsp⟩ : ∃ l', right < l' ∧ Split hit val a L R l' right left' := by
      rcases t.meets_or with hno | ⟨m, h, hm, rest⟩
      · exact t.split hs (fun _ => le_of_lt) (fun _ => id) hno (Split.start hit val a L R)
      · exact rest.split hs (fun v => (ha v).mp) (fun v hv => lt_trans hlt hv) (hc m h hm)
          (hm.split hs (Split.start hit val a L R))
    exact iff_of_true (hsp.brackets hlt' he sc) fun ⟨m, h, t1, b, h', t2, _⟩ => hc m h t1 b h' t2
  · push Not at hc
    obtain ⟨m, h, t1, b, h', t2⟩ := hc
    obtain ⟨hLm, _, hhR, _, hma⟩ := t1.spec
    obtain ⟨hmb, hbh, hhh, hbc, hba⟩ := t2.spec
    have hover : Overshoots hit val next a L R ↔ ¬ (next (next a) < next a ∧ hit (b - 1) ∧ val (b - 1) ≤ a) := by
      constructor
      · rintro ⟨m₁, h₁, u1, b₁, h₂, u2, hn⟩
        obtain ⟨rfl, rfl⟩ := t1.unique u1
        obtain ⟨rfl, rfl⟩ := t2.unique u2
        exact hn
      · exact fun hn => ⟨m, h, t1, b, h', t2, hn⟩
    rw [hover, not_not]
    rcases lt_or_gt_of_ne (hne (next a)) with hwrap | hup
    · -- `next` wraps: what follows lies above, and the last scan steps back over `b`
      obtain ⟨hl', rfl⟩ := ((t.after t1).after t2).cuts hbc (fun i h1 h2 h3 => by
        have := hs b i (by omega) h1 (by omega) hbc h3
        rw [hba] at this
        exact lt_of_lt_of_le hwrap this) rfl (by omega)
      have hleft := sc.stop (by omega)
      subst hleft
      have hmb' : m ≠ b := fun e => hne a (by rw [← hba, ← e, hma])
      refine ⟨fun br => ⟨hwrap, br.left_hit, br.left_val⟩, fun ⟨_, h1, h2⟩ => ?_⟩
      have hab : ∀ i, b ≤ i → i ≤ R → hit i → a < val i := fun i h3 h4 h5 => by
        have := hs b i (by omega) h3 h4 hbc h5
        rw [hba] at this
        exact lt_of_lt_of_le hlt this
      refine ⟨by omega, by omega, h1, h2, fun i h3 => hab i (by omega), Or.inr ?_⟩
      rw [Int.sub_add_cancel]
      exact ⟨by omega, by omega, hbc, hba ▸ hlt, fun i h3 h4 h5 => le_trans (hs i (b - 1) h3 (by omega) (by omega) h5 h1) h2⟩
    · obtain ⟨h1, h2⟩ := t.past t1 t2 hup
      have hbl := sc.ge_of h1 h2
      refine iff_of_false (fun br => ?_) fun hn => lt_asymm hn.1 hup
      have := hs b left (by omega) hbl br.left_le hbc br.left_hit
      rw [hba] at this
      exact not_lt.mpr (le_trans this br.left_val) hlt

end

theorem Result.brackets_of_straight {right : Int} (hs : Sorted hit val L R)
    (he : ¬ ∀ i, L ≤ i → i ≤ R → hit i → a < val i) (t : Result hit val next L R a left right)
    (ha : a < next a → ∀ v, v < next a ↔ v ≤ a) (hne : ∀ v : α, next v ≠ v) (hno : ¬ Strays hit val next a L R) :
    Brackets hit val L R a left right := by
  rcases lt_or_gt_of_ne (hne a) with hwrap | hup
  · exact t.brackets_of_unmet hs he fun m h hm => hno (Or.inr ⟨hwrap, m, h, hm⟩)
  · exact (t.brackets_iff hs he (ha hup) hne).mpr fun ho => hno (Or.inl ho)

end

end FilterSearch
