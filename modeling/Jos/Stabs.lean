import Jos.Kdebug
import Jos.Lib.FilterSearch

/-!
# `stab_binsearch` over any array

The search once more, for an array that is given by what reading `stabs[i]` results
in, and with `type` the `int` that it is: `n_type` is a byte, so most types match
no stab. A stab has 12 bytes, so the sum of two indices into an array stays below
`2^31` and the `int`s of the source do not overflow. On the table of `debuginfo_eip` it is
`stabBinsearch`.
-/

namespace Jos.Kdebug

/-- An array of stabs, by what reading an index gives. -/
abbrev Stabs := Int → Except Fault Stab

def Stab.isType (s : Stab) (type : Word) : Prop := s.type.setWidth 32 = type

instance (s : Stab) (type : Word) : Decidable (s.isType type) := by unfold Stab.isType; infer_instance

namespace Stabs

/-- `while (m >= l && stabs[m].n_type != type) m--;` -/
def scanDown (read : Stabs) (type : Word) (l m : Int) : Except Fault Int :=
  if l ≤ m then
    match read m with
    | .error e => .error e
    | .ok s => if s.isType type then .ok m else scanDown read type l (m - 1)
  else .ok m
termination_by (m + 1 - l).toNat

def searchLoop (read : Stabs) (type : Word) : Nat → Int → Int → Bool → Region → Word → Except Fault (Bool × Region)
  | 0, _, _, _, _, _ => .error .fuel
  | n + 1, l, r, anyMatches, g, addr =>
    if l ≤ r then do
      let trueM := (l + r).tdiv 2
      let m ← scanDown read type l trueM
      if m < l then searchLoop read type n (trueM + 1) r anyMatches g addr
      else do
        let s ← read m
        if s.value < addr then searchLoop read type n (trueM + 1) r true { g with left := m } addr
        else if s.value > addr then searchLoop read type n l (m - 1) true { g with right := m - 1 } addr
        else searchLoop read type n m r true { g with left := m } (addr + 1)
    else .ok (anyMatches, g)

def binsearch (n : Nat) (read : Stabs) (g : Region) (type : Word) (addr : Word) : Except Fault Region := do
  let (anyMatches, g) ← searchLoop read type n g.left g.right false g addr
  if ¬ anyMatches then .ok { g with right := g.left - 1 }
  else do
    let l ← scanDown read type (g.left + 1) g.right
    .ok { g with left := l }

/-- The array `a` between `L` and `R`: any other index is out of bounds. -/
def within (a : Int → Stab) (L R : Int) : Stabs := fun i => if L ≤ i ∧ i ≤ R then .ok (a i) else .error .bounds

def turns (L R : Int) : Nat := 2 * (R + 1 - L).toNat + 2

end Stabs

/-! ## The table of `debuginfo_eip` -/

theorem isType_byte (s : Stab) (type : Byte) : s.isType (type.setWidth 32) ↔ s.type = type := by
  unfold Stab.isType
  constructor
  · intro h
    have := congrArg (BitVec.setWidth 8) h
    simpa using this
  · rintro rfl
    rfl

theorem scanDown_readStab (t : List Stab) (type : Byte) (l m : Int) :
    Stabs.scanDown (readStab t) (type.setWidth 32) l m = scanDown t (·.type = type) l m := by
  fun_induction scanDown t (·.type = type) l m with
  | case1 m hle e he => rw [Stabs.scanDown, if_pos hle, he]
  | case2 m hle s he hs =>
    rw [Stabs.scanDown, if_pos hle, he]
    exact if_pos ((isType_byte s type).mpr (of_decide_eq_true hs))
  | case3 m hle s he hs ih =>
    rw [Stabs.scanDown, if_pos hle, he, ← ih]
    exact if_neg fun h => hs (decide_eq_true ((isType_byte s type).mp h))
  | case4 m hle => rw [Stabs.scanDown, if_neg hle]

theorem searchLoop_readStab (t : List Stab) (type : Byte) (n : Nat) (l r : Int) (any : Bool) (g : Region) (addr : Word) :
    Stabs.searchLoop (readStab t) (type.setWidth 32) n l r any g addr = searchLoop t type n l r any g addr := by
  induction n generalizing l r any g addr with
  | zero => rfl
  | succ n ih => simp only [Stabs.searchLoop, searchLoop, scanDown_readStab, ih]

theorem binsearch_readStab (n : Nat) (t : List Stab) (g : Region) (type : Byte) (addr : Word) :
    Stabs.binsearch n (readStab t) g (type.setWidth 32) addr = stabBinsearch n t g type addr := by
  simp only [Stabs.binsearch, stabBinsearch, searchLoop_readStab, scanDown_readStab]

end Jos.Kdebug
