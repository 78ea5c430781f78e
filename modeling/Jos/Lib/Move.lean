import Mathlib.Data.BitVec
import Mathlib.Tactic

/-!
# Copying between ranges that may overlap

`move` copies a range all at once, over addresses that wrap. Copying it in blocks of
`b` cells, a block all at once, gives the same upwards as long as the destination
does not begin inside of the source, and downwards as long as the source does not
begin inside of the destination.
-/

namespace Move

variable {w : Nat} {β : Type*} {mem : BitVec w → β} {d s a : BitVec w} {b c k n : Nat}

def move (mem : BitVec w → β) (d s : BitVec w) (n : Nat) : BitVec w → β := fun a =>
  if (a - d).toNat < n then mem (s + (a - d)) else mem a

theorem move_in (h : (a - d).toNat < n) : move mem d s n a = mem (s + (a - d)) := if_pos h

theorem move_out (h : n ≤ (a - d).toNat) : move mem d s n a = mem a := if_neg (Nat.not_lt.mpr h)

@[simp] theorem move_zero : move mem d s 0 = mem := by
  funext a
  simp [move]

/-! ## Addresses -/

theorem sub_add_lt {x : BitVec w} (h : x.toNat < k) (hk : k + n ≤ 2 ^ w) : n ≤ (x - BitVec.ofNat w k).toNat := by
  have hx := x.isLt
  rw [BitVec.toNat_sub, BitVec.toNat_ofNat]
  rcases Nat.lt_or_ge k (2 ^ w) with hlt | hge
  · rw [Nat.mod_eq_of_lt hlt, Nat.mod_eq_of_lt (by omega)]
    omega
  · obtain rfl : n = 0 := by omega
    exact Nat.zero_le _

theorem toNat_sub_ofNat {x : BitVec w} (h : k ≤ x.toNat) : (x - BitVec.ofNat w k).toNat = x.toNat - k := by
  have hx := x.isLt
  rw [BitVec.toNat_sub, BitVec.toNat_ofNat, Nat.mod_eq_of_lt (show k < 2 ^ w by omega),
    show 2 ^ w - k + x.toNat = x.toNat - k + 2 ^ w by omega, Nat.add_mod_right, Nat.mod_eq_of_lt (by omega)]

theorem src_eq (s x : BitVec w) (k : Nat) : s + BitVec.ofNat w k + (x - BitVec.ofNat w k) = s + x := by abel

/-! ## Two parts of a range -/

theorem move_up (h : (s - d).toNat + (k + n) ≤ 2 ^ w) :
    move (move mem d s k) (d + BitVec.ofNat w k) (s + BitVec.ofNat w k) n = move mem d s (k + n) := by
  funext a
  generalize hx : a - d = x
  have ha : a - (d + BitVec.ofNat w k) = x - BitVec.ofNat w k := by rw [sub_add_eq_sub_sub, hx]
  rcases Nat.lt_or_ge x.toNat k with hk | hk
  · rw [move_out (by rw [ha]; exact sub_add_lt hk (by omega)), move_in (by rwa [hx]), move_in (by rw [hx]; omega)]
  have hsub : (x - BitVec.ofNat w k).toNat = x.toNat - k := toNat_sub_ofNat hk
  rcases Nat.lt_or_ge x.toNat (k + n) with hn | hn
  · -- what is read lies behind the part that is already copied
    have hr : (s + x - d).toNat = (s - d).toNat + x.toNat := by
      rw [add_sub_right_comm, BitVec.toNat_add, Nat.mod_eq_of_lt (by omega)]
    rw [move_in (by rw [ha, hsub]; omega), ha, src_eq, move_out (by omega), move_in (by rwa [hx]), hx]
  · rw [move_out (by rw [ha, hsub]; omega), move_out (by rw [hx]; omega), move_out (by rwa [hx])]

theorem move_down (h : (d - s).toNat + (k + n) ≤ 2 ^ w) :
    move (move mem (d + BitVec.ofNat w k) (s + BitVec.ofNat w k) n) d s k = move mem d s (k + n) := by
  funext a
  generalize hx : a - d = x
  have ha : a - (d + BitVec.ofNat w k) = x - BitVec.ofNat w k := by rw [sub_add_eq_sub_sub, hx]
  rcases Nat.lt_or_ge x.toNat k with hk | hk
  · -- what is read lies in front of the part that is already copied
    have hr : s + x - (d + BitVec.ofNat w k) = x - BitVec.ofNat w ((d - s).toNat + k) := by
      rw [BitVec.ofNat_add, BitVec.ofNat_toNat, BitVec.setWidth_eq]
      abel
    rw [move_in (by rwa [hx]), hx, move_out (by rw [hr]; exact sub_add_lt (by omega) (by omega)), move_in (by rw [hx]; omega), hx]
  have hsub : (x - BitVec.ofNat w k).toNat = x.toNat - k := toNat_sub_ofNat hk
  rw [move_out (by rwa [hx])]
  rcases Nat.lt_or_ge x.toNat (k + n) with hn | hn
  · rw [move_in (by rw [ha, hsub]; omega), ha, src_eq, move_in (by rwa [hx]), hx]
  · rw [move_out (by rw [ha, hsub]; omega), move_out (by rwa [hx])]

/-! ## Block by block -/

/-- `c` blocks of `b` cells, the next one above. -/
def up (b : Nat) : Nat → BitVec w → BitVec w → (BitVec w → β) → BitVec w → β
  | 0, _, _, mem => mem
  | c + 1, d, s, mem => up b c (d + BitVec.ofNat w b) (s + BitVec.ofNat w b) (move mem d s b)

def down (b : Nat) : Nat → BitVec w → BitVec w → (BitVec w → β) → BitVec w → β
  | 0, _, _, mem => mem
  | c + 1, d, s, mem => down b c (d - BitVec.ofNat w b) (s - BitVec.ofNat w b) (move mem d s b)

theorem up_eq (h : (s - d).toNat + b * c ≤ 2 ^ w) : up b c d s mem = move mem d s (b * c) := by
  induction c generalizing d s mem with
  | zero => simp [up]
  | succ c ih =>
    rw [Nat.mul_succ] at h
    have hd : s + BitVec.ofNat w b - (d + BitVec.ofNat w b) = s - d := add_sub_add_right_eq_sub ..
    rw [up, ih (by rw [hd]; omega), move_up (by omega), Nat.mul_succ, Nat.add_comm]

theorem down_eq (h : (d - s).toNat + b * c ≤ 2 ^ w) :
    down b c (d + BitVec.ofNat w (b * c) - BitVec.ofNat w b) (s + BitVec.ofNat w (b * c) - BitVec.ofNat w b) mem =
      move mem d s (b * c) := by
  induction c generalizing mem with
  | zero => simp [down]
  | succ c ih =>
    rw [Nat.mul_succ] at h
    have htop : ∀ p : BitVec w, p + BitVec.ofNat w (b * (c + 1)) - BitVec.ofNat w b = p + BitVec.ofNat w (b * c) := by
      intro p
      rw [Nat.mul_succ, BitVec.ofNat_add, ← BitVec.add_assoc, BitVec.add_sub_cancel]
    rw [htop, htop, down, ih (by omega), move_down h, Nat.mul_succ]

end Move
