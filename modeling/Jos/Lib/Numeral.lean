import Mathlib.Data.Nat.Digits.Lemmas

/-!
# Numerals

The digits of a number with the most significant first, as they are written, and
their value read from the left. Zero is written as one digit.
-/

namespace Numeral

variable {b : Nat}

def digits (b n : Nat) : List Nat := if n = 0 then [0] else (Nat.digits b n).reverse

def value (b : Nat) (ds : List Nat) (v : Nat) : Nat := ds.foldl (fun v d => v * b + d) v

theorem digits_of_lt {n : Nat} (h : n < b) : digits b n = [n] := by
  unfold digits
  split
  · next h0 => rw [h0]
  · next h0 => rw [Nat.digits_of_lt b n h0 h, List.reverse_singleton]

theorem digits_of_le (hb : 2 ≤ b) {n : Nat} (h : b ≤ n) : digits b n = digits b (n / b) ++ [n % b] := by
  have hdiv : n / b ≠ 0 := (Nat.div_pos h (by omega)).ne'
  rw [digits, if_neg (by omega), digits, if_neg hdiv, Nat.digits_def' hb (by omega), List.reverse_cons]

theorem digits_ne_nil (b n : Nat) : digits b n ≠ [] := by
  unfold digits
  split
  · exact List.cons_ne_nil _ _
  · next h =>
    rw [ne_eq, List.reverse_eq_nil_iff, Nat.digits_eq_nil_iff_eq_zero]
    exact h

theorem lt_of_mem_digits (hb : 2 ≤ b) {n d : Nat} (h : d ∈ digits b n) : d < b := by
  unfold digits at h
  split at h
  · rw [List.mem_singleton] at h
    omega
  · exact Nat.digits_lt_base hb (List.mem_reverse.mp h)

theorem length_digits_le (hb : 2 ≤ b) {n k : Nat} (h : n < b ^ (k + 1)) : (digits b n).length ≤ k + 1 := by
  unfold digits
  split
  · rw [List.length_singleton]
    omega
  · rw [List.length_reverse]
    exact (Nat.digits_length_le_iff hb n).mpr h

theorem head_digits_ne_zero {n d : Nat} {ds : List Nat} (hn : n ≠ 0) (h : digits b n = d :: ds) : d ≠ 0 := by
  rw [digits, if_neg hn] at h
  have hne : Nat.digits b n ≠ [] := fun he => hn (Nat.digits_eq_nil_iff_eq_zero.mp he)
  have hlast := Nat.getLast_digit_ne_zero b hn
  rw [List.getLast_eq_head_reverse hne] at hlast
  simpa only [h, List.head_cons] using hlast

theorem value_digits (b n : Nat) : value b (digits b n) 0 = n := by
  unfold digits
  split
  · next h =>
    rw [h]
    exact Nat.zero_mul b
  · rw [value, List.foldl_reverse]
    conv_rhs => rw [← Nat.ofDigits_digits b n, Nat.ofDigits_eq_foldr]
    refine congrArg (fun f => List.foldr f 0 (Nat.digits b n)) ?_
    funext d v
    rw [Nat.mul_comm, Nat.add_comm]
    rfl

theorem value_cons (d : Nat) (ds : List Nat) (v : Nat) : value b (d :: ds) v = value b ds (v * b + d) := rfl

theorem value_zeros (k : Nat) (ds : List Nat) : value b (List.replicate k 0 ++ ds) 0 = value b ds 0 := by
  induction k with
  | zero => rfl
  | succ k ih =>
    rw [List.replicate_succ, List.cons_append, value_cons, Nat.zero_mul]
    exact ih

end Numeral
