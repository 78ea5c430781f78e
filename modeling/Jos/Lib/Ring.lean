import Mathlib.Logic.Function.Basic
import Mathlib.Data.Nat.ModEq

/-!
# Ring buffers with two positions

A buffer of `n` cells, a position to read at and one to write at. The list it
holds starts at the first and ends before the second, so that it has always one
cell less than the buffer: with `n` elements the positions meet again.
-/

namespace Ring

variable {α : Type} {n r w : Nat} {buf : Nat → α} {q : List α} {x : α}

def next (n i : Nat) : Nat := if i + 1 = n then 0 else i + 1

theorem next_eq_mod {i : Nat} (hi : i < n) : next n i = (i + 1) % n := by
  unfold next
  split
  · next h => rw [h, Nat.mod_self]
  · rw [Nat.mod_eq_of_lt (by omega)]

theorem next_lt {i : Nat} (hi : i < n) : next n i < n := by
  rw [next_eq_mod hi]
  exact Nat.mod_lt _ (by omega)

theorem mod_inj {i j : Nat} (hi : i < n) (hj : j < n) (h : (r + i) % n = (r + j) % n) : i = j := by
  have h' : i % n = j % n := Nat.ModEq.add_left_cancel' r h
  rwa [Nat.mod_eq_of_lt hi, Nat.mod_eq_of_lt hj] at h'

structure Holds (n : Nat) (buf : Nat → α) (r w : Nat) (q : List α) : Prop where
  head : r < n
  room : q.length < n
  tail : w = (r + q.length) % n
  elem : ∀ i x, q[i]? = some x → buf ((r + i) % n) = x

namespace Holds

theorem empty (hr : r < n) : Holds n buf r r [] where
  head := hr
  room := by
    rw [List.length_nil]
    omega
  tail := (Nat.mod_eq_of_lt hr).symm
  elem i x hx := by
    rw [List.getElem?_nil] at hx
    cases hx

theorem tail_lt (h : Holds n buf r w q) : w < n := by
  rw [h.tail]
  exact Nat.mod_lt _ (by have := h.head; omega)

theorem eq_iff (h : Holds n buf r w q) : r = w ↔ q = [] := by
  constructor
  · intro he
    have h0 : (r + 0) % n = (r + q.length) % n := by rw [Nat.add_zero, Nat.mod_eq_of_lt h.head, ← h.tail, he]
    have := mod_inj (by have := h.head; omega) h.room h0
    exact List.eq_nil_of_length_eq_zero this.symm
  · rintro rfl
    rw [h.tail, List.length_nil, Nat.add_zero, Nat.mod_eq_of_lt h.head]

theorem next_tail (h : Holds n buf r w q) : next n w = (r + (q.length + 1)) % n := by
  rw [next_eq_mod h.tail_lt, h.tail, Nat.mod_add_mod, Nat.add_assoc]

theorem push (h : Holds n buf r w q) (hroom : q.length + 1 < n) (x : α) :
    Holds n (Function.update buf w x) r (next n w) (q ++ [x]) where
  head := h.head
  room := by
    rw [List.length_append, List.length_singleton]
    exact hroom
  tail := by rw [h.next_tail, List.length_append, List.length_singleton]
  elem i y hy := by
    rcases Nat.lt_trichotomy i q.length with hi | hi | hi
    · have hne : (r + i) % n ≠ w := by
        intro he
        rw [h.tail] at he
        have := mod_inj (by omega) h.room he
        omega
      rw [List.getElem?_append_left hi] at hy
      rw [Function.update_of_ne hne, h.elem i y hy]
    · rw [hi, List.getElem?_concat_length, Option.some.injEq] at hy
      rw [hi, ← h.tail, Function.update_self, hy]
    · rw [List.getElem?_eq_none (by rw [List.length_append, List.length_singleton]; omega)] at hy
      cases hy

theorem pop (h : Holds n buf r w (x :: q)) : buf r = x ∧ Holds n buf (next n r) w q := by
  have hr := h.head
  refine ⟨?_, next_lt hr, ?_, ?_, fun i y hy => ?_⟩
  · have := h.elem 0 x rfl
    rwa [Nat.add_zero, Nat.mod_eq_of_lt hr] at this
  · have := h.room
    rw [List.length_cons] at this
    omega
  · rw [h.tail, next_eq_mod hr, Nat.mod_add_mod, List.length_cons, Nat.add_assoc, Nat.add_comm 1]
  · have := h.elem (i + 1) y (by rw [List.getElem?_cons_succ, hy])
    rwa [next_eq_mod hr, Nat.mod_add_mod, Nat.add_assoc, Nat.add_comm 1]

theorem full (h : Holds n buf r w q) (hfull : q.length + 1 = n) : next n w = r := by
  rw [h.next_tail, hfull, Nat.add_mod_right, Nat.mod_eq_of_lt h.head]

end Holds

end Ring
