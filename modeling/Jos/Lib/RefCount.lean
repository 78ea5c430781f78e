import Mathlib.Algebra.BigOperators.Group.Finset.Basic
import Mathlib.Algebra.BigOperators.Ring.Finset

/-!
# Counting references held in slots

A finite set of slots, each empty or holding a reference to some object:
`count S tgt p` is the number of slots of `S` that refer to `p`. The lemmas say
how the count moves when one slot is rewritten and when slots come or go.
-/

namespace RefCount

variable {σ π : Type*} [DecidableEq π] {S T : Finset σ} {tgt tgt' : σ → Option π} {x : σ} {p : π}

def count (S : Finset σ) (tgt : σ → Option π) (p : π) : ℕ := (S.filter fun x => tgt x = some p).card

theorem count_eq_sum (S : Finset σ) (tgt : σ → Option π) (p : π) :
    count S tgt p = ∑ x ∈ S, if tgt x = some p then 1 else 0 :=
  Finset.card_filter _ _

theorem count_congr (h : ∀ x ∈ S, tgt x = tgt' x) (p : π) : count S tgt p = count S tgt' p := by
  unfold count
  rw [Finset.filter_congr fun x hx => by rw [h x hx]]

theorem count_pos : 0 < count S tgt p ↔ ∃ x ∈ S, tgt x = some p := by
  simp only [count, Finset.card_pos, Finset.Nonempty, Finset.mem_filter]

theorem count_eq_zero : count S tgt p = 0 ↔ ∀ x ∈ S, tgt x ≠ some p := by
  simp only [count, Finset.card_eq_zero, Finset.filter_eq_empty_iff, ne_eq]

section
variable [DecidableEq σ]

theorem count_union (h : Disjoint S T) (p : π) : count (S ∪ T) tgt p = count S tgt p + count T tgt p := by
  simp only [count_eq_sum, Finset.sum_union h]

theorem count_union_none (h : ∀ x ∈ T, tgt x = none) (p : π) : count (S ∪ T) tgt p = count S tgt p := by
  unfold count
  congr 1
  ext x
  simp only [Finset.mem_filter, Finset.mem_union]
  constructor
  · rintro ⟨hx | hx, ht⟩
    · exact ⟨hx, ht⟩
    · rw [h x hx] at ht; cases ht
  · exact fun hx => ⟨Or.inl hx.1, hx.2⟩

/-- Rewriting one slot moves one reference. -/
theorem count_update (hx : x ∈ S) (v : Option π) (p : π) :
    count S (Function.update tgt x v) p + (if tgt x = some p then 1 else 0) =
      count S tgt p + (if v = some p then 1 else 0) := by
  simp only [count_eq_sum]
  rw [← Finset.add_sum_erase S _ hx, ← Finset.add_sum_erase S (fun y => if tgt y = some p then 1 else 0) hx]
  have he : ∑ y ∈ S.erase x, (if Function.update tgt x v y = some p then 1 else 0) =
      ∑ y ∈ S.erase x, if tgt y = some p then 1 else 0 :=
    Finset.sum_congr rfl fun y hy => by rw [Function.update_of_ne (Finset.ne_of_mem_erase hy)]
  rw [he, Function.update_self]
  omega

end

end RefCount
