import Mathlib.Data.List.Range

/-!
# Loops that may fail

The invariant rules for a `for` loop written as a fold over `List.range` or over
a list, where one turn may fail.
-/

namespace Loop

variable {ε σ α : Type*} {f : σ → Nat → Except ε σ} {n : Nat} {s : σ}

theorem range_ok (P : Nat → σ → Prop) (h0 : P 0 s) (h : ∀ i < n, ∀ t, P i t → ∃ t', f t i = .ok t' ∧ P (i + 1) t') :
    ∃ t, (List.range n).foldlM f s = .ok t ∧ P n t := by
  induction n with
  | zero => exact ⟨s, rfl, h0⟩
  | succ n ih =>
    obtain ⟨t, ht, hp⟩ := ih fun i hi => h i (by omega)
    obtain ⟨t', ht', hp'⟩ := h n (Nat.lt_succ_self n) t hp
    refine ⟨t', ?_, hp'⟩
    rw [List.range_succ, List.foldlM_append, ht]
    show [n].foldlM f t = .ok t'
    rw [List.foldlM_cons, ht']
    rfl

end Loop
