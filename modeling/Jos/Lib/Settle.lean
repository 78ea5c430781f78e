import Mathlib.Tactic.Common

/-!
# Runs with a bound on their turns

A function that takes a bound settles on a result when every bound from some one on
gives it. A loop that runs without end settles on nothing but the result that says so.
-/

def Settles {β : Type} (f : Nat → β) (r : β) : Prop := ∃ N, ∀ n ≥ N, f n = r

namespace Settles

section
variable {β : Type} {f g : Nat → β} {r r' : β}

theorem const (r : β) : Settles (fun _ => r) r := ⟨0, fun _ _ => rfl⟩

theorem unique (h : Settles f r) (h' : Settles f r') : r = r' := by
  obtain ⟨N, hN⟩ := h
  obtain ⟨N', hN'⟩ := h'
  rw [← hN (max N N') (Nat.le_max_left _ _), hN' (max N N') (Nat.le_max_right _ _)]

theorem step (h : Settles g r) (hf : ∀ n, f (n + 1) = g n) : Settles f r := by
  obtain ⟨N, hN⟩ := h
  refine ⟨N + 1, fun n hn => ?_⟩
  obtain ⟨k, rfl⟩ : ∃ k, n = k + 1 := ⟨n - 1, by omega⟩
  rw [hf]
  exact hN k (by omega)

theorem use {γ : Type} {f' : Nat → γ} {x : γ} (h : Settles f r) (hf : ∀ n, f n = r → f' n = x) : Settles f' x := by
  obtain ⟨N, hN⟩ := h
  exact ⟨N, fun n hn => hf n (hN n hn)⟩

theorem of_le (hle : ∀ {n n'}, n ≤ n' → f n = r → f n' = r) {n : Nat} (h : f n = r) : Settles f r := ⟨n, fun _ hn => hle hn h⟩

theorem congr (h : Settles g r) (hf : ∀ n, f n = g n) : Settles f r := by
  obtain ⟨N, hN⟩ := h
  exact ⟨N, fun n hn => (hf n).trans (hN n hn)⟩

end

section
variable {ε α β : Type} {f : Nat → Except ε α} {g : Nat → α → Except ε β} {a : α} {e : ε} {r : Except ε β}

theorem bind (hf : Settles f (.ok a)) (hg : Settles (fun n => g n a) r) : Settles (fun n => f n >>= g n) r := by
  obtain ⟨N, hN⟩ := hf
  obtain ⟨N', hN'⟩ := hg
  refine ⟨max N N', fun n hn => ?_⟩
  dsimp only
  rw [hN n (by omega)]
  exact hN' n (by omega)

theorem bind_error (hf : Settles f (.error e)) : Settles (fun n => f n >>= g n) (.error e) := by
  obtain ⟨N, hN⟩ := hf
  refine ⟨N, fun n hn => ?_⟩
  dsimp only
  rw [hN n hn]
  rfl

end

end Settles
