import Mathlib.Data.List.Basic

/-!
# The words of a list

Some elements are separators. A word is a longest run without one; it is given by the
place where it begins.
-/

namespace Words

variable {α : Type} (sep : α → Bool)

def startsAt (l : List α) (i : Nat) : Bool := l[i]?.any (!sep ·) && (i == 0 || l[i - 1]?.any sep)

def starts (l : List α) : List Nat := (List.range l.length).filter (startsAt sep l)

def word (l : List α) (i : Nat) : List α := (l.drop i).takeWhile (!sep ·)

def wordsOf (l : List α) : List (List α) := (starts sep l).map (word sep l)

/-- No word goes on from `l` into `r`. -/
def Parted (l r : List α) : Prop := ∀ x ∈ l.getLast?, ∀ y ∈ r.head?, sep x = true ∨ sep y = true

variable {sep} {l r : List α} {i : Nat}

theorem startsAt_left (h : i < l.length) : startsAt sep (l ++ r) i = startsAt sep l i := by
  unfold startsAt
  rw [List.getElem?_append_left h, List.getElem?_append_left (by omega)]

theorem startsAt_right (h : Parted sep l r) : startsAt sep (l ++ r) (l.length + i) = startsAt sep r i := by
  unfold startsAt
  rw [List.getElem?_append_right (by omega), Nat.add_sub_cancel_left]
  cases i with
  | succ i =>
    have hne : (l.length + (i + 1) == 0) = (i + 1 == 0) := rfl
    have hi : l.length + (i + 1) - 1 - l.length = i := by omega
    rw [List.getElem?_append_right (by omega), hi, hne, Nat.add_sub_cancel]
  | zero =>
    rcases List.eq_nil_or_concat l with rfl | ⟨l, x, rfl⟩
    · simp
    · cases r with
      | nil => simp
      | cons y r =>
        have hp := h x (by simp) y (by simp)
        cases hy : sep y <;> simp_all

theorem starts_append (h : Parted sep l r) :
    starts sep (l ++ r) = starts sep l ++ (starts sep r).map (l.length + ·) := by
  unfold starts
  rw [List.length_append, List.range_add, List.filter_append, List.filter_map]
  congr 1
  · exact List.filter_congr fun i hi => startsAt_left (List.mem_range.mp hi)
  · exact congrArg (List.map _) (List.filter_congr fun i _ => startsAt_right h)

theorem starts_seps (h : ∀ x ∈ l, sep x = true) : starts sep l = [] := by
  refine List.filter_eq_nil_iff.mpr fun i hi => ?_
  have hlt := List.mem_range.mp hi
  simp [startsAt, hlt, h]

theorem starts_word (h : ∀ x ∈ l, sep x = false) (hne : l ≠ []) : starts sep l = [0] := by
  obtain ⟨x, l, rfl⟩ := List.exists_cons_of_ne_nil hne
  rw [starts, List.length_cons, Nat.add_comm, List.range_add, List.filter_append, List.filter_map]
  have hrest : (List.range l.length).filter (startsAt sep (x :: l) ∘ (1 + ·)) = [] := by
    refine List.filter_eq_nil_iff.mpr fun i hi => ?_
    have hlt : i < (x :: l).length := Nat.lt_succ_of_lt (List.mem_range.mp hi)
    have hs : sep (x :: l)[i] = false := h _ (List.getElem_mem _)
    simp [startsAt, List.getElem?_eq_getElem hlt, hs]
  rw [hrest]
  simp [startsAt, h]

theorem seps_or_word (sep : α → Bool) (l : List α) : (∀ x ∈ l, sep x = true) ∨
    ∃ s w r, l = s ++ (w ++ r) ∧ (∀ x ∈ s, sep x = true) ∧ (∀ x ∈ w, sep x = false) ∧ w ≠ [] ∧ ∀ y ∈ r.head?, sep y = true := by
  induction l with
  | nil => exact Or.inl fun x hx => absurd hx List.not_mem_nil
  | cons x l ih =>
    cases hx : sep x with
    | true =>
      rcases ih with h | ⟨s, w, r, rfl, hs, hrest⟩
      · exact Or.inl (List.forall_mem_cons.mpr ⟨hx, h⟩)
      · exact Or.inr ⟨x :: s, w, r, rfl, List.forall_mem_cons.mpr ⟨hx, hs⟩, hrest⟩
    | false =>
      refine Or.inr ⟨[], x :: l.takeWhile (!sep ·), l.dropWhile (!sep ·), ?_, ?_, ?_, List.cons_ne_nil _ _, ?_⟩
      · rw [List.nil_append, List.cons_append, List.takeWhile_append_dropWhile]
      · exact fun y hy => absurd hy List.not_mem_nil
      · refine List.forall_mem_cons.mpr ⟨hx, fun y hy => ?_⟩
        simpa using List.all_eq_true.mp (List.all_takeWhile (p := (!sep ·))) y hy
      · intro y hy
        have := List.head?_dropWhile_not (!sep ·) l
        rw [Option.mem_def.mp hy] at this
        simpa using this

theorem induct (sep : α → Bool) {motive : List α → Prop} (seps : ∀ l, (∀ x ∈ l, sep x = true) → motive l)
    (word : ∀ s w r, (∀ x ∈ s, sep x = true) → (∀ x ∈ w, sep x = false) → w ≠ [] → (∀ y ∈ r.head?, sep y = true) →
      motive r → motive (s ++ (w ++ r))) (l : List α) : motive l := by
  induction hn : l.length using Nat.strongRecOn generalizing l with
  | ind n ih =>
    rcases seps_or_word sep l with h | ⟨s, w, r, rfl, hs, hw, hne, hr⟩
    · exact seps l h
    · have hpos := List.length_pos_iff.mpr hne
      exact word s w r hs hw hne hr (ih r.length (by rw [← hn, List.length_append, List.length_append]; omega) r rfl)

theorem starts_first {s w r : List α} (hs : ∀ x ∈ s, sep x = true) (hw : ∀ x ∈ w, sep x = false) (hne : w ≠ [])
    (hr : ∀ y ∈ r.head?, sep y = true) :
    starts sep (s ++ (w ++ r)) = s.length :: (starts sep r).map (s.length + w.length + ·) := by
  have h1 : Parted sep s (w ++ r) := fun x hx y _ => Or.inl (hs x (List.mem_of_getLast? hx))
  have h2 : Parted sep w r := fun x _ y hy => Or.inr (hr y hy)
  rw [starts_append h1, starts_append h2, starts_seps hs, starts_word hw hne]
  simp [Nat.add_assoc]

end Words
