import Mathlib.Data.List.Induction
import Mathlib.Data.Set.Basic
import Mathlib.Logic.Function.Basic

/-!
# A manager of pages

What an allocator of pages with address spaces over them is for. A page is free, or
somebody uses it. A space maps addresses to pages. When a mapping goes, its page
becomes free again unless it is mapped elsewhere or has other uses. The manager may
also take free pages for a use of its own, while it walks a space.

`Run` has the events that a caller sees. What a space maps follows from the events
alone, by `replay`, and no page is handed out while it is in use.
-/

namespace Paging

universe u

variable {δ ν π φ : Type u}

@[ext]
structure State (δ ν π φ : Type u) where
  map : δ → ν → Option (π × φ)
  free : Set π
  /-- The uses of a page that are no mappings. -/
  uses : π → Nat

inductive Event (δ ν π φ : Type u)
  | alloc (r : Option π)
  | free (p : π)
  | newSpace (d : δ)
  | walk (d : δ) (v : ν)
  | insert (d : δ) (v : ν) (p : π) (f : φ) (ok : Bool)
  | remove (d : δ) (v : ν)

def Maps (m : δ → ν → Option (π × φ)) (p : π) : Prop := ∃ d v f, m d v = some (p, f)

section
variable [DecidableEq δ] [DecidableEq ν]

def set (m : δ → ν → Option (π × φ)) (d : δ) (v : ν) (e : Option (π × φ)) : δ → ν → Option (π × φ) :=
  Function.update m d (Function.update (m d) v e)

theorem set_self (m : δ → ν → Option (π × φ)) (d : δ) (v : ν) (e : Option (π × φ)) : set m d v e d v = e := by
  simp [set]

theorem set_of_ne (m : δ → ν → Option (π × φ)) {d d' : δ} {v v' : ν} (e : Option (π × φ)) (h : ¬ (d' = d ∧ v' = v)) :
    set m d v e d' v' = m d' v' := by
  unfold set
  by_cases hd : d' = d
  · subst hd
    have hv : v' ≠ v := fun hv => h ⟨rfl, hv⟩
    simp [hv]
  · simp [hd]

theorem set_eq_some {m : δ → ν → Option (π × φ)} {d d' : δ} {v v' : ν} {e : Option (π × φ)} {x : π × φ}
    (h : set m d v e d' v' = some x) : e = some x ∨ m d' v' = some x := by
  by_cases hd : d' = d ∧ v' = v
  · obtain ⟨rfl, rfl⟩ := hd
    rw [set_self] at h
    exact Or.inl h
  · rw [set_of_ne _ _ hd] at h
    exact Or.inr h

namespace State

/-- The manager takes the page `t`, if there is one. -/
def take [DecidableEq π] (s : State δ ν π φ) (t : Option π) : State δ ν π φ where
  map := s.map
  free := { p | p ∈ s.free ∧ t ≠ some p }
  uses p := s.uses p + if t = some p then 1 else 0

omit [DecidableEq δ] [DecidableEq ν] in
@[simp] theorem take_none [DecidableEq π] (s : State δ ν π φ) : s.take none = s := by
  ext <;> simp [take]

/-- The page mapped at `v` in `d` gives way to `e`. -/
def put (s : State δ ν π φ) (d : δ) (v : ν) (e : Option (π × φ)) : State δ ν π φ where
  map := set s.map d v e
  free := { p | p ∈ s.free ∨ ((∃ f, s.map d v = some (p, f)) ∧ ¬ Maps (set s.map d v e) p ∧ s.uses p = 0) }
  uses := s.uses

theorem put_none {s : State δ ν π φ} {d : δ} {v : ν} (h : s.map d v = none) : s.put d v none = s := by
  have hm : set s.map d v none = s.map := by
    funext d' v'
    by_cases he : d' = d ∧ v' = v
    · rw [he.1, he.2, set_self, h]
    · exact set_of_ne _ _ he
  ext <;> simp [put, hm, h]

end State

variable [DecidableEq π]

inductive Step : State δ ν π φ → Event δ ν π φ → State δ ν π φ → Prop
  | allocNone {s} : s.free = ∅ → Step s (.alloc none) s
  | alloc {s p} : p ∈ s.free → Step s (.alloc (some p)) { s with free := { q | q ∈ s.free ∧ q ≠ p } }
  | free {s p} : p ∉ s.free → ¬ Maps s.map p → s.uses p = 0 → Step s (.free p) { s with free := { q | q ∈ s.free ∨ q = p } }
  | newSpace {s d} : (∀ v, s.map d v = none) → Step s (.newSpace d) s
  | walk {s d v t} : (∀ p, t = some p → p ∈ s.free) → Step s (.walk d v) (s.take t)
  | insertFail {s d v p f} : s.free = ∅ → Step s (.insert d v p f false) s
  | insert {s d v p f t} : (∀ q, t = some q → q ∈ s.free) → p ∉ s.free →
      Step s (.insert d v p f true) ((s.take t).put d v (some (p, f)))
  | remove {s d v} : Step s (.remove d v) (s.put d v none)

inductive Run : State δ ν π φ → List (Event δ ν π φ) → State δ ν π φ → Prop
  | nil {s} : Run s [] s
  | snoc {s tr s' e s''} : Run s tr s' → Step s' e s'' → Run s (tr ++ [e]) s''

/-! ## What a space maps -/

def Event.Writes (d : δ) (v : ν) : Event δ ν π φ → Prop
  | .insert d' v' _ _ ok => ok = true ∧ d' = d ∧ v' = v
  | .remove d' v' => d' = d ∧ v' = v
  | _ => False

def Event.apply (m : δ → ν → Option (π × φ)) : Event δ ν π φ → δ → ν → Option (π × φ)
  | .insert d v p f true => set m d v (some (p, f))
  | .remove d v => set m d v none
  | _ => m

def replay (m : δ → ν → Option (π × φ)) (tr : List (Event δ ν π φ)) : δ → ν → Option (π × φ) := tr.foldl Event.apply m

omit [DecidableEq π] in
theorem replay_snoc (m : δ → ν → Option (π × φ)) (tr : List (Event δ ν π φ)) (e : Event δ ν π φ) :
    replay m (tr ++ [e]) = e.apply (replay m tr) := by
  simp [replay]

variable {s s' s'' : State δ ν π φ} {e : Event δ ν π φ} {tr tr' : List (Event δ ν π φ)} {p : π} {d : δ} {v : ν}
  {m : δ → ν → Option (π × φ)}

theorem Step.map (h : Step s e s') : s'.map = e.apply s.map := by
  cases h <;> rfl

theorem Run.map (h : Run s tr s') : s'.map = replay s.map tr := by
  induction h with
  | nil => rfl
  | snoc _ hs ih => rw [hs.map, ih, replay_snoc]

/-! ## Pages in use -/

/-- No free page is mapped or has other uses. -/
structure State.Sound (s : State δ ν π φ) : Prop where
  mapped : ∀ p ∈ s.free, ¬ Maps s.map p
  uses : ∀ p ∈ s.free, s.uses p = 0

omit [DecidableEq δ] [DecidableEq ν] in
theorem State.Sound.take (h : s.Sound) (t : Option π) : (s.take t).Sound where
  mapped p hp := h.mapped p hp.1
  uses p hp := by
    show s.uses p + (if t = some p then 1 else 0) = 0
    rw [h.uses p hp.1, if_neg hp.2]

omit [DecidableEq π] in
theorem State.Sound.put (h : s.Sound) (d : δ) (v : ν) {e : Option (π × φ)} (he : ∀ x, e = some x → x.1 ∉ s.free) :
    (s.put d v e).Sound where
  mapped p hp := by
    rcases hp with hp | ⟨_, hm, _⟩
    · rintro ⟨d', v', f, hx⟩
      rcases set_eq_some hx with hx | hx
      · exact he _ hx hp
      · exact h.mapped p hp ⟨d', v', f, hx⟩
    · exact hm
  uses p hp := by
    rcases hp with hp | ⟨_, _, h0⟩
    · exact h.uses p hp
    · exact h0

theorem Step.sound (h : Step s e s') (hs : s.Sound) : s'.Sound := by
  cases h with
  | allocNone _ => exact hs
  | alloc _ => exact ⟨fun p hp => hs.mapped p hp.1, fun p hp => hs.uses p hp.1⟩
  | free _ hm h0 =>
    refine ⟨fun p hp => ?_, fun p hp => ?_⟩
    · rcases hp with hp | rfl
      · exact hs.mapped p hp
      · exact hm
    · rcases hp with hp | rfl
      · exact hs.uses p hp
      · exact h0
  | newSpace _ => exact hs
  | walk _ => exact hs.take _
  | insertFail _ => exact hs
  | insert _ hp =>
    refine (hs.take _).put _ _ fun x hx hf => hp ?_
    cases hx
    exact hf.1
  | remove => exact hs.put _ _ fun x hx => by cases hx

theorem Run.sound (h : Run s tr s') (hs : s.Sound) : s'.Sound := by
  induction h with
  | nil => exact hs
  | snoc _ hs ih => exact hs.sound ih

theorem Run.split (h : Run s (tr ++ e :: tr') s'') : ∃ t t', Run s tr t ∧ Step t e t' ∧ Run t' tr' s'' := by
  induction tr' using List.reverseRecOn generalizing s'' with
  | nil =>
    generalize hx : tr ++ [e] = x at h
    cases h with
    | nil => simp at hx
    | snoc hr hs =>
      obtain ⟨rfl, he⟩ := List.append_inj' hx rfl
      cases he
      exact ⟨_, _, hr, hs, .nil⟩
  | append_singleton tr' e' ih =>
    generalize hx : tr ++ e :: (tr' ++ [e']) = x at h
    cases h with
    | nil => simp at hx
    | snoc hr hs =>
      rw [← List.cons_append, ← List.append_assoc] at hx
      obtain ⟨rfl, he⟩ := List.append_inj' hx rfl
      cases he
      obtain ⟨t, t', h1, h2, h3⟩ := ih hr
      exact ⟨t, t', h1, h2, h3.snoc hs⟩

theorem Run.alloc_unused (h : Run s (tr ++ .alloc (some p) :: tr') s'') (hs : s.Sound) : ¬ Maps (replay s.map tr) p := by
  obtain ⟨t, t', h1, h2, _⟩ := h.split
  rw [← h1.map]
  cases h2 with
  | alloc hp => exact (h1.sound hs).mapped p hp

/-- The events give page `p` back: it is freed, or a mapping of it goes. -/
def GivesBack (m : δ → ν → Option (π × φ)) (p : π) (tr : List (Event δ ν π φ)) : Prop :=
  .free p ∈ tr ∨ ∃ tr₁ e tr₂, tr = tr₁ ++ e :: tr₂ ∧ ∃ d v f, e.Writes d v ∧ replay m tr₁ d v = some (p, f)

theorem Step.free_iff (h : Step s e s') (hp : p ∉ s.free) (hp' : p ∈ s'.free) :
    e = .free p ∨ ∃ d v f, e.Writes d v ∧ s.map d v = some (p, f) := by
  cases h with
  | allocNone _ => exact absurd hp' hp
  | alloc _ => exact absurd hp'.1 hp
  | free _ _ _ =>
    rcases hp' with hp' | rfl
    · exact absurd hp' hp
    · exact Or.inl rfl
  | newSpace _ => exact absurd hp' hp
  | walk _ => exact absurd hp'.1 hp
  | insertFail _ => exact absurd hp' hp
  | insert _ _ =>
    rcases hp' with hp' | ⟨⟨f, hf⟩, _⟩
    · exact absurd hp'.1 hp
    · exact Or.inr ⟨_, _, f, ⟨rfl, rfl, rfl⟩, hf⟩
  | remove =>
    rcases hp' with hp' | ⟨⟨f, hf⟩, _⟩
    · exact absurd hp' hp
    · exact Or.inr ⟨_, _, f, ⟨rfl, rfl⟩, hf⟩

theorem Run.givesBack (h : Run s tr s') (hp : p ∉ s.free) (hp' : p ∈ s'.free) : GivesBack s.map p tr := by
  induction h with
  | nil => exact absurd hp' hp
  | @snoc tr t e t' hr hs ih =>
    by_cases ht : p ∈ t.free
    · rcases ih ht with hm | ⟨tr₁, e', tr₂, rfl, hw⟩
      · exact Or.inl (List.mem_append_left _ hm)
      · exact Or.inr ⟨tr₁, e', tr₂ ++ [e], by simp, hw⟩
    · rcases hs.free_iff ht hp' with rfl | ⟨d, v, f, hw, hm⟩
      · exact Or.inl (by simp)
      · exact Or.inr ⟨tr, e, [], by simp, d, v, f, hw, by rw [← hr.map, hm]⟩

theorem Run.alloc_twice {tr₁ tr₂ tr₃ : List (Event δ ν π φ)}
    (h : Run s (tr₁ ++ .alloc (some p) :: (tr₂ ++ .alloc (some p) :: tr₃)) s'') : GivesBack (replay s.map tr₁) p tr₂ := by
  obtain ⟨t, t', h1, h2, h3⟩ := h.split
  obtain ⟨u, u', h4, h5, _⟩ := h3.split
  have ht : p ∉ t'.free := by
    cases h2 with
    | alloc _ => exact fun hp => hp.2 rfl
  have hu : p ∈ u.free := by
    cases h5 with
    | alloc hp => exact hp
  have hm : t'.map = t.map := h2.map
  rw [← h1.map, ← hm]
  exact h4.givesBack ht hu

end

end Paging
