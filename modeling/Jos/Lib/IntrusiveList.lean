import Mathlib.Logic.Function.Basic
import Mathlib.Data.List.Basic
import Mathlib.Data.Option.Basic

/-!
# Intrusive lists

A singly linked list threaded through its own nodes: each node carries the
link to the next one, and a head says where the list starts. `Chain link h l`
says that following `link` from `h` visits `l` and then ends, so a chain has no
cycle; `Linked link h a` says that `a` is met on the way, chain or not.
-/

namespace IntrusiveList

variable {α : Type*} {link : α → Option α} {h : Option α} {l : List α} {a b : α}

def Chain (link : α → Option α) : Option α → List α → Prop
  | h, [] => h = none
  | h, a :: l => h = some a ∧ Chain link (link a) l

inductive Linked (link : α → Option α) : Option α → α → Prop
  | here (a : α) : Linked link (some a) a
  | next (a b : α) : Linked link (link b) a → Linked link (some b) a

@[simp] theorem chain_nil : Chain link h [] ↔ h = none := Iff.rfl

@[simp] theorem chain_cons : Chain link h (a :: l) ↔ h = some a ∧ Chain link (link a) l := Iff.rfl

theorem Chain.head (hc : Chain link h l) : h = l.head? := by
  cases l with
  | nil => exact hc
  | cons a l => exact hc.1

theorem Chain.unique : ∀ {h : Option α} {l l' : List α}, Chain link h l → Chain link h l' → l = l'
  | _, [], [], _, _ => rfl
  | _, [], _ :: _, hc, hc' => by simp only [chain_nil] at hc; simp [hc] at hc'
  | _, _ :: _, [], hc, hc' => by simp only [chain_nil] at hc'; simp [hc'] at hc
  | _, a :: l, b :: l', hc, hc' => by
    have hab : a = b := Option.some.inj (hc.1.symm.trans hc'.1)
    subst hab
    rw [Chain.unique hc.2 hc'.2]

theorem Chain.suffix : ∀ {h : Option α} {l : List α}, Chain link h l → a ∈ l →
    ∃ t, Chain link (link a) t ∧ t.length < l.length
  | _, b :: l, hc, hm => by
    rcases List.mem_cons.mp hm with rfl | hm
    · exact ⟨l, hc.2, by simp⟩
    · obtain ⟨t, ht, hlt⟩ := Chain.suffix hc.2 hm
      exact ⟨t, ht, by simp; omega⟩

/-- A list that ends visits no node twice: from a repeated node it would run on
forever. -/
theorem Chain.nodup : ∀ {h : Option α} {l : List α}, Chain link h l → l.Nodup
  | _, [], _ => List.nodup_nil
  | _, a :: l, hc => by
    refine List.nodup_cons.mpr ⟨fun hm => ?_, Chain.nodup hc.2⟩
    obtain ⟨t, ht, hlt⟩ := Chain.suffix hc.2 hm
    rw [Chain.unique ht hc.2] at hlt
    exact Nat.lt_irrefl _ hlt

theorem Chain.congr {link' : α → Option α} : ∀ {h : Option α} {l : List α}, Chain link h l →
    (∀ a ∈ l, link' a = link a) → Chain link' h l
  | _, [], hc, _ => hc
  | _, a :: l, hc, he =>
    ⟨hc.1, by rw [he a (by simp)]; exact Chain.congr hc.2 fun b hb => he b (List.mem_cons_of_mem _ hb)⟩

theorem Chain.update [DecidableEq α] (hc : Chain link h l) (ha : a ∉ l) (v : Option α) :
    Chain (Function.update link a v) h l :=
  hc.congr fun b hb => Function.update_of_ne (fun e : b = a => ha (e ▸ hb)) ..

theorem Chain.push [DecidableEq α] (hc : Chain link h l) (ha : a ∉ l) :
    Chain (Function.update link a h) (some a) (a :: l) :=
  ⟨rfl, by rw [Function.update_self]; exact hc.update ha h⟩

theorem Chain.pop [DecidableEq α] (hc : Chain link (some a) l) (v : Option α) :
    ∃ t, l = a :: t ∧ Chain (Function.update link a v) (link a) t := by
  cases l with
  | nil => cases hc
  | cons b t =>
    have hab : a = b := Option.some.inj hc.1
    subst hab
    exact ⟨t, rfl, Chain.update hc.2 (List.nodup_cons.mp hc.nodup).1 v⟩

theorem Chain.link_eq_none_iff : ∀ {h : Option α} {l : List α}, Chain link h l → a ∈ l →
    (link a = none ↔ l.getLast? = some a)
  | _, [b], hc, hm => by
    obtain rfl := List.mem_singleton.mp hm
    exact iff_of_true hc.2 rfl
  | _, b :: c :: l, hc, hm => by
    have hn := List.nodup_cons.mp hc.nodup
    have ht : Chain link (link b) (c :: l) := hc.2
    rw [List.getLast?_cons_cons]
    rcases List.mem_cons.mp hm with rfl | hm
    · -- the first node is met once, so it is not the last one as well
      rw [ht.head]
      exact iff_of_false (Option.some_ne_none c) fun he => hn.1 (List.mem_of_getLast? he)
    · exact Chain.link_eq_none_iff ht hm

theorem not_linked_none : ¬ Linked link none a := fun hl => by cases hl

theorem Chain.linked_iff : ∀ {h : Option α} {l : List α}, Chain link h l → (Linked link h a ↔ a ∈ l)
  | _, [], hc => by
    simp only [chain_nil] at hc; subst hc
    exact iff_of_false not_linked_none List.not_mem_nil
  | _, b :: l, hc => by
    obtain ⟨rfl, hc⟩ := hc
    rw [List.mem_cons, ← Chain.linked_iff hc]
    constructor
    · intro hl
      cases hl with
      | here => exact Or.inl rfl
      | next _ _ hl => exact Or.inr hl
    · rintro (rfl | hl)
      · exact .here _
      · exact .next _ _ hl

theorem Linked.of_cut [DecidableEq α] (hl : Linked (Function.update link b none) h a) : Linked link h a := by
  induction hl with
  | here a => exact .here a
  | next a c hl ih =>
    by_cases hc : c = b
    · subst hc; rw [Function.update_self] at hl; exact absurd hl not_linked_none
    · rw [Function.update_of_ne hc] at ih; exact .next a c ih

end IntrusiveList
