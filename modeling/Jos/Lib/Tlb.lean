import Mathlib.Data.Set.Insert
import Mathlib.Logic.Function.Basic

/-!
# A cache of translations

A processor translates through `walk`, a function of memory, and may at any
moment keep in its TLB a translation that `walk` gives then. Writes to memory do
not touch the TLB; only a flush removes what it has for one page. `Triple m S l m' S'`
says of the events `l`, started in memory `m` with a TLB that is right outside
the pages `S`, that they end in memory `m'` with a TLB that is right outside `S'`.
-/

namespace Tlb

variable {M V W : Type*} [DecidableEq V]

structure Cpu (M V W : Type*) where
  mem : M
  tlb : V → Option W

inductive Event (M V : Type*) where
  | write (f : M → M)
  | flush (v : V)

def Event.step : Event M V → Cpu M V W → Cpu M V W
  | write f, c => { c with mem := f c.mem }
  | flush v, c => { c with tlb := Function.update c.tlb v none }

/-- The events in order, with fills before, between and after them. -/
inductive Exec (walk : M → V → Option W) : List (Event M V) → Cpu M V W → Cpu M V W → Prop
  | done (c : Cpu M V W) : Exec walk [] c c
  | fill {l : List (Event M V)} {c c' : Cpu M V W} (v : V) (w : W) : walk c.mem v = some w →
      Exec walk l { c with tlb := Function.update c.tlb v (some w) } c' → Exec walk l c c'
  | event {l : List (Event M V)} {c c' : Cpu M V W} (e : Event M V) : Exec walk l (e.step c) c' → Exec walk (e :: l) c c'

/-- Outside `S` the TLB holds only what a walk would find now. -/
def Coherent (walk : M → V → Option W) (S : Set V) (c : Cpu M V W) : Prop :=
  ∀ v w, v ∉ S → c.tlb v = some w → walk c.mem v = some w

variable {walk : M → V → Option W} {S S' S'' : Set V} {c c' : Cpu M V W} {l l' : List (Event M V)} {m m' m'' : M}
  {f : M → M} {v : V} {w : W}

omit [DecidableEq V] in
theorem coherent_empty (m : M) : Coherent walk S ⟨m, fun _ => none⟩ := by
  intro v w _ h
  cases h

theorem Coherent.fill (h : Coherent walk S c) (hw : walk c.mem v = some w) :
    Coherent walk S { c with tlb := Function.update c.tlb v (some w) } := by
  intro u x hu hx
  dsimp only at hx ⊢
  by_cases he : u = v
  · subst he
    rw [Function.update_self] at hx
    exact hw.trans hx
  · rw [Function.update_of_ne he] at hx
    exact h u x hu hx

theorem Exec.split (h : Exec walk (l ++ l') c c') : ∃ d, Exec walk l c d ∧ Exec walk l' d c' := by
  generalize hl : l ++ l' = k at h
  induction h generalizing l with
  | done c =>
    obtain ⟨rfl, rfl⟩ := List.append_eq_nil_iff.mp hl
    exact ⟨c, .done c, .done c⟩
  | fill v w hw _ ih =>
    obtain ⟨d, hd, hd'⟩ := ih hl
    exact ⟨d, .fill v w hw hd, hd'⟩
  | event e he ih =>
    cases l with
    | nil =>
      rw [List.nil_append] at hl
      subst hl
      exact ⟨_, .done _, .event e he⟩
    | cons a l =>
      rw [List.cons_append, List.cons.injEq] at hl
      obtain ⟨rfl, hl⟩ := hl
      obtain ⟨d, hd, hd'⟩ := ih hl
      exact ⟨d, .event a hd, hd'⟩

theorem Exec.events (walk : M → V → Option W) (l : List (Event M V)) (c : Cpu M V W) :
    Exec walk l c (l.foldl (fun c e => e.step c) c) := by
  induction l generalizing c with
  | nil => exact .done c
  | cons e l ih => exact .event e (ih (e.step c))

theorem foldl_write_tlb (h : ∀ e ∈ l, ∃ f, e = .write f) (c : Cpu M V W) :
    (l.foldl (fun c e => e.step c) c).tlb = c.tlb := by
  induction l generalizing c with
  | nil => rfl
  | cons e l ih =>
    obtain ⟨f, rfl⟩ := h e List.mem_cons_self
    exact ih (fun e he => h e (List.mem_cons_of_mem _ he)) _

theorem Exec.fill_last (h : Exec walk l c c') (hw : walk c'.mem v = some w) :
    Exec walk l c { c' with tlb := Function.update c'.tlb v (some w) } := by
  induction h with
  | done c => exact .fill v w hw (.done _)
  | fill u x hu _ ih => exact .fill u x hu (ih hw)
  | event e _ ih => exact .event e (ih hw)

def Triple (walk : M → V → Option W) (m : M) (S : Set V) (l : List (Event M V)) (m' : M) (S' : Set V) : Prop :=
  ∀ c c', Exec walk l c c' → c.mem = m → Coherent walk S c → c'.mem = m' ∧ Coherent walk S' c'

namespace Triple

theorem nil (m : M) (S : Set V) : Triple walk m S [] m S := by
  intro c c' h hm hc
  generalize hl : ([] : List (Event M V)) = l at h
  induction h with
  | done c => exact ⟨hm, hc⟩
  | fill v w hw _ ih => exact ih hm (hc.fill hw) hl
  | event e _ _ => cases hl

theorem append (h : Triple walk m S l m' S') (h' : Triple walk m' S' l' m'' S'') :
    Triple walk m S (l ++ l') m'' S'' := by
  intro c c' he hm hc
  obtain ⟨d, hd, hd'⟩ := he.split
  obtain ⟨hm', hc'⟩ := h c d hd hm hc
  exact h' d c' hd' hm' hc'

theorem single {e : Event M V} (h : ∀ c : Cpu M V W, c.mem = m → Coherent walk S c →
    (e.step c).mem = m' ∧ Coherent walk S' (e.step c)) : Triple walk m S [e] m' S' := by
  intro c c' he hm hc
  generalize hl : [e] = l at he
  induction he with
  | done c => cases hl
  | fill v w hw _ ih => exact ih hm (hc.fill hw) hl
  | event e' he _ =>
    rw [List.cons.injEq] at hl
    obtain ⟨rfl, rfl⟩ := hl
    obtain ⟨hm', hc'⟩ := h _ hm hc
    exact nil m' S' _ _ he hm' hc'

theorem write_same (h : ∀ u ∉ S, walk (f m) u = walk m u) : Triple walk m S [.write f] (f m) S := by
  refine single fun c hm hc => ⟨by rw [← hm]; rfl, fun u x hu hx => ?_⟩
  subst hm
  exact (h u hu).trans (hc u x hu hx)

theorem write_new (v : V) (h : ∀ u ∉ S, u ≠ v → walk (f m) u = walk m u) (hn : walk m v = none) :
    Triple walk m S [.write f] (f m) S := by
  refine single fun c hm hc => ⟨by rw [← hm]; rfl, fun u x hu hx => ?_⟩
  subst hm
  have hw := hc u x hu hx
  refine (h u hu fun e => ?_).trans hw
  rw [e, hn] at hw
  cases hw

theorem write_stale (v : V) (h : ∀ u ∉ S, u ≠ v → walk (f m) u = walk m u) :
    Triple walk m S [.write f] (f m) (insert v S) := by
  refine single fun c hm hc => ⟨by rw [← hm]; rfl, fun u x hu hx => ?_⟩
  subst hm
  rw [Set.mem_insert_iff, not_or] at hu
  exact (h u hu.2 hu.1).trans (hc u x hu.2 hx)

theorem flush (m : M) (v : V) : Triple walk m (insert v S) [.flush v] m S := by
  refine single fun c hm hc => ⟨hm, fun u x hu hx => ?_⟩
  dsimp only [Event.step] at hx ⊢
  by_cases he : u = v
  · rw [he, Function.update_self] at hx
    cases hx
  · rw [Function.update_of_ne he] at hx
    exact hc u x (by rw [Set.mem_insert_iff, not_or]; exact ⟨he, hu⟩) hx

end Triple

end Tlb
