import Jos.Check

/-!
# Accesses below 4 MB

What the processor maps while it uses `entry_pgdir`, and the rules for runs that
stay in it. A run that cannot panic has an equation, with its trace; the others have
a rule. `Fine` is a run that stays below 4 MB, with any panic but no endless list.
-/

namespace Jos

namespace Check

open Traced

def Event.Low : Event → Prop
  | .alloc pp => pp < 1024
  | .access a => kernbase ≤ a ∧ a < kernbase + ptsize

theorem low_alloc {p : Nat} : Event.Low (.alloc p) ↔ p < 1024 := Iff.rfl

theorem low_access {a : Word} : Event.Low (.access a) ↔ kernbase.toNat ≤ a.toNat ∧ a.toNat < kernbase.toNat + ptsize.toNat :=
  Iff.rfl

theorem low_entry {p i : Nat} (hp : p < 1024) (hi : i < 1024) : Event.Low (.access (entry (kva p) i)) := by
  rw [low_access, entry_kva_toNat (by omega) hi, kernbase_toNat, ptsize_toNat]
  omega

theorem low_kva {p : Nat} (hp : p < 1024) : Event.Low (.access (kva p)) := by
  rw [low_access, kva_toNat (by omega), kernbase_toNat, ptsize_toNat]
  omega

/-! ## Runs that do not panic -/

section
variable {α : Type} {s t : Kern}

theorem step_ok {f : Kern → Except Panic Kern} (h : f s = .ok t) : (step f).run s = ([], .ok ((), t)) := by
  unfold step
  rw [lift_run, h]
  rfl

theorem step_error {f : Kern → Except Panic Kern} {e : Panic} (h : f s = .error e) :
    (step f).run s = ([], .error (.panic e)) := by
  unfold step
  rw [lift_run, h]
  rfl

theorem read_error {f : Kern → Except Panic α} {e : Panic} (h : f s = .error e) :
    (read f).run s = ([], .error (.panic e)) := by
  unfold read
  rw [lift_run, h]
  rfl

theorem read_ok {f : Kern → Except Panic α} {a : α} (h : f s = .ok a) : (read f).run s = ([], .ok (a, s)) := by
  unfold read
  rw [lift_run, h]
  rfl

end

section
variable {s : Kern} {p i D T : Nat} {v va f : Word} {create : Bool}

theorem load_run (hp : p < 65536) (hi : i < 1024) :
    (load (entry (kva p) i)).run s = ([.access (entry (kva p) i)], .ok (s.mem p i, s)) := by
  unfold load
  rw [bind_ok (read_ok (Kern.load_entry s hp hi)), bind_ok (emit_run _ s)]
  rfl

theorem store_run (hp : p < 65536) (hi : i < 1024) :
    (store (entry (kva p) i) v).run s = ([.access (entry (kva p) i)], .ok ((), s.write p i v)) := by
  unfold store
  rw [bind_ok (step_ok (Kern.store_entry s hp hi v))]
  rfl

theorem memset0_run (hp : p < 65536) : (memset0 (kva p)).run s = ([.access (kva p)], .ok ((), s.clear p)) := by
  unfold memset0
  rw [bind_ok (step_ok (Kern.memset0_kva s hp))]
  rfl

theorem memset_run (hp : p < 65536) (c : Byte) (n : Nat) :
    (memset (kva p) c n).run s = ([.access (kva p)], .ok ((), s.fill p (n / 4) (c ++ c ++ c ++ c))) := by
  have he : s.memset (kva p) c n = .ok (s.fill p (n / 4) (c ++ c ++ c ++ c)) := by
    unfold Kern.memset
    rw [if_neg (Kern.kva_not_lt hp), kva_sub, pgnum_page2pa (by omega)]
  unfold memset
  rw [bind_ok (step_ok he)]
  rfl

theorem alloc_none (hf : s.pageFreeList = none) (f : Word) : (pageAlloc f).run s = ([], .ok (none, s)) := by
  unfold pageAlloc
  rw [bind_ok (get_run s), hf]
  rfl

theorem alloc_zero (hf : s.pageFreeList = some p) : (pageAlloc 0).run s = ([.alloc p], .ok (some p, s.pop p)) := by
  unfold pageAlloc
  rw [bind_ok (get_run s), hf]
  rfl

theorem alloc_clear (hf : s.pageFreeList = some p) (h0 : f ≠ 0) (hn : p < s.npages) (hp : p < 65536) :
    (pageAlloc f).run s = ([.access (kva p), .alloc p], .ok (some p, (s.pop p).clear p)) := by
  have hl : (modify (·.setLink p none) : Checked Unit).run { s with pageFreeList := s.link p } = ([], .ok ((), s.pop p)) := rfl
  have hk : (s.pop p).page2kva p = .ok (kva p) := Kern.kaddr_page2pa _ (by omega) hn
  unfold pageAlloc
  rw [bind_ok (get_run s), hf]
  dsimp only
  rw [bind_ok (modify_run _ s), bind_ok hl, if_pos ⟨h0, by decide⟩, bind_ok (read_ok hk), bind_ok (memset0_run hp)]
  rfl

/-! ## `pgdir_walk` -/

section
variable (hD : D < 65536)
include hD

theorem walk_present (h : target (s.mem D (pdx va)) = some T) (hT : T < s.npages) :
    (pgdirWalk (kva D) va create).run s = ([.access (entry (kva D) (pdx va))], .ok (some (entry (kva T) (ptx va)), s)) := by
  obtain ⟨hP, hg⟩ := target_eq_some.mp h
  have hk : s.kaddr (pteAddr (s.mem D (pdx va))) = .ok (kva T) := by
    rw [pteAddr_eq_page2pa, hg, Kern.kaddr_page2pa s (hg ▸ pgnum_lt _) hT]
  unfold pgdirWalk
  dsimp only
  rw [bind_ok (load_run hD (pdx_lt va)), if_pos hP, bind_ok (read_ok hk)]
  rfl

theorem walk_absent (h : target (s.mem D (pdx va)) = none) :
    (pgdirWalk (kva D) va false).run s = ([.access (entry (kva D) (pdx va))], .ok (none, s)) := by
  unfold pgdirWalk
  dsimp only
  rw [bind_ok (load_run hD (pdx_lt va)), if_neg (not_not.mpr (target_eq_none.mp h))]
  rfl

theorem walk_noMem (h : target (s.mem D (pdx va)) = none) (hf : s.pageFreeList = none) :
    (pgdirWalk (kva D) va true).run s = ([.access (entry (kva D) (pdx va))], .ok (none, s)) := by
  unfold pgdirWalk
  dsimp only
  rw [bind_ok (load_run hD (pdx_lt va)), if_neg (not_not.mpr (target_eq_none.mp h)), if_neg (by decide),
    bind_ok (alloc_none hf 1)]
  rfl

theorem walk_create (h : target (s.mem D (pdx va)) = none) (hf : s.pageFreeList = some T) (hn : T < s.npages)
    (hT : T < 65536) : (pgdirWalk (kva D) va true).run s =
      ([.access (entry (kva D) (pdx va)), .access (kva T), .alloc T, .access (entry (kva D) (pdx va))],
        .ok (some (entry (kva T) (ptx va)), s.addTable D T va)) := by
  have hk : ((s.pop T).clear T).page2kva T = .ok (kva T) := Kern.kaddr_page2pa _ (by omega) hn
  unfold pgdirWalk
  dsimp only
  rw [bind_ok (load_run hD (pdx_lt va)), if_neg (not_not.mpr (target_eq_none.mp h)), if_neg (by decide),
    bind_ok (alloc_clear hf (by decide) hn hT)]
  dsimp only
  rw [bind_ok (read_ok hk), bind_ok (modify_run _ _), bind_ok (read_ok (paddr_kva hT)), bind_ok (store_run hD (pdx_lt va)),
    or_tableFlags, Kern.clear_ref, Kern.pop_ref]
  rfl

end

end

/-! ## Runs below 4 MB -/

section
variable {α : Type} {s : Kern} {Q : α → Kern → Prop} {I : Kern → Prop} {R : α → Prop} {p i : Nat} {v : Word}

/-- The run stays below 4 MB. -/
abbrev Fine (x : Checked α) (s : Kern) (Q : α → Kern → Prop) : Prop := Ends Event.Low (· ≠ .endless) x s Q

/-- All runs from the states of `I` do, and end in one. -/
abbrev Safe (I : Kern → Prop) (x : Checked α) (R : α → Prop) : Prop := Keeps Event.Low (· ≠ .endless) I x R

theorem fine_step {f : Kern → Except Panic Kern} {Q : Unit → Kern → Prop} (h : ∀ t, f s = .ok t → Q () t) :
    Fine (step f) s Q := by
  cases hf : f s with
  | error e => exact .of_error (step_error hf) (by simp) (by simp)
  | ok t => exact .of_ok (step_ok hf) (by simp) (h t hf)

theorem fine_read {f : Kern → Except Panic α} (h : ∀ a, f s = .ok a → Q a s) : Fine (read f) s Q := by
  cases hf : f s with
  | error e => exact .of_error (read_error hf) (by simp) (by simp)
  | ok a => exact .of_ok (read_ok hf) (by simp) (h a hf)

theorem safe_step {f : Kern → Except Panic Kern} (h : ∀ s t, I s → f s = .ok t → I t) : Safe I (step f) fun _ => True :=
  fun s hs => fine_step fun t ht => ⟨trivial, h s t hs ht⟩

theorem safe_read {f : Kern → Except Panic α} (h : ∀ s a, f s = .ok a → R a) : Safe I (read f) R :=
  fun s hs => fine_read fun a ha => ⟨h s a ha, hs⟩

theorem safe_modify {f : Kern → Kern} (h : ∀ s, I s → I (f s)) : Safe I (modify f) fun _ => True :=
  fun s hs => Ends.modify ⟨trivial, h s hs⟩

theorem safe_get : Safe I get I := fun _ hs => Ends.get ⟨hs, hs⟩

theorem safe_require {c : Prop} [Decidable c] {e : Stop} (he : e ≠ .endless) : Safe I (require c e) fun _ => c := by
  unfold require
  split
  · rename_i hc
    exact Keeps.pure hc
  · exact Keeps.stop he

theorem safe_assert {c : Prop} [Decidable c] {x : String} : Safe I (assert c x) fun _ => c := safe_require (by simp)

theorem fine_assert {c : Prop} [Decidable c] {x : String} : Fine (assert c x) s fun _ t => c ∧ t = s :=
  safe_assert (I := fun t => t = s) s rfl

theorem safe_load (hp : p < 1024) (hi : i < 1024) : Safe I (load (entry (kva p) i)) fun _ => True :=
  fun _ hs => .of_ok (load_run (by omega) hi) (by simpa using low_entry hp hi) ⟨trivial, hs⟩

theorem safe_store (hp : p < 1024) (hi : i < 1024) (h : ∀ s, I s → I (s.write p i v)) :
    Safe I (store (entry (kva p) i) v) fun _ => True :=
  fun s hs => .of_ok (store_run (by omega) hi) (by simpa using low_entry hp hi) ⟨trivial, h s hs⟩

theorem safe_memset {c : Byte} {n : Nat} (hp : p < 1024) (h : ∀ s, I s → I (s.fill p (n / 4) (c ++ c ++ c ++ c))) :
    Safe I (memset (kva p) c n) fun _ => True :=
  fun s hs => .of_ok (memset_run (by omega) c n) (by simpa using low_kva hp) ⟨trivial, h s hs⟩

theorem safe_page2kva : Safe I (read (·.page2kva p)) fun a => a = kva p := by
  apply safe_read
  intro s a ha
  unfold Kern.page2kva Kern.kaddr at ha
  split at ha
  · cases ha
  · rw [page2pa_add] at ha
    cases ha
    rfl

theorem safe_kaddr : Safe I (read (·.kaddr (pteAddr v))) fun a => a = kva (pgnum v) := by
  rw [pteAddr_eq_page2pa]
  exact safe_page2kva

theorem fine_forFree {body : Nat → α → Checked α} {J : List Nat → α → Kern → Prop}
    (hb : ∀ p l x s, J (p :: l) x s → Fine (body p x) s fun y t => J l y t ∧ t.link p = l.head?)
    {n : Nat} {l : List Nat} {x : α} (hn : l.length ≤ n) (h : J l x s) :
    Fine (forFree body n l.head? x) s fun y t => J [] y t := by
  induction l generalizing n x s with
  | nil =>
    unfold forFree
    exact Ends.pure h
  | cons p l ih =>
    cases n with
    | zero => simp at hn
    | succ n =>
      rw [List.head?_cons, forFree]
      apply (hb p l x s h).bind
      intro y t ht
      apply Ends.bind_run (get_run t) (by simp)
      rw [ht.2]
      exact ih (by simpa using hn) ht.1

end

end Check

end Jos
