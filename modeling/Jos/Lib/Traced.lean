import Mathlib.Data.List.Basic

/-!
# Computations that leave a trace

A computation on a state that may stop with an error, and the events of its run.
The events of a run that stops are kept, so that a property of the trace says
something of the part of a run before its failure too. `Ends` is the property of
one run, `Keeps` of all runs from the states of an invariant, and `Returns` of a run
that does not stop.
-/

structure Traced (ω ε σ α : Type) where
  run : σ → List ω × Except ε (α × σ)

namespace Traced

variable {ω ε σ α β : Type}

def ret (a : α) : Traced ω ε σ α where
  run s := ([], .ok (a, s))

def andThen (x : Traced ω ε σ α) (f : α → Traced ω ε σ β) : Traced ω ε σ β where
  run s :=
    match x.run s with
    | (t, .error e) => (t, .error e)
    | (t, .ok (a, s)) => (t ++ ((f a).run s).1, ((f a).run s).2)

instance : Monad (Traced ω ε σ) where
  pure := ret
  bind := andThen

def emit (e : ω) : Traced ω ε σ Unit where
  run s := ([e], .ok ((), s))

def stop (e : ε) : Traced ω ε σ α where
  run _ := ([], .error e)

def get : Traced ω ε σ σ where
  run s := ([], .ok (s, s))

def modify (f : σ → σ) : Traced ω ε σ Unit where
  run s := ([], .ok ((), f s))

def lift (f : σ → Except ε (α × σ)) : Traced ω ε σ α where
  run s := ([], f s)

theorem bind_error {x : Traced ω ε σ α} {f : α → Traced ω ε σ β} {s : σ} {t : List ω} {e : ε}
    (h : x.run s = (t, .error e)) : (x >>= f).run s = (t, .error e) := by
  simp only [bind, andThen, h]

theorem bind_ok {x : Traced ω ε σ α} {f : α → Traced ω ε σ β} {s s' : σ} {t : List ω} {a : α}
    (h : x.run s = (t, .ok (a, s'))) : (x >>= f).run s = (t ++ ((f a).run s').1, ((f a).run s').2) := by
  simp only [bind, andThen, h]

@[simp] theorem pure_run (a : α) (s : σ) : (pure a : Traced ω ε σ α).run s = ([], .ok (a, s)) := rfl

@[simp] theorem get_run (s : σ) : (get : Traced ω ε σ σ).run s = ([], .ok (s, s)) := rfl

@[simp] theorem modify_run (f : σ → σ) (s : σ) : (modify f : Traced ω ε σ Unit).run s = ([], .ok ((), f s)) := rfl

@[simp] theorem emit_run (e : ω) (s : σ) : (emit e : Traced ω ε σ Unit).run s = ([e], .ok ((), s)) := rfl

@[simp] theorem stop_run (e : ε) (s : σ) : (stop e : Traced ω ε σ α).run s = ([], .error e) := rfl

@[simp] theorem lift_run (f : σ → Except ε (α × σ)) (s : σ) : (lift f : Traced ω ε σ α).run s = ([], f s) := rfl

def forget (x : Traced ω ε σ α) (s : σ) : Except ε (α × σ) := (x.run s).2

@[simp] theorem forget_bind (x : Traced ω ε σ α) (f : α → Traced ω ε σ β) (s : σ) :
    (x >>= f).forget s = x.forget s >>= fun p => (f p.1).forget p.2 := by
  unfold forget
  rcases h : x.run s with ⟨t, e | ⟨a, s'⟩⟩
  · rw [bind_error h]
    rfl
  · rw [bind_ok h]
    rfl

@[simp] theorem forget_pure (a : α) (s : σ) : (pure a : Traced ω ε σ α).forget s = .ok (a, s) := rfl

@[simp] theorem forget_get (s : σ) : (get : Traced ω ε σ σ).forget s = .ok (s, s) := rfl

@[simp] theorem forget_modify (f : σ → σ) (s : σ) : (modify f : Traced ω ε σ Unit).forget s = .ok ((), f s) := rfl

@[simp] theorem forget_emit (e : ω) (s : σ) : (emit e : Traced ω ε σ Unit).forget s = .ok ((), s) := rfl

@[simp] theorem forget_stop (e : ε) (s : σ) : (stop e : Traced ω ε σ α).forget s = .error e := rfl

@[simp] theorem forget_lift (f : σ → Except ε (α × σ)) (s : σ) : (lift f : Traced ω ε σ α).forget s = f s := rfl

/-! ## One run -/

/-- The run from `s` has its events in `E`. It ends in `Q`, or stops with an error in `F`. -/
def Ends (E : ω → Prop) (F : ε → Prop) (x : Traced ω ε σ α) (s : σ) (Q : α → σ → Prop) : Prop :=
  (∀ e ∈ (x.run s).1, E e) ∧
    match (x.run s).2 with
    | .error e => F e
    | .ok (a, s') => Q a s'

section
variable {E : ω → Prop} {F : ε → Prop} {x : Traced ω ε σ α} {f : α → Traced ω ε σ β} {s s' : σ} {t : List ω} {a : α}
  {P Q : α → σ → Prop} {R : β → σ → Prop}

theorem Ends.of_error {e : ε} (h : x.run s = (t, .error e)) (ht : ∀ e ∈ t, E e) (he : F e) : Ends E F x s Q := by
  unfold Ends
  rw [h]
  exact ⟨ht, he⟩

theorem Ends.of_ok (h : x.run s = (t, .ok (a, s'))) (ht : ∀ e ∈ t, E e) (hq : Q a s') : Ends E F x s Q := by
  unfold Ends
  rw [h]
  exact ⟨ht, hq⟩

theorem Ends.bind (h : Ends E F x s P) (hf : ∀ a s', P a s' → Ends E F (f a) s' R) : Ends E F (x >>= f) s R := by
  obtain ⟨he, hp⟩ := h
  rcases hx : x.run s with ⟨t, e | ⟨a, s'⟩⟩
  · rw [hx] at he hp
    exact .of_error (bind_error hx) he hp
  · rw [hx] at he hp
    obtain ⟨he', hr⟩ := hf a s' hp
    unfold Ends
    rw [bind_ok hx]
    refine ⟨fun e hm => ?_, hr⟩
    rcases List.mem_append.mp hm with hm | hm
    · exact he e hm
    · exact he' e hm

theorem Ends.bind_run (h : x.run s = (t, .ok (a, s'))) (ht : ∀ e ∈ t, E e) (hf : Ends E F (f a) s' R) :
    Ends E F (x >>= f) s R :=
  (Ends.of_ok (Q := fun b u => b = a ∧ u = s') h ht ⟨rfl, rfl⟩).bind fun b u hb => by
    rw [hb.1, hb.2]
    exact hf

theorem Ends.mono (h : Ends E F x s P) (hp : ∀ a s', P a s' → Q a s') : Ends E F x s Q := by
  obtain ⟨he, hr⟩ := h
  refine ⟨he, ?_⟩
  rcases hx : x.run s with ⟨t, e | ⟨a, s'⟩⟩
  · rw [hx] at hr
    exact hr
  · rw [hx] at hr
    exact hp a s' hr

theorem Ends.pure (h : Q a s) : Ends E F (pure a : Traced ω ε σ α) s Q := .of_ok (pure_run a s) (by simp) h

theorem Ends.emit {e : ω} {Q : Unit → σ → Prop} (he : E e) (h : Q () s) : Ends E F (emit e : Traced ω ε σ Unit) s Q :=
  .of_ok (emit_run e s) (by simpa using he) h

theorem Ends.stop {e : ε} (he : F e) : Ends E F (stop e : Traced ω ε σ α) s Q := .of_error (stop_run e s) (by simp) he

theorem Ends.get {Q : σ → σ → Prop} (h : Q s s) : Ends E F (get : Traced ω ε σ σ) s Q := .of_ok (get_run s) (by simp) h

theorem Ends.modify {g : σ → σ} {Q : Unit → σ → Prop} (h : Q () (g s)) : Ends E F (modify g : Traced ω ε σ Unit) s Q :=
  .of_ok (modify_run g s) (by simp) h

theorem Ends.lift {g : σ → Except ε (α × σ)} (he : ∀ e, g s = .error e → F e)
    (ho : ∀ a s', g s = .ok (a, s') → Q a s') : Ends E F (lift g : Traced ω ε σ α) s Q := by
  rcases h : g s with e | ⟨a, s'⟩
  · exact .of_error (by rw [lift_run, h]) (by simp) (he e h)
  · exact .of_ok (by rw [lift_run, h]) (by simp) (ho a s' h)

/-! ## Invariants -/

def Keeps (E : ω → Prop) (F : ε → Prop) (I : σ → Prop) (x : Traced ω ε σ α) (R : α → Prop) : Prop :=
  ∀ s, I s → Ends E F x s fun a s' => R a ∧ I s'

variable {I : σ → Prop} {A A' : α → Prop} {B : β → Prop}

theorem Keeps.bind (h : Keeps E F I x A) (hf : ∀ a, A a → Keeps E F I (f a) B) : Keeps E F I (x >>= f) B :=
  fun s hs => (h s hs).bind fun a s' ha => hf a ha.1 s' ha.2

theorem Keeps.pure (h : A a) : Keeps E F I (Pure.pure a : Traced ω ε σ α) A := fun _ hs => Ends.pure ⟨h, hs⟩

theorem Keeps.stop {e : ε} (he : F e) : Keeps E F I (Traced.stop e : Traced ω ε σ α) A := fun _ _ => Ends.stop he

theorem Keeps.mono (h : Keeps E F I x A) (hf : ∀ a, A a → A' a) : Keeps E F I x A' :=
  fun s hs => (h s hs).mono fun a _ ha => ⟨hf a ha.1, ha.2⟩

theorem Keeps.forM {l : List β} {g : β → Traced ω ε σ PUnit} (h : ∀ b ∈ l, Keeps E F I (g b) fun _ => True) :
    Keeps E F I (forM l g) fun _ => True := by
  induction l with
  | nil => exact Keeps.pure trivial
  | cons b l ih =>
    rw [List.forM_cons]
    exact (h b List.mem_cons_self).bind fun _ _ => ih fun c hc => h c (List.mem_cons_of_mem b hc)

end

/-! ## Runs that return -/

/-- The run from `s` does not stop, and ends in `Q`. -/
def Returns (x : Traced ω ε σ α) (s : σ) (Q : α → σ → Prop) : Prop := ∃ a s', x.forget s = .ok (a, s') ∧ Q a s'

section
variable {x : Traced ω ε σ α} {f : α → Traced ω ε σ β} {s s' : σ} {a : α} {P Q : α → σ → Prop} {R : β → σ → Prop}

theorem Returns.of_forget (h : x.forget s = .ok (a, s')) (hq : Q a s') : Returns x s Q := ⟨a, s', h, hq⟩

theorem Returns.bind (h : Returns x s P) (hf : ∀ a s', P a s' → Returns (f a) s' R) : Returns (x >>= f) s R := by
  obtain ⟨a, s', hx, hp⟩ := h
  obtain ⟨b, t, ht, hr⟩ := hf a s' hp
  refine ⟨b, t, ?_, hr⟩
  rw [forget_bind, hx]
  exact ht

theorem Returns.andThen {C : Except ε (β × σ) → Prop} (h : Returns x s P) (hf : ∀ a s', P a s' → C ((f a).forget s')) :
    C ((x >>= f).forget s) := by
  obtain ⟨a, s', hx, hp⟩ := h
  rw [forget_bind, hx]
  exact hf a s' hp

theorem Returns.mono (h : Returns x s P) (hp : ∀ a s', P a s' → Q a s') : Returns x s Q := by
  obtain ⟨a, s', hx, hq⟩ := h
  exact ⟨a, s', hx, hp a s' hq⟩

theorem Returns.pure (h : Q a s) : Returns (pure a : Traced ω ε σ α) s Q := .of_forget (forget_pure a s) h

theorem Returns.get {Q : σ → σ → Prop} (h : Q s s) : Returns (get : Traced ω ε σ σ) s Q := .of_forget (forget_get s) h

theorem Returns.modify {g : σ → σ} {Q : Unit → σ → Prop} (h : Q () (g s)) : Returns (modify g : Traced ω ε σ Unit) s Q :=
  .of_forget (forget_modify g s) h

/-- A loop over a list, from an invariant that speaks of what is left. -/
theorem Returns.forM {l : List β} {g : β → Traced ω ε σ PUnit} {I : List β → σ → Prop}
    (h : ∀ b r s, I (b :: r) s → Returns (g b) s fun _ t => I r t) (hs : I l s) : Returns (forM l g) s fun _ t => I [] t := by
  induction l generalizing s with
  | nil => exact Returns.pure hs
  | cons b l ih =>
    rw [List.forM_cons]
    exact (h b l s hs).bind fun _ _ ht => ih ht

end

end Traced
