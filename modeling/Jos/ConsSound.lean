import Jos.Console
import Jos.Lib.Ring
import Mathlib.Logic.Relation
import Mathlib.Data.List.Basic

/-!
# The input buffer as a queue

`cons` holds the stored bytes that are not yet returned while they are at most
511: with 512 the positions meet, and `cons_getc` takes the buffer for empty.
-/

namespace Jos

namespace Cons

def Pending (s : Cons) (q : List Byte) : Prop := Ring.Holds consbufsize s.buf s.rpos s.wpos q

theorem init_pending : Pending init [] := Ring.Holds.empty (show 0 < consbufsize by decide)

def stored (burst : List Byte) : List Byte := burst.filter (· ≠ 0)

theorem stored_zero (burst : List Byte) : stored (0 :: burst) = stored burst := rfl

theorem stored_cons {c : Byte} (hc : c ≠ 0) (burst : List Byte) : stored (c :: burst) = c :: stored burst := by
  rw [stored, List.filter_cons_of_pos (by simpa using hc), stored]

theorem ne_zero_of_mem_stored {c : Byte} {burst : List Byte} (h : c ∈ stored burst) : c ≠ 0 := by
  simpa using (List.mem_filter.mp h).2

/-! ## Storing -/

theorem store_eq (s : Cons) (c : Byte) :
    s.store c = ⟨Function.update s.buf s.wpos c, s.rpos, Ring.next consbufsize s.wpos⟩ := by
  unfold store Ring.next
  split
  · next h => rw [if_pos h]
  · next h => rw [if_neg h]

theorem store_pending {s : Cons} {q : List Byte} (h : s.Pending q) (hroom : q.length + 1 < consbufsize) (c : Byte) :
    (s.store c).Pending (q ++ [c]) := by
  rw [store_eq]
  exact Ring.Holds.push h hroom c

theorem consIntr_cons {c : Byte} (hc : c ≠ 0) (s : Cons) (burst : List Byte) :
    consIntr s (c :: burst) = consIntr (s.store c) burst := by
  rw [consIntr, if_neg hc]

theorem consIntr_zero (s : Cons) (burst : List Byte) : consIntr s (0 :: burst) = consIntr s burst := by
  rw [consIntr, if_pos rfl]

theorem consIntr_append (s : Cons) (b b' : List Byte) : consIntr s (b ++ b') = consIntr (consIntr s b) b' := by
  induction b generalizing s with
  | nil => rfl
  | cons c b ih =>
    rw [List.cons_append]
    by_cases hc : c = 0
    · rw [hc, consIntr_zero, consIntr_zero, ih]
    · rw [consIntr_cons hc, consIntr_cons hc, ih]

theorem consIntr_of_stored_nil {s : Cons} {burst : List Byte} (h : stored burst = []) : consIntr s burst = s := by
  induction burst with
  | nil => rfl
  | cons c burst ih =>
    by_cases hc : c = 0
    · rw [hc, consIntr_zero]
      rw [hc, stored_zero] at h
      exact ih h
    · rw [stored_cons hc] at h
      cases h

theorem consIntr_pending {s : Cons} {q burst : List Byte} (h : s.Pending q)
    (hroom : (q ++ stored burst).length < consbufsize) : (consIntr s burst).Pending (q ++ stored burst) := by
  induction burst generalizing s q with
  | nil =>
    rw [consIntr, stored, List.filter_nil, List.append_nil]
    exact h
  | cons c burst ih =>
    by_cases hc : c = 0
    · subst hc
      rw [consIntr_zero, stored_zero]
      exact ih h hroom
    · rw [stored_cons hc, List.append_cons] at hroom ⊢
      rw [consIntr_cons hc]
      refine ih (store_pending h ?_ c) hroom
      rw [List.length_append, List.length_append, List.length_singleton] at hroom
      omega

theorem consIntr_full {s : Cons} {q burst : List Byte} (h : s.Pending q)
    (hfull : (q ++ stored burst).length = consbufsize) : (consIntr s burst).rpos = (consIntr s burst).wpos := by
  induction burst generalizing s q with
  | nil =>
    have := h.room
    rw [stored, List.filter_nil, List.append_nil] at hfull
    omega
  | cons c burst ih =>
    by_cases hc : c = 0
    · subst hc
      rw [consIntr_zero]
      rw [stored_zero] at hfull
      exact ih h hfull
    · rw [stored_cons hc] at hfull
      rw [consIntr_cons hc]
      rcases Nat.lt_or_ge (q.length + 1) consbufsize with hroom | hroom
      · rw [List.append_cons] at hfull
        exact ih (store_pending h hroom c) hfull
      · have hq := h.room
        rw [List.length_append, List.length_cons] at hfull
        have hnil : stored burst = [] := List.eq_nil_of_length_eq_zero (by omega)
        rw [consIntr_of_stored_nil hnil, store_eq]
        exact (h.full (by omega)).symm

/-! ## Returning -/

def polled (serialExists : Bool) (serial kbd : List Byte) : List Byte := (if serialExists then serial else []) ++ kbd

def take (s : Cons) : Byte × Cons :=
  if s.rpos = s.wpos then (0, s) else (s.buf s.rpos, { s with rpos := Ring.next consbufsize s.rpos })

theorem consGetc_eq (e : Bool) (s : Cons) (serial kbd : List Byte) :
    consGetc e s serial kbd = take (consIntr s (polled e serial kbd)) := by
  have hs : consIntr (if e then consIntr s serial else s) kbd = consIntr s (polled e serial kbd) := by
    rw [polled, consIntr_append]
    cases e <;> rfl
  unfold consGetc take
  dsimp only
  rw [hs, ite_not]
  refine if_congr Iff.rfl rfl (congrArg _ ?_)
  unfold Ring.next
  split
  · rfl
  · rfl

theorem take_nil {s : Cons} (h : s.Pending []) : take s = (0, s) := by
  rw [take, if_pos (h.eq_iff.mpr rfl)]

theorem take_cons {s : Cons} {c : Byte} {q : List Byte} (h : s.Pending (c :: q)) :
    (take s).1 = c ∧ (take s).2.Pending q := by
  have hne : s.rpos ≠ s.wpos := fun he => by
    cases h.eq_iff.mp he
  obtain ⟨hc, hq⟩ := Ring.Holds.pop h
  rw [take, if_neg hne]
  exact ⟨hc, hq⟩

end Cons

/-! ## Runs -/

structure Input where
  cons : Cons
  stored : List Byte
  returned : List Byte

inductive InputOp where
  | intr (burst : List Byte)
  | getc (serial kbd : List Byte)

namespace Input

def init : Input := ⟨Cons.init, [], []⟩

variable (serialExists : Bool)

def new : InputOp → List Byte
  | .intr burst => Cons.stored burst
  | .getc serial kbd => Cons.stored (Cons.polled serialExists serial kbd)

def exec (x : Input) : InputOp → Input
  | .intr burst => ⟨x.cons.consIntr burst, x.stored ++ new serialExists (.intr burst), x.returned⟩
  | .getc serial kbd =>
    let (c, cons) := x.cons.consGetc serialExists serial kbd
    ⟨cons, x.stored ++ new serialExists (.getc serial kbd), if c = 0 then x.returned else x.returned ++ [c]⟩

def Fits (n : Nat) (x : Input) (op : InputOp) : Prop :=
  (x.stored ++ new serialExists op).length ≤ x.returned.length + n

instance (n : Nat) (x : Input) (op : InputOp) : Decidable (Fits serialExists n x op) := inferInstanceAs (Decidable (_ ≤ _))

def Run (n : Nat) : Input → Input → Prop := Relation.ReflTransGen fun x y => ∃ op, Fits serialExists n x op ∧ y = exec serialExists x op

/-- `cons_getc` returns the first stored byte that is not yet returned, and 0 just when there is none. -/
structure Next (x : Input) (serial kbd : List Byte) : Prop where
  byte : (x.cons.consGetc serialExists serial kbd).1 =
    ((x.stored ++ new serialExists (.getc serial kbd)).drop x.returned.length).headD 0
  none : (x.cons.consGetc serialExists serial kbd).1 = 0 ↔
    (x.stored ++ new serialExists (.getc serial kbd)).length = x.returned.length

structure Queue (x : Input) (q : List Byte) : Prop where
  pending : x.cons.Pending q
  stored : x.stored = x.returned ++ q
  nonzero : ∀ c ∈ x.stored, c ≠ 0

variable {serialExists}
variable {x y : Input} {q : List Byte}

theorem init_queue : Queue init [] := ⟨Cons.init_pending, rfl, fun _ hc => absurd hc List.not_mem_nil⟩

theorem new_ne_zero {op : InputOp} {c : Byte} (h : c ∈ new serialExists op) : c ≠ 0 := by
  cases op <;> exact Cons.ne_zero_of_mem_stored h

theorem Queue.fits_iff (h : Queue x q) (n : Nat) (op : InputOp) :
    Fits serialExists n x op ↔ (q ++ new serialExists op).length ≤ n := by
  rw [Fits, h.stored, List.append_assoc, List.length_append]
  omega

theorem Queue.drop (h : Queue x q) (b : List Byte) : (x.stored ++ b).drop x.returned.length = q ++ b := by
  rw [h.stored, List.append_assoc, List.drop_left]

theorem Queue.nonzero_new (h : Queue x q) (serialExists : Bool) (op : InputOp) : ∀ c ∈ x.stored ++ new serialExists op, c ≠ 0 := by
  intro c hc
  rcases List.mem_append.mp hc with hc | hc
  · exact h.nonzero c hc
  · exact new_ne_zero hc

theorem Queue.poll (h : Queue x q) {serial kbd : List Byte} (hf : Fits serialExists 511 x (.getc serial kbd)) :
    (x.cons.consIntr (Cons.polled serialExists serial kbd)).Pending (q ++ new serialExists (.getc serial kbd)) := by
  rw [h.fits_iff] at hf
  exact Cons.consIntr_pending h.pending (Nat.lt_succ_of_le hf)

theorem Queue.next (h : Queue x q) {serial kbd : List Byte} (hf : Fits serialExists 511 x (.getc serial kbd)) :
    Next serialExists x serial kbd := by
  have hp := h.poll hf
  have hlen : (x.stored ++ new serialExists (.getc serial kbd)).length =
      x.returned.length + (q ++ new serialExists (.getc serial kbd)).length := by
    rw [h.stored, List.append_assoc, List.length_append]
  have hnz : ∀ c ∈ q ++ new serialExists (.getc serial kbd), c ≠ 0 := fun c hc => by
    refine h.nonzero_new serialExists (.getc serial kbd) c ?_
    rw [h.stored, List.append_assoc]
    exact List.mem_append_right _ hc
  constructor
  · rw [h.drop, Cons.consGetc_eq]
    cases hq : q ++ new serialExists (.getc serial kbd) with
    | nil =>
      rw [hq] at hp
      rw [Cons.take_nil hp]
      rfl
    | cons c t =>
      rw [hq] at hp
      exact (Cons.take_cons hp).1
  · rw [hlen, Cons.consGetc_eq]
    cases hq : q ++ new serialExists (.getc serial kbd) with
    | nil =>
      rw [hq] at hp
      rw [Cons.take_nil hp]
      exact iff_of_true rfl rfl
    | cons c t =>
      rw [hq] at hp
      rw [(Cons.take_cons hp).1]
      refine iff_of_false (hnz c ?_) ?_
      · rw [hq]
        exact List.mem_cons_self
      · rw [List.length_cons]
        omega

theorem Queue.not_next (h : Queue x q) {serial kbd : List Byte} (hf : Fits serialExists consbufsize x (.getc serial kbd))
    (hn : ¬ Fits serialExists 511 x (.getc serial kbd)) : ¬ Next serialExists x serial kbd := by
  rw [h.fits_iff, consbufsize] at hf
  rw [h.fits_iff] at hn
  have hz : (x.cons.consGetc serialExists serial kbd).1 = 0 := by
    rw [Cons.consGetc_eq, Cons.take, if_pos (Cons.consIntr_full h.pending ?_)]
    change (q ++ new serialExists (.getc serial kbd)).length = 512
    omega
  intro hx
  have hlen := hx.none.mp hz
  rw [h.stored, List.append_assoc, List.length_append] at hlen
  omega

/-! ## One step and all runs -/

theorem exec_getc (e : Bool) (x : Input) (serial kbd : List Byte) : exec e x (.getc serial kbd) =
    ⟨(x.cons.consIntr (Cons.polled e serial kbd)).take.2, x.stored ++ new e (.getc serial kbd),
      if (x.cons.consIntr (Cons.polled e serial kbd)).take.1 = 0 then x.returned
      else x.returned ++ [(x.cons.consIntr (Cons.polled e serial kbd)).take.1]⟩ := by
  rw [exec, Cons.consGetc_eq]

theorem Queue.exec (h : Queue x q) {op : InputOp} (hf : Fits serialExists 511 x op) :
    ∃ q', Queue (exec serialExists x op) q' := by
  cases op with
  | intr burst =>
    refine ⟨q ++ Cons.stored burst, ?_, ?_, h.nonzero_new serialExists (.intr burst)⟩
    · rw [h.fits_iff] at hf
      exact Cons.consIntr_pending h.pending (Nat.lt_succ_of_le hf)
    · change x.stored ++ Cons.stored burst = _
      rw [h.stored, List.append_assoc]
      rfl
  | getc serial kbd =>
    have hp := h.poll hf
    have hnz := h.nonzero_new serialExists (.getc serial kbd)
    have hs : x.stored ++ new serialExists (.getc serial kbd) =
        x.returned ++ (q ++ new serialExists (.getc serial kbd)) := by rw [h.stored, List.append_assoc]
    rw [exec_getc]
    cases hq : q ++ new serialExists (.getc serial kbd) with
    | nil =>
      rw [hq] at hp hs
      rw [Cons.take_nil hp, if_pos rfl]
      exact ⟨[], hp, hs, hnz⟩
    | cons c t =>
      rw [hq] at hp hs
      obtain ⟨hc, ht⟩ := Cons.take_cons hp
      have hc0 : c ≠ 0 := hnz c (by
        rw [hs]
        exact List.mem_append_right _ List.mem_cons_self)
      rw [hc, if_neg hc0]
      refine ⟨t, ht, ?_, hnz⟩
      change x.stored ++ new serialExists (.getc serial kbd) = _
      rw [hs, List.append_assoc]
      rfl

theorem run_queue (hr : Run serialExists 511 init x) : ∃ q, Queue x q := by
  induction hr with
  | refl => exact ⟨[], init_queue⟩
  | tail _ hs ih =>
    obtain ⟨q, hq⟩ := ih
    obtain ⟨op, hf, rfl⟩ := hs
    exact hq.exec hf

/-- **`cons_getc`** in a run in which never more than 511 bytes are pending: what it has returned is
a prefix of what was stored, and it returns the next byte, unless 512 are pending at that moment. -/
theorem consGetc_sound (serialExists : Bool) (x : Input) (hr : Run serialExists 511 init x) :
    x.returned <+: x.stored ∧ (∀ c ∈ x.stored, c ≠ 0) ∧
      ∀ serial kbd, Fits serialExists consbufsize x (.getc serial kbd) →
        (Next serialExists x serial kbd ↔ Fits serialExists 511 x (.getc serial kbd)) := by
  obtain ⟨q, h⟩ := run_queue hr
  refine ⟨⟨q, h.stored.symm⟩, h.nonzero, fun serial kbd hf => ⟨fun hx => ?_, h.next⟩⟩
  by_contra hn
  exact h.not_next hf hn hx

theorem consGetc_sound_small : Next true (exec true init (.intr [0x61])) [0x62] [] := by
  have hf : Fits true 511 init (.intr [0x61]) := by decide
  have hr : Run true 511 init (exec true init (.intr [0x61])) := Relation.ReflTransGen.single ⟨_, hf, rfl⟩
  exact ((consGetc_sound true _ hr).2.2 [0x62] [] (by decide)).mpr (by decide)

/-- The 512 bytes that fill the buffer are lost. -/
theorem consGetc_full : ¬ ∀ (serialExists : Bool) (x : Input), Run serialExists consbufsize init x →
    ∀ serial kbd, Fits serialExists consbufsize x (.getc serial kbd) → Next serialExists x serial kbd := by
  intro h
  have hlen : (new true (.getc (List.replicate 512 0x61) [])).length = 512 := by
    simp only [new, Cons.polled, if_true, List.append_nil, Cons.stored]
    rw [List.filter_replicate_of_pos (by decide), List.length_replicate]
  have hfit : ∀ n, Fits true n init (.getc (List.replicate 512 0x61) []) ↔ 512 ≤ n := fun n => by
    rw [init_queue.fits_iff, List.nil_append, hlen]
  refine init_queue.not_next ((hfit _).mpr (Nat.le_refl _)) ?_ (h true init Relation.ReflTransGen.refl _ [] ?_)
  · rw [hfit]
    omega
  · exact (hfit _).mpr (Nat.le_refl _)

end Input

end Jos
