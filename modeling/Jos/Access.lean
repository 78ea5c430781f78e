import Jos.Mmu

/-!
# Memory as C code accesses it

A byte that is there can be read and written; any other access is a fault. So code
that ends without a fault has accessed nothing but what is there.
-/

namespace Jos.Access

inductive Fault where
  | read
  | write
  | bound
  /-- A `va_arg` that does not find what it reads. -/
  | arg
  /-- The bound on the turns of a loop was too small. -/
  | fuel
  deriving DecidableEq, Repr

abbrev Memory := Word → Option Byte

def load (mem : Memory) (p : Word) : Except Fault Byte :=
  match mem p with
  | some b => .ok b
  | none => .error .read

def store (mem : Memory) (p : Word) (b : Byte) : Except Fault Memory :=
  match mem p with
  | some _ => .ok (Function.update mem p (some b))
  | none => .error .write

def loads (mem : Memory) (p : Word) : Nat → Except Fault (List Byte)
  | 0 => .ok []
  | n + 1 => do
    let b ← load mem p
    let bs ← loads mem (p + 1) n
    .ok (b :: bs)

def stores (mem : Memory) (p : Word) : List Byte → Except Fault Memory
  | [] => .ok mem
  | b :: bs => do
    let mem ← store mem p b
    stores mem (p + 1) bs

def Mapped (mem : Memory) (p : Word) (n : Nat) : Prop := ∀ i < n, mem (p + BitVec.ofNat 32 i) ≠ none

section
variable {mem : Memory} {p a : Word} {b : Byte} {bs : List Byte} {n k : Nat}

@[simp] theorem ok_then {α β : Type} (x : α) (f : α → Except Fault β) : (Except.ok x >>= f) = f x := rfl

theorem load_some (h : mem p = some b) : load mem p = .ok b := by simp [load, h]

theorem store_some (h : mem p ≠ none) (b : Byte) : store mem p b = .ok (Function.update mem p (some b)) := by
  obtain ⟨c, hc⟩ := Option.ne_none_iff_exists'.mp h
  simp [store, hc]

theorem add_ofNat_succ (p : Word) (k : Nat) : p + 1 + BitVec.ofNat 32 k = p + BitVec.ofNat 32 (k + 1) := by
  rw [Nat.add_comm, BitVec.ofNat_add, ← BitVec.add_assoc]
  rfl

theorem sub_ofNat (p : Word) (hk : k < 2 ^ 32) : (p + BitVec.ofNat 32 k - p).toNat = k := by
  rw [BitVec.add_comm, BitVec.add_sub_cancel, BitVec.toNat_ofNat, Nat.mod_eq_of_lt hk]

theorem add_ofNat_ne (p : Word) {j k : Nat} (hj : j < 2 ^ 32) (hk : k < 2 ^ 32) (h : j ≠ k) :
    p + BitVec.ofNat 32 j ≠ p + BitVec.ofNat 32 k := fun he => h (by rw [← sub_ofNat p hj, he, sub_ofNat p hk])

theorem Mapped.head (h : Mapped mem p (n + 1)) : mem p ≠ none := by
  have h0 := h 0 (Nat.succ_pos _)
  rwa [BitVec.add_zero] at h0

theorem Mapped.tail (h : Mapped mem p (n + 1)) : Mapped mem (p + 1) n := fun i hi => by
  rw [add_ofNat_succ]
  exact h (i + 1) (Nat.succ_lt_succ hi)

theorem Mapped.drop (h : Mapped mem p (k + n)) : Mapped mem (p + BitVec.ofNat 32 k) n := fun i hi => by
  rw [BitVec.add_assoc, ← BitVec.ofNat_add]
  exact h (k + i) (by omega)

theorem Mapped.take (h : Mapped mem p (k + n)) : Mapped mem p k := fun i hi => h i (by omega)

theorem Mapped.get (h : Mapped mem p n) (ha : (a - p).toNat < n) : mem a ≠ none := by
  have := h _ ha
  rwa [BitVec.ofNat_toNat, BitVec.setWidth_eq, BitVec.add_comm, BitVec.sub_add_cancel] at this

theorem Mapped.mono {mem' : Memory} (h : Mapped mem p n) (hm : ∀ a, mem a ≠ none → mem' a ≠ none) : Mapped mem' p n :=
  fun i hi => hm _ (h i hi)

theorem Mapped.update (h : Mapped mem p n) (a : Word) (b : Byte) : Mapped (Function.update mem a (some b)) p n :=
  h.mono fun c hc => by
    by_cases hca : c = a
    · simp [hca]
    · simpa [hca] using hc

theorem loads_mapped (h : Mapped mem p n) :
    ∃ bs, loads mem p n = .ok bs ∧ bs.length = n ∧ ∀ i < n, mem (p + BitVec.ofNat 32 i) = bs[i]? := by
  induction n generalizing p with
  | zero => exact ⟨[], rfl, rfl, fun i hi => absurd hi (Nat.not_lt_zero i)⟩
  | succ n ih =>
    obtain ⟨b, hb⟩ := Option.ne_none_iff_exists'.mp h.head
    obtain ⟨bs, hbs, hlen, hget⟩ := ih h.tail
    refine ⟨b :: bs, ?_, by simp [hlen], fun i hi => ?_⟩
    · rw [loads, load_some hb, ok_then, hbs]
      rfl
    · cases i with
      | zero => simp [hb]
      | succ i =>
        rw [← add_ofNat_succ, hget i (by omega)]
        simp

theorem sub_succ_toNat (ha : a ≠ p) : (a - (p + 1)).toNat + 1 = (a - p).toNat := by
  have h1 : a - (p + 1) + 1 = a - p := by
    rw [← BitVec.sub_sub]
    exact BitVec.sub_add_cancel _ _
  have hlt := (a - (p + 1)).isLt
  have hne : (a - (p + 1)).toNat + 1 ≠ 2 ^ 32 := by
    intro he
    apply ha
    have hz : a - p = 0#32 := by
      rw [← h1]
      apply BitVec.eq_of_toNat_eq
      rw [BitVec.toNat_add, show (1 : Word).toNat = 1 from rfl, he]
      rfl
    rw [← BitVec.sub_add_cancel a p, hz, BitVec.zero_add]
  rw [← h1, BitVec.toNat_add, show (1 : Word).toNat = 1 from rfl, Nat.mod_eq_of_lt (by omega)]

theorem stores_mapped (h : Mapped mem p bs.length) (hlen : bs.length < 2 ^ 32) :
    stores mem p bs = .ok fun a => if (a - p).toNat < bs.length then bs[(a - p).toNat]? else mem a := by
  induction bs generalizing p mem with
  | nil => simp [stores]
  | cons b bs ih =>
    rw [List.length_cons] at h hlen
    rw [stores, store_some h.head, ok_then, ih (h.tail.update p b) (by omega)]
    refine congrArg Except.ok (funext fun a => ?_)
    by_cases hap : a = p
    · have hwrap : (p - (p + 1)).toNat = 2 ^ 32 - 1 := by
        rw [← BitVec.sub_sub, BitVec.sub_self]
        rfl
      subst hap
      rw [hwrap, if_neg (by omega), Function.update_self, BitVec.sub_self, if_pos (by simp)]
      rfl
    · rw [← sub_succ_toNat hap, Function.update_of_ne hap, List.length_cons, List.getElem?_cons_succ]
      simp only [Nat.add_lt_add_iff_right]

end

end Jos.Access
