import Jos.Kbd
import Mathlib.Data.Set.Insert
import Mathlib.Data.List.Infix

/-!
# The modifiers of the keyboard

`shift` has one bit for each modifier, and two keys set it. It stands for "one of them
is held" until one of two held keys is released, and for nothing from then on.
-/

namespace Jos.Kbd

/-! ## Keys and their codes -/

/-- A key by its make code. The release code of `0x60` would be the escape. -/
structure Key where
  ext : Bool
  code : Byte
  code_lt : code < 0x80
  code_ne : code ≠ 0x60

inductive Code where
  | make (k : Key)
  | brk (k : Key)

def Key.escape (k : Key) : List Byte := if k.ext then [0xE0] else []

def Code.bytes : Code → List Byte
  | .make k => k.escape ++ [k.code]
  | .brk k => k.escape ++ [k.code ||| 0x80]

inductive Modifier where
  | shift
  | ctl
  | alt
  deriving DecidableEq

def Modifier.bit : Modifier → Word
  | .shift => SHIFT
  | .ctl => CTL
  | .alt => ALT

def Key.modifier (k : Key) : Option Modifier :=
  if k.code = 0x1D then some .ctl
  else if k.code = 0x38 then some .alt
  else if k.ext = false ∧ (k.code = 0x2A ∨ k.code = 0x36) then some .shift
  else none

def held (cs : List Code) : Set Key := cs.foldl (fun H c => match c with | .make k => insert k H | .brk k => H \ {k}) ∅

def feed (bs : List Byte) (shift : Word) : Word := bs.foldl (fun shift b => (kbdProcData kbsDib b shift).shift) shift

def shiftAfter (cs : List Code) : Word := feed (cs.flatMap Code.bytes) 0

/-! ## One code -/

def Key.index (k : Key) : Byte := if k.ext then k.code ||| 0x80 else k.code

theorem code_facts : ∀ b : Byte, b < 0x80 → b ≠ 0x60 →
    b ≠ 0xE0 ∧ b &&& 0x80 = 0 ∧ b ||| 0x80 ≠ 0xE0 ∧ (b ||| 0x80) &&& 0x80 ≠ 0 ∧ (b ||| 0x80) &&& 0x7F = b := by decide

theorem table_facts : ∀ b : Byte, b < 0x80 →
    (shiftcode b = if b = 0x1D then CTL else if b = 0x38 then ALT else if b = 0x2A ∨ b = 0x36 then SHIFT else 0) ∧
      shiftcode (b ||| 0x80) = if b = 0x1D then CTL else if b = 0x38 then ALT else 0 := by decide

theorem shiftcode_index (k : Key) : shiftcode k.index = k.modifier.elim 0 Modifier.bit := by
  obtain ⟨h, h'⟩ := table_facts k.code k.code_lt
  unfold Key.index Key.modifier
  cases k.ext with
  | false =>
    rw [if_neg Bool.false_ne_true, h]
    split
    · rfl
    split
    · rfl
    by_cases hs : k.code = 0x2A ∨ k.code = 0x36
    · rw [if_pos hs, if_pos ⟨rfl, hs⟩]
      rfl
    · rw [if_neg hs, if_neg (fun h => hs h.2)]
      rfl
  | true =>
    rw [if_pos rfl, h']
    split
    · rfl
    split
    · rfl
    · rw [if_neg (fun h => absurd h.1 (by decide))]
      rfl

theorem or_and_not (s x e : Word) : (s ||| e) &&& ~~~(x ||| e) = s &&& ~~~(x ||| e) := by
  ext i hi
  simp only [BitVec.getElem_and, BitVec.getElem_or, BitVec.getElem_not]
  cases s[i] <;> cases x[i] <;> cases e[i] <;> rfl

theorem or_and_not_self {s e : Word} (h : s &&& e = 0) : (s ||| e) &&& ~~~e = s := by
  ext i hi
  have hi := congrArg (·[i]) h
  simp only [BitVec.getElem_and] at hi
  simp only [BitVec.getElem_and, BitVec.getElem_or, BitVec.getElem_not]
  revert hi
  cases s[i] <;> cases e[i] <;> simp

theorem or_esc_ne (s : Word) : (s ||| E0ESC) &&& E0ESC ≠ 0 := by
  intro h
  have h6 := congrArg (·.getLsbD 6) h
  simp only [BitVec.getLsbD_and, BitVec.getLsbD_or] at h6
  rw [show E0ESC.getLsbD 6 = true from rfl, Bool.or_true] at h6
  cases h6

theorem proc_dib (b : Byte) (s : Word) : (kbdProcData kbsDib b s).shift =
    if b = 0xE0 then s ||| E0ESC
    else if b &&& 0x80 ≠ 0 then
      s &&& ~~~(shiftcode (if s &&& E0ESC ≠ 0 then b else b &&& 0x7F) ||| E0ESC)
    else if s &&& E0ESC ≠ 0 then ((s &&& ~~~E0ESC) ||| shiftcode (b ||| 0x80)) ^^^ togglecode (b ||| 0x80)
    else (s ||| shiftcode b) ^^^ togglecode b := by
  rw [kbdProcData, if_neg (by decide), if_neg (by decide)]
  split
  · rfl
  split
  · rfl
  split <;> rfl

section
variable {s : Word} (hs : s &&& E0ESC = 0)
include hs

theorem feed_make (k : Key) : feed (Code.make k).bytes s = (s ||| shiftcode k.index) ^^^ togglecode k.index := by
  obtain ⟨h0, h80, _⟩ := code_facts k.code k.code_lt k.code_ne
  cases he : k.ext with
  | false =>
    simp only [Code.bytes, Key.escape, Key.index, feed, he, Bool.false_eq_true, if_false, List.nil_append, List.foldl_cons,
      List.foldl_nil]
    rw [proc_dib, if_neg h0, if_neg (not_not.mpr h80), if_neg (not_not.mpr hs)]
  | true =>
    simp only [Code.bytes, Key.escape, Key.index, feed, he, if_true, List.cons_append, List.nil_append, List.foldl_cons,
      List.foldl_nil]
    rw [proc_dib 0xE0, if_pos rfl, proc_dib, if_neg h0, if_neg (not_not.mpr h80), if_pos (or_esc_ne s), or_and_not_self hs]

theorem feed_brk (k : Key) : feed (Code.brk k).bytes s = s &&& ~~~(shiftcode k.index ||| E0ESC) := by
  obtain ⟨_, _, h0, h80, h7f⟩ := code_facts k.code k.code_lt k.code_ne
  cases he : k.ext with
  | false =>
    simp only [Code.bytes, Key.escape, Key.index, feed, he, Bool.false_eq_true, if_false, List.nil_append, List.foldl_cons,
      List.foldl_nil]
    rw [proc_dib, if_neg h0, if_pos h80, if_neg (not_not.mpr hs), h7f]
  | true =>
    simp only [Code.bytes, Key.escape, Key.index, feed, he, if_true, List.cons_append, List.nil_append, List.foldl_cons,
      List.foldl_nil]
    rw [proc_dib 0xE0, if_pos rfl, proc_dib, if_neg h0, if_pos h80, if_pos (or_esc_ne s), or_and_not]

end

/-! ## The bits after one code -/

def Modifier.On (m : Modifier) (s : Word) : Prop := s &&& m.bit ≠ 0

theorem and_eq_zero_iff (s : Word) (i : Nat) (hi : i < 32) : s &&& BitVec.twoPow 32 i = 0 ↔ s.getLsbD i = false := by
  rw [BitVec.and_twoPow]
  cases s.getLsbD i with
  | false => simp
  | true =>
    simp only [if_true, Bool.true_eq_false, iff_false]
    intro h
    have := congrArg (·.getLsbD i) h
    simp [hi] at this

def Modifier.pos : Modifier → Nat
  | .shift => 0
  | .ctl => 1
  | .alt => 2

theorem Modifier.bit_eq (m : Modifier) : m.bit = BitVec.twoPow 32 m.pos := by cases m <;> rfl

theorem Modifier.pos_lt (m : Modifier) : m.pos < 3 := by cases m <;> decide

theorem Modifier.on_iff (m : Modifier) (s : Word) : m.On s ↔ s.getLsbD m.pos = true := by
  have hlt := m.pos_lt
  rw [On, bit_eq, Ne, and_eq_zero_iff s m.pos (by omega), Bool.not_eq_false]

theorem esc_iff (s : Word) : s &&& E0ESC = 0 ↔ s.getLsbD 6 = false := and_eq_zero_iff s 6 (by decide)

theorem toggle_bit : ∀ b : Byte, ∀ i ∈ [0, 1, 2, 6], (togglecode b).getLsbD i = false := by decide

theorem toggle_pos (m : Modifier) (b : Byte) : (togglecode b).getLsbD m.pos = false :=
  toggle_bit b _ (by cases m <;> decide)

theorem Modifier.bit_pos (m m' : Modifier) : m'.bit.getLsbD m.pos = true ↔ m' = m := by cases m <;> cases m' <;> decide

theorem shiftcode_bit (k : Key) (m : Modifier) : (shiftcode k.index).getLsbD m.pos = true ↔ k.modifier = some m := by
  rw [shiftcode_index]
  cases k.modifier with
  | none => simp
  | some m' => rw [Option.elim_some, m.bit_pos, Option.some_inj]

theorem shiftcode_esc (k : Key) : (shiftcode k.index).getLsbD 6 = false := by
  rw [shiftcode_index]
  cases k.modifier with
  | none => rfl
  | some m => cases m <;> rfl

section
variable {s : Word} (hs : s &&& E0ESC = 0)
include hs

theorem make_on (k : Key) (m : Modifier) : m.On (feed (Code.make k).bytes s) ↔ m.On s ∨ k.modifier = some m := by
  rw [feed_make hs, m.on_iff, m.on_iff, ← shiftcode_bit, BitVec.getLsbD_xor, BitVec.getLsbD_or, toggle_pos, Bool.xor_false,
    Bool.or_eq_true]

theorem brk_on (k : Key) (m : Modifier) : m.On (feed (Code.brk k).bytes s) ↔ m.On s ∧ k.modifier ≠ some m := by
  have hlt := m.pos_lt
  have h6 : E0ESC.getLsbD m.pos = false := by cases m <;> rfl
  rw [feed_brk hs, m.on_iff, m.on_iff, Ne, ← shiftcode_bit, BitVec.getLsbD_and, BitVec.getLsbD_not, BitVec.getLsbD_or, h6,
    Bool.or_false, Bool.and_eq_true]
  simp [show m.pos < 32 by omega]

theorem feed_esc (c : Code) : feed c.bytes s &&& E0ESC = 0 := by
  cases c with
  | make k =>
    rw [feed_make hs, esc_iff, BitVec.getLsbD_xor, BitVec.getLsbD_or, shiftcode_esc, toggle_bit _ 6 (by decide),
      (esc_iff s).mp hs]
    rfl
  | brk k =>
    rw [feed_brk hs, esc_iff, BitVec.getLsbD_and, (esc_iff s).mp hs, Bool.false_and]

end

/-! ## Every stream of codes -/

def Tracks (H : Set Key) (s : Word) : Prop := s &&& E0ESC = 0 ∧ ∀ m : Modifier, m.On s ↔ ∃ k ∈ H, k.modifier = some m

/-- No other key that is down carries the modifier of `k`. -/
def Alone (H : Set Key) (k : Key) : Prop := ∀ k' ∈ H, k' ≠ k → ∀ m, k.modifier = some m → k'.modifier ≠ some m

theorem feed_append (bs bs' : List Byte) (s : Word) : feed (bs ++ bs') s = feed bs' (feed bs s) := List.foldl_append

theorem shiftAfter_snoc (cs : List Code) (c : Code) : shiftAfter (cs ++ [c]) = feed c.bytes (shiftAfter cs) := by
  rw [shiftAfter, List.flatMap_append, feed_append]
  simp [shiftAfter]

theorem held_make (cs : List Code) (k : Key) : held (cs ++ [.make k]) = insert k (held cs) := by simp [held]

theorem held_brk (cs : List Code) (k : Key) : held (cs ++ [.brk k]) = held cs \ {k} := by simp [held]

section
variable {H : Set Key} {s : Word} (h : Tracks H s)
include h

theorem Tracks.make (k : Key) : Tracks (insert k H) (feed (Code.make k).bytes s) := by
  refine ⟨feed_esc h.1 _, fun m => ?_⟩
  rw [make_on h.1, h.2 m, Set.exists_mem_insert, or_comm]

theorem Tracks.brk_iff (k : Key) : Tracks (H \ {k}) (feed (Code.brk k).bytes s) ↔ Alone H k := by
  constructor
  · intro ht k' hk' hne m hm hm'
    have hon := (ht.2 m).mpr ⟨k', ⟨hk', hne⟩, hm'⟩
    exact ((brk_on h.1 k m).mp hon).2 hm
  · intro ha
    refine ⟨feed_esc h.1 _, fun m => ?_⟩
    rw [brk_on h.1, h.2 m]
    constructor
    · rintro ⟨⟨k', hk', hm'⟩, hm⟩
      exact ⟨k', ⟨hk', fun he => hm (he ▸ hm')⟩, hm'⟩
    · rintro ⟨k', ⟨hk', hne⟩, hm'⟩
      exact ⟨⟨k', hk', hm'⟩, fun hm => ha k' hk' hne m hm hm'⟩

end

theorem tracks_nil : Tracks (held []) (shiftAfter []) := by
  refine ⟨rfl, fun m => ?_⟩
  rw [m.on_iff]
  simp [held, shiftAfter, feed]

/-- **`kbd_proc_data`**: its bits stand for the modifiers that are held after each code of a stream just when no key
is released while another one with its modifier is held. -/
theorem modifiers_iff (cs : List Code) : (∀ pre, pre <+: cs → Tracks (held pre) (shiftAfter pre)) ↔
    ∀ pre k, pre ++ [.brk k] <+: cs → Alone (held pre) k := by
  constructor
  · intro h pre k hp
    have ht := h _ hp
    rw [held_brk, shiftAfter_snoc] at ht
    exact ((h pre ((List.prefix_append _ _).trans hp)).brk_iff k).mp ht
  · intro h pre
    induction pre using List.reverseRecOn with
    | nil => exact fun _ => tracks_nil
    | append_singleton pre c ih =>
      intro hp
      have ht := ih ((List.prefix_append _ _).trans hp)
      rw [shiftAfter_snoc]
      cases c with
      | make k =>
        rw [held_make]
        exact ht.make k
      | brk k =>
        rw [held_brk]
        exact (ht.brk_iff k).mpr (h pre k hp)

/-! ## Two keys of one modifier -/

def Follows (cs : List Code) : Prop := ∀ pre k, pre ++ [.brk k] <+: cs → k ∈ held pre

def leftShift : Key := ⟨false, 0x2A, by decide, by decide⟩
def rightShift : Key := ⟨false, 0x36, by decide, by decide⟩

/-- With both shift keys down, one is released. -/
theorem shift_lost : ¬ ∀ cs, Follows cs → ∀ pre, pre <+: cs → Tracks (held pre) (shiftAfter pre) := by
  intro h
  have hf : Follows [.make leftShift, .make rightShift, .brk leftShift] := by
    intro pre k hp
    rcases pre with _ | ⟨c₁, _ | ⟨c₂, _ | ⟨c₃, l⟩⟩⟩ <;> simp at hp
    obtain ⟨rfl, rfl, rfl⟩ := hp
    simp [held]
  have ht := (h _ hf _ (List.prefix_refl _)).2 .shift
  have hne : rightShift ≠ leftShift := by
    intro he
    cases congrArg Key.code he
  have hr : ∃ k ∈ held [.make leftShift, .make rightShift, .brk leftShift], k.modifier = some .shift :=
    ⟨rightShift, by simp [held, hne], rfl⟩
  have hz : shiftAfter [.make leftShift, .make rightShift, .brk leftShift] &&& Modifier.shift.bit = 0 := by decide
  exact ht.mpr hr hz

end Jos.Kbd
