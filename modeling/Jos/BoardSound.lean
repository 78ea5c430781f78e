import Jos.Polls
import Jos.KbdSound

/-!
# The keyboard as its user sees it

`Board` is a keyboard by what is held down and whether the capitals are locked, and
`Board.run` what it types. `kbd_proc_data` types the same as long as its bits stand for
what is held: while no key is released when another one with its modifier is down.
-/

namespace Jos.Kbd

open Classical

def capsLock : Byte := 0x3A
def delete : Byte := 0xD3

def swapLetter (c : Byte) : Byte :=
  if chr 'a' ≤ c ∧ c ≤ chr 'z' then c - 0x20 else if chr 'A' ≤ c ∧ c ≤ chr 'Z' then c + 0x20 else c

structure Board where
  down : Set Key
  caps : Bool

namespace Board

variable (B : Board)

def press (k : Key) : Board := ⟨insert k B.down, B.caps ^^ (k.index == capsLock)⟩

def release (k : Key) : Board := ⟨B.down \ {k}, B.caps⟩

def Has (m : Modifier) : Prop := ∃ k ∈ B.down, k.modifier = some m

noncomputable def map : Byte → Byte := if B.Has .ctl then ctlmap else if B.Has .shift then shiftmap else normalmap

noncomputable def char (k : Key) : Byte := if B.caps then swapLetter (B.map k.index) else B.map k.index

def Resets (k : Key) : Prop := B.Has .ctl ∧ B.Has .alt ∧ k.index = delete

noncomputable def run : Board → List Code → Option (List Byte × Board)
  | B, [] => some ([], B)
  | B, .make k :: cs =>
    if (B.press k).Resets k then none
    else (run (B.press k) cs).map fun r => (Cons.stored [(B.press k).char k] ++ r.1, r.2)
  | B, .brk k :: cs => run (B.release k) cs

/-- No key is released while another one with its modifier is down. -/
def Calm : Board → List Code → Prop
  | _, [] => True
  | B, .make k :: cs => Calm (B.press k) cs
  | B, .brk k :: cs => Alone B.down k ∧ Calm (B.release k) cs

structure Reflects (B : Board) (s : Word) : Prop where
  tracks : Tracks B.down s
  caps : s.getLsbD 3 = B.caps

end Board

/-! ## The tables -/

theorem caps_facts : ∀ b : Byte, (shiftcode b).getLsbD 3 = false ∧ (togglecode b).getLsbD 3 = (b == capsLock) := by
  decide +kernel

theorem swap_facts : ∀ b : Byte, (swapCase (b.setWidth 32)).setWidth 8 = swapLetter b := by decide +kernel

theorem swap_del : ∀ b : Byte, swapCase (b.setWidth 32) = keyDel.setWidth 32 ↔ b = keyDel := by decide +kernel

theorem ctlmap_del : ∀ b : Byte, ctlmap b = keyDel ↔ b = delete := by decide +kernel

/-! ## One code -/

theorem burst_cons_zero {b : Byte} {s s' : Word} (h : kbdProcData kbsDib b s = ⟨0, s', false⟩) (bs : List Byte) :
    burst (b :: bs) s = (burst bs s').map fun r => (0 :: r.1, r.2) := by
  rw [burst, h]
  dsimp only
  rw [if_neg Bool.false_ne_true]
  cases burst bs s' <;> rfl

theorem proc_escape (s : Word) : kbdProcData kbsDib 0xE0 s = ⟨0, s ||| E0ESC, false⟩ := rfl

def Key.nothing (k : Key) : List Byte := k.escape.map fun _ => 0

theorem stored_nothing (k : Key) (l : List Byte) : Cons.stored (k.nothing ++ l) = Cons.stored l := by
  unfold Key.nothing Key.escape
  cases k.ext <;> rfl

section
variable {s : Word} (hs : s &&& E0ESC = 0)
include hs

theorem proc_make (k : Key) : kbdProcData kbsDib k.code (if k.ext then s ||| E0ESC else s) = pressed k.index s := by
  obtain ⟨h0, h80, _⟩ := code_facts k.code k.code_lt k.code_ne
  rw [kbdProcData, if_neg (by decide), if_neg (by decide), if_neg h0, if_neg (not_not.mpr h80), Key.index]
  cases k.ext with
  | false => rw [if_neg Bool.false_ne_true, if_neg (not_not.mpr hs), if_neg Bool.false_ne_true]
  | true => rw [if_pos rfl, if_pos (or_esc_ne s), if_pos rfl, or_and_not_self hs]

theorem proc_brk (k : Key) : kbdProcData kbsDib (k.code ||| 0x80) (if k.ext then s ||| E0ESC else s) =
    ⟨0, feed (Code.brk k).bytes s, false⟩ := by
  obtain ⟨_, _, h0, h80, h7f⟩ := code_facts k.code k.code_lt k.code_ne
  rw [feed_brk hs, kbdProcData, if_neg (by decide), if_neg (by decide), if_neg h0, if_pos h80, Key.index]
  cases k.ext with
  | false => rw [if_neg Bool.false_ne_true, if_neg (not_not.mpr hs), if_neg Bool.false_ne_true, h7f]
  | true =>
    rw [if_pos rfl, if_pos (or_esc_ne s), if_pos rfl]
    exact congrArg (Proc.mk 0 · false) (or_and_not s _ E0ESC)

end

theorem burst_escape (k : Key) (b : Byte) (bs : List Byte) (s : Word) : burst (k.escape ++ b :: bs) s =
    (burst (b :: bs) (if k.ext then s ||| E0ESC else s)).map fun r => (k.nothing ++ r.1, r.2) := by
  unfold Key.nothing Key.escape
  cases k.ext with
  | false =>
    rw [if_neg Bool.false_ne_true, if_neg Bool.false_ne_true, List.nil_append, List.map_nil]
    cases burst (b :: bs) s <;> rfl
  | true =>
    rw [if_pos rfl, if_pos rfl, List.singleton_append, burst_cons_zero (proc_escape s)]
    rfl

section
variable {s : Word} (hs : s &&& E0ESC = 0)
include hs

theorem burst_make (k : Key) (bs : List Byte) : burst ((Code.make k).bytes ++ bs) s =
    if (pressed k.index s).reboot then none
    else (burst bs (pressed k.index s).shift).map fun r => (k.nothing ++ (pressed k.index s).ret.setWidth 8 :: r.1, r.2) := by
  rw [Code.bytes, List.append_assoc, List.singleton_append, burst_escape, burst, proc_make hs]
  dsimp only
  split
  · rfl
  · cases burst bs (pressed k.index s).shift <;> rfl

theorem burst_brk (k : Key) (bs : List Byte) : burst ((Code.brk k).bytes ++ bs) s =
    (burst bs (feed (Code.brk k).bytes s)).map fun r => (k.nothing ++ 0 :: r.1, r.2) := by
  rw [Code.bytes, List.append_assoc, List.singleton_append, burst_escape, burst_cons_zero (proc_brk hs k), Option.map_map]
  rfl

theorem pressed_shift (k : Key) : (pressed k.index s).shift = feed (Code.make k).bytes s := by
  rw [feed_make hs]
  rfl

end

/-! ## What a key types -/

theorem low_facts : ∀ v : BitVec 2, (v.setWidth 32 = (0 : Word) ↔ v.getLsbD 1 = false ∧ v.getLsbD 0 = false) ∧
    (v.setWidth 32 = (1 : Word) ↔ v.getLsbD 1 = false ∧ v.getLsbD 0 = true) := by decide

theorem and_low (s : Word) : s &&& (CTL ||| SHIFT) = (s.setWidth 2).setWidth 32 := by
  refine BitVec.eq_of_toNat_eq ?_
  rw [BitVec.toNat_and, BitVec.toNat_setWidth, BitVec.toNat_setWidth, show (CTL ||| SHIFT).toNat = 2 ^ 2 - 1 from rfl,
    Nat.and_two_pow_sub_one_eq_mod]
  omega

theorem charcode_bits (v : BitVec 2) : charcode (v.setWidth 32) =
    if v.getLsbD 1 = true then ctlmap else if v.getLsbD 0 = true then shiftmap else normalmap := by
  obtain ⟨hz, ho⟩ := low_facts v
  rw [charcode]
  by_cases hctl : v.getLsbD 1 = true
  · rw [if_pos hctl, if_neg, if_neg]
    · rw [ho, hctl]
      simp
    · rw [hz, hctl]
      simp
  · have hoff := Bool.not_eq_true _ ▸ hctl
    rw [if_neg hctl]
    by_cases hsh : v.getLsbD 0 = true
    · rw [if_pos hsh, if_neg, if_pos (ho.mpr ⟨hoff, hsh⟩)]
      rw [hz, hsh]
      simp
    · rw [if_neg hsh, if_pos (hz.mpr ⟨hoff, Bool.not_eq_true _ ▸ hsh⟩)]

theorem charcode_low (s : Word) : charcode (s &&& (CTL ||| SHIFT)) =
    if s.getLsbD 1 = true then ctlmap else if s.getLsbD 0 = true then shiftmap else normalmap := by
  rw [and_low, charcode_bits, BitVec.getLsbD_setWidth, BitVec.getLsbD_setWidth]
  rfl

namespace Board

section
variable {B : Board} {s : Word} (h : B.Reflects s)
include h

theorem Reflects.has_iff (m : Modifier) : B.Has m ↔ s.getLsbD m.pos = true := by
  rw [← m.on_iff, h.tracks.2 m]
  rfl

theorem Reflects.map_eq : charcode (s &&& (CTL ||| SHIFT)) = B.map := by
  rw [charcode_low, map]
  exact if_congr (h.has_iff .ctl).symm rfl (if_congr (h.has_iff .shift).symm rfl rfl)

theorem Reflects.caps_iff : s &&& CAPSLOCK ≠ 0 ↔ B.caps = true := by
  rw [← h.caps, Ne, show CAPSLOCK = BitVec.twoPow 32 3 from rfl, and_eq_zero_iff s 3 (by decide), Bool.not_eq_false]

theorem Reflects.char_eq (k : Key) :
    (if s &&& CAPSLOCK ≠ 0 then swapCase ((charcode (s &&& (CTL ||| SHIFT)) k.index).setWidth 32)
      else (charcode (s &&& (CTL ||| SHIFT)) k.index).setWidth 32).setWidth 8 = B.char k := by
  rw [h.map_eq, char]
  by_cases hc : B.caps = true
  · rw [if_pos (h.caps_iff.mpr hc), if_pos hc, swap_facts]
  · rw [if_neg (mt h.caps_iff.mp hc), if_neg hc, BitVec.setWidth_setWidth_of_le _ (by decide), BitVec.setWidth_eq]

theorem Reflects.resets_iff (k : Key) :
    ~~~s &&& (CTL ||| ALT) = 0 ∧ (if s &&& CAPSLOCK ≠ 0 then swapCase ((charcode (s &&& (CTL ||| SHIFT)) k.index).setWidth 32)
      else (charcode (s &&& (CTL ||| SHIFT)) k.index).setWidth 32) = keyDel.setWidth 32 ↔ B.Resets k := by
  have hbits : ~~~s &&& (CTL ||| ALT) = 0 ↔ B.Has .ctl ∧ B.Has .alt := by
    rw [h.has_iff, h.has_iff, show (CTL ||| ALT) = BitVec.twoPow 32 1 ||| BitVec.twoPow 32 2 from rfl, BitVec.and_or_distrib_left]
    refine BitVec.or_eq_zero_iff.trans (and_congr ((and_eq_zero_iff _ 1 (by decide)).trans ?_)
      ((and_eq_zero_iff _ 2 (by decide)).trans ?_))
    · simp [Modifier.pos]
    · simp [Modifier.pos]
  rw [hbits, h.map_eq, Resets, and_assoc]
  refine and_congr_right fun hctl => and_congr_right fun _ => ?_
  rw [map, if_pos hctl, ← ctlmap_del]
  split
  · exact swap_del _
  · constructor
    · intro he
      simpa using congrArg (BitVec.setWidth 8) he
    · exact congrArg _

theorem Reflects.make (k : Key) : (B.press k).Reflects (pressed k.index s).shift ∧
    (pressed k.index s).ret.setWidth 8 = (B.press k).char k ∧ ((pressed k.index s).reboot = true ↔ (B.press k).Resets k) := by
  have hp : (B.press k).Reflects (pressed k.index s).shift := by
    constructor
    · rw [pressed_shift h.tracks.1]
      exact h.tracks.make k
    · obtain ⟨hs, ht⟩ := caps_facts k.index
      change ((s ||| shiftcode k.index) ^^^ togglecode k.index).getLsbD 3 = (B.caps ^^ (k.index == capsLock))
      rw [BitVec.getLsbD_xor, BitVec.getLsbD_or, hs, ht, Bool.or_false, h.caps]
  refine ⟨hp, hp.char_eq k, ?_⟩
  rw [← hp.resets_iff k]
  exact decide_eq_true_iff

theorem Reflects.brk {k : Key} (ha : Alone B.down k) : (B.release k).Reflects (feed (Code.brk k).bytes s) where
  tracks := (h.tracks.brk_iff k).mpr ha
  caps := by
    rw [feed_brk h.tracks.1, BitVec.getLsbD_and, BitVec.getLsbD_not, BitVec.getLsbD_or, (caps_facts k.index).1, h.caps]
    exact Bool.and_true _

end

/-- **`kbd_proc_data`**: it types what the board types, and resets the machine just when the board does. -/
theorem burst_run {B : Board} {s : Word} (h : B.Reflects s) {cs : List Code} (hc : B.Calm cs) :
    Option.Rel (fun r r' => Cons.stored r.1 = r'.1 ∧ r'.2.Reflects r.2) (burst (cs.flatMap Code.bytes) s) (B.run cs) := by
  induction cs generalizing B s with
  | nil => exact .some ⟨rfl, h⟩
  | cons c cs ih =>
    rw [List.flatMap_cons]
    cases c with
    | make k =>
      obtain ⟨hp, hchar, hreset⟩ := h.make k
      rw [burst_make h.tracks.1, run]
      by_cases hr : (B.press k).Resets k
      · rw [if_pos (hreset.mpr hr), if_pos hr]
        exact .none
      · rw [if_neg (mt hreset.mp hr), if_neg hr]
        have ih := ih hp hc
        generalize burst (cs.flatMap Code.bytes) (pressed k.index s).shift = r at ih ⊢
        generalize (B.press k).run cs = r' at ih ⊢
        cases ih with
        | none => exact .none
        | some hr =>
          refine .some ⟨?_, hr.2⟩
          rw [stored_nothing, hchar]
          dsimp only
          rw [← List.singleton_append, Cons.stored, List.filter_append, ← hr.1]
          rfl
    | brk k =>
      obtain ⟨ha, hc⟩ := hc
      have ih := ih (h.brk ha) hc
      rw [burst_brk h.tracks.1, run]
      generalize burst (cs.flatMap Code.bytes) (feed (Code.brk k).bytes s) = r at ih ⊢
      generalize (B.release k).run cs = r' at ih ⊢
      cases ih with
      | none => exact .none
      | some hr =>
        refine .some ⟨?_, hr.2⟩
        rw [stored_nothing, Cons.stored_zero, hr.1]

def init : Board := ⟨∅, false⟩

theorem init_reflects : init.Reflects 0 := ⟨tracks_nil, rfl⟩

end Board

/-! ## Typing a text -/

/-- A key that types a character, pressed and released, with the shift key around it or without. -/
structure Stroke where
  shifted : Bool
  key : Key
  plain : key.modifier = none
  types : (if shifted then shiftmap else normalmap) key.index ≠ 0

def Stroke.codes (t : Stroke) : List Code :=
  if t.shifted then [.make leftShift, .make t.key, .brk t.key, .brk leftShift] else [.make t.key, .brk t.key]

def Stroke.char (caps : Bool) (t : Stroke) : Byte :=
  let c := (if t.shifted then shiftmap else normalmap) t.key.index
  if caps then swapLetter c else c

theorem swap_ne_zero : ∀ b : Byte, b ≠ 0 → swapLetter b ≠ 0 := by decide +kernel

theorem caps_types_nothing : normalmap capsLock = 0 ∧ shiftmap capsLock = 0 := by decide

namespace Stroke

variable (t : Stroke)

theorem char_ne_zero (caps : Bool) : t.char caps ≠ 0 := by
  cases caps with
  | false => exact t.types
  | true => exact swap_ne_zero _ t.types

theorem index_ne : t.key.index ≠ capsLock := by
  intro h
  have ht := t.types
  rw [h] at ht
  cases hs : t.shifted with
  | false => exact ht (by rw [hs]; exact caps_types_nothing.1)
  | true => exact ht (by rw [hs]; exact caps_types_nothing.2)

theorem key_ne : t.key ≠ leftShift := by
  intro h
  have hp := t.plain
  rw [h] at hp
  cases hp

end Stroke

namespace Board

variable {B : Board} {k : Key}

theorem has_press (m : Modifier) : (B.press k).Has m ↔ k.modifier = some m ∨ B.Has m := Set.exists_mem_insert

theorem not_has (caps : Bool) (m : Modifier) : ¬ (Board.mk ∅ caps).Has m := by
  rintro ⟨k, hk, _⟩
  exact hk

theorem release_press (hk : k ∉ B.down) (hc : k.index ≠ capsLock) : (B.press k).release k = B := by
  have hd : insert k B.down \ {k} = B.down := by rw [Set.insert_sdiff_of_mem _ (Set.mem_singleton k), Set.sdiff_singleton_eq_self hk]
  rw [release, press, beq_eq_false_iff_ne.mpr hc, Bool.xor_false, hd]

theorem alone_of_none (H : Set Key) (h : k.modifier = none) : Alone H k := by
  intro _ _ _ m hm
  rw [h] at hm
  cases hm

theorem alone_insert (k : Key) : Alone (insert k ∅) k := fun _ hk' hne => absurd (hk'.resolve_right (Set.notMem_empty _)) hne

theorem run_tap {t : Stroke} (hctl : ¬ B.Has .ctl) (hsh : B.Has .shift ↔ t.shifted = true) (hk : t.key ∉ B.down)
    (cs : List Code) : B.run (.make t.key :: .brk t.key :: cs) = (B.run cs).map fun r => (t.char B.caps :: r.1, r.2) := by
  have hnot : ¬ (B.press t.key).Has .ctl := by
    rw [has_press, t.plain]
    simpa using hctl
  have hmap : (B.press t.key).map = if t.shifted then shiftmap else normalmap := by
    rw [map, if_neg hnot]
    refine if_congr ?_ rfl rfl
    rw [has_press, t.plain, ← hsh]
    simp
  have hcaps : (B.press t.key).caps = B.caps := by
    rw [press, beq_eq_false_iff_ne.mpr t.index_ne, Bool.xor_false]
  have hchar : (B.press t.key).char t.key = t.char B.caps := by
    rw [char, hmap, hcaps]
    rfl
  rw [run, if_neg (fun h => hnot h.1), run, release_press hk t.index_ne, hchar, Cons.stored_cons (t.char_ne_zero _)]
  rfl

theorem shift_not_ctl (caps : Bool) : ¬ ((Board.mk ∅ caps).press leftShift).Has .ctl := by
  rw [has_press]
  rintro (h | h)
  · cases h
  · exact not_has _ _ h

theorem shift_fresh (t : Stroke) (caps : Bool) : t.key ∉ ((Board.mk ∅ caps).press leftShift).down := by
  rintro (h | h)
  · exact t.key_ne h
  · exact h

theorem shift_release (caps : Bool) : ((Board.mk ∅ caps).press leftShift).release leftShift = ⟨∅, caps⟩ :=
  release_press (Set.notMem_empty _) (by decide)

theorem run_shift (caps : Bool) (cs : List Code) :
    (Board.mk ∅ caps).run (.make leftShift :: cs) = ((Board.mk ∅ caps).press leftShift).run cs := by
  have hmap : ((Board.mk ∅ caps).press leftShift).map = shiftmap := by
    rw [map, if_neg (shift_not_ctl caps), if_pos ((has_press _).mpr (.inl rfl))]
  have hchar : ((Board.mk ∅ caps).press leftShift).char leftShift = 0 := by
    rw [char, hmap]
    split
    · rfl
    · rfl
  rw [run, if_neg (fun h => shift_not_ctl caps h.1), hchar]
  exact congrFun Option.map_id _

theorem run_stroke (t : Stroke) (caps : Bool) (cs : List Code) :
    (Board.mk ∅ caps).run (t.codes ++ cs) = ((Board.mk ∅ caps).run cs).map fun r => (t.char caps :: r.1, r.2) := by
  cases hs : t.shifted with
  | false =>
    rw [Stroke.codes, hs, if_neg Bool.false_ne_true]
    exact run_tap (not_has _ _) (by rw [hs]; simpa using not_has caps .shift) (Set.notMem_empty _) cs
  | true =>
    have hsh : ((Board.mk ∅ caps).press leftShift).Has .shift ↔ t.shifted = true := by
      rw [hs, has_press]
      exact iff_of_true (.inl rfl) rfl
    have hbrk : ((Board.mk ∅ caps).press leftShift).run (.brk leftShift :: cs) = (Board.mk ∅ caps).run cs := by
      rw [run, shift_release]
    have htap := run_tap (shift_not_ctl caps) hsh (shift_fresh t caps) (.brk leftShift :: cs)
    rw [hbrk] at htap
    rw [Stroke.codes, if_pos hs]
    refine (run_shift caps _).trans (htap.trans ?_)
    rw [press, show (leftShift.index == capsLock) = false from rfl, Bool.xor_false]

theorem calm_stroke (t : Stroke) (caps : Bool) {cs : List Code} (h : (Board.mk ∅ caps).Calm cs) :
    (Board.mk ∅ caps).Calm (t.codes ++ cs) := by
  cases hs : t.shifted with
  | false =>
    rw [Stroke.codes, hs, if_neg Bool.false_ne_true]
    refine ⟨alone_of_none _ t.plain, ?_⟩
    rwa [release_press (Set.notMem_empty _) t.index_ne]
  | true =>
    rw [Stroke.codes, if_pos hs]
    refine ⟨alone_of_none _ t.plain, ?_⟩
    rw [release_press (shift_fresh t caps) t.index_ne]
    refine ⟨alone_insert _, ?_⟩
    rwa [shift_release]

theorem run_strokes (ts : List Stroke) (caps : Bool) :
    (Board.mk ∅ caps).run (ts.flatMap Stroke.codes) = some (ts.map (·.char caps), ⟨∅, caps⟩) := by
  induction ts with
  | nil => rfl
  | cons t ts ih =>
    rw [List.flatMap_cons, run_stroke, ih]
    rfl

theorem calm_strokes (ts : List Stroke) (caps : Bool) : (Board.mk ∅ caps).Calm (ts.flatMap Stroke.codes) := by
  induction ts with
  | nil => exact True.intro
  | cons t ts ih => exact calm_stroke t caps ih

/-- **`kbd_proc_data`** from power-on: what comes of the codes is what the board types. -/
theorem burst_types {cs : List Code} (hc : init.Calm cs) :
    (burst (cs.flatMap Code.bytes) 0).map (fun r => Cons.stored r.1) = (init.run cs).map Prod.fst := by
  have h := burst_run init_reflects hc
  generalize burst (cs.flatMap Code.bytes) 0 = r at h ⊢
  generalize init.run cs = r' at h ⊢
  cases h with
  | none => rfl
  | some h => exact congrArg some h.1

def capitalA : Stroke := ⟨true, ⟨false, 0x1E, by decide, by decide⟩, rfl, by decide⟩

theorem burst_types_small :
    (burst (([capitalA].flatMap Stroke.codes).flatMap Code.bytes) 0).map (fun r => Cons.stored r.1) = some [chr 'A'] := by
  rw [burst_types (calm_strokes [capitalA] false)]
  exact congrArg (Option.map Prod.fst) (run_strokes [capitalA] false)

end Board

def Typable (c : Byte) : Prop := c = 0x08 ∨ c = chr '\t' ∨ c = chr '\n' ∨ c = 0x1B ∨ 0x20 ≤ c ∧ c ≤ 0x7E

instance (c : Byte) : Decidable (Typable c) := inferInstanceAs (Decidable (_ ∨ _))

def plainCodes : List Byte := ((List.range 0x80).map (BitVec.ofNat 8)).filter (· ∉ [0x60, 0x1D, 0x38, 0x2A, 0x36])

theorem typable_codes : ∀ c, Typable c → c ≠ 0 ∧ (c ∈ plainCodes.map normalmap ∨ c ∈ plainCodes.map shiftmap) := by decide +kernel

theorem plainCodes_facts {b : Byte} (hb : b ∈ plainCodes) :
    b < 0x80 ∧ b ≠ 0x60 ∧ b ≠ 0x1D ∧ b ≠ 0x38 ∧ b ≠ 0x2A ∧ b ≠ 0x36 := by
  obtain ⟨hb, hne⟩ := List.mem_filter.mp hb
  obtain ⟨i, hi, rfl⟩ := List.mem_map.mp hb
  have hlt := List.mem_range.mp hi
  simp only [decide_eq_true_eq, List.mem_cons, List.not_mem_nil, or_false, not_or] at hne
  refine ⟨?_, hne⟩
  rw [BitVec.lt_def, BitVec.toNat_ofNat, Nat.mod_eq_of_lt (by omega)]
  exact hlt

theorem modifier_plain {k : Key} (hk : k.code ∈ plainCodes) : k.modifier = none := by
  obtain ⟨_, _, h1d, h38, h2a, h36⟩ := plainCodes_facts hk
  rw [Key.modifier, if_neg h1d, if_neg h38, if_neg]
  rintro ⟨_, h | h⟩
  · exact h2a h
  · exact h36 h

theorem Typable.stroke {c : Byte} (h : Typable c) : ∃ t : Stroke, t.char false = c := by
  obtain ⟨hz, h | h⟩ := typable_codes c h
  · obtain ⟨b, hb, rfl⟩ := List.mem_map.mp h
    obtain ⟨hlt, hne, _⟩ := plainCodes_facts hb
    exact ⟨⟨false, ⟨false, b, hlt, hne⟩, modifier_plain hb, hz⟩, rfl⟩
  · obtain ⟨b, hb, rfl⟩ := List.mem_map.mp h
    obtain ⟨hlt, hne, _⟩ := plainCodes_facts hb
    exact ⟨⟨true, ⟨false, b, hlt, hne⟩, modifier_plain hb, hz⟩, rfl⟩

theorem strokes_of_text {text : List Byte} (h : ∀ c ∈ text, Typable c) : ∃ ts : List Stroke, ts.map (·.char false) = text := by
  induction text with
  | nil => exact ⟨[], rfl⟩
  | cons c text ih =>
    obtain ⟨hc, htext⟩ := List.forall_mem_cons.mp h
    obtain ⟨t, rfl⟩ := hc.stroke
    obtain ⟨ts, rfl⟩ := ih htext
    exact ⟨t :: ts, rfl⟩

theorem codes_of_text {text : List Byte} (h : ∀ c ∈ text, Typable c) : ∃ cs B, Board.init.Calm cs ∧
    Board.init.run cs = some (text, B) := by
  obtain ⟨ts, rfl⟩ := strokes_of_text h
  exact ⟨ts.flatMap Stroke.codes, _, Board.calm_strokes ts false, Board.run_strokes ts false⟩

end Jos.Kbd
