import Jos.Console
import Mathlib.Data.List.Basic

/-!
# What the serial and the parallel port are sent

`cga_putc` prints a tab as five blanks through `cons_putc`, which sends them to
all devices. The other characters reach each port once.
-/

namespace Jos

namespace Console

def sent (port : BitVec 16) (s : Console) : List Byte := (s.out.filter (·.1 = port)).map (·.2)

def low (c : Word) : Byte := c.setWidth 8

def TextPort (port : BitVec 16) : Prop := port = comTx ∨ port = lptData

/-! ## The devices -/

theorem sent_outb_same (port : BitVec 16) (c : Word) (s : Console) : sent port (outb port c s) = sent port s ++ [low c] := by
  rw [sent, outb, List.filter_append, List.map_append, List.filter_cons_of_pos (by simp)]
  rfl

theorem sent_outb_ne {port port' : BitVec 16} (h : port' ≠ port) (c : Word) (s : Console) :
    sent port (outb port' c s) = sent port s := by
  rw [sent, outb, List.filter_append, List.filter_cons_of_neg (by simpa using h), List.filter_nil, List.append_nil, sent]

theorem waitFor_out (port : BitVec 16) (mask : Byte) (n : Nat) (s : Console) : (waitFor port mask n s).out = s.out := by
  induction n generalizing s with
  | zero => rfl
  | succ n ih =>
    change (if s.dev port s.reads &&& mask ≠ 0 then (inb port s).2 else waitFor port mask n (delay (inb port s).2)).out = _
    split
    · rfl
    · rw [ih]
      rfl

theorem sent_waitFor (p port : BitVec 16) (mask : Byte) (n : Nat) (s : Console) :
    sent p (waitFor port mask n s) = sent p s := by
  rw [sent, waitFor_out, sent]

theorem sent_scroll (p : BitVec 16) (s : Console) : sent p (scroll s) = sent p s := by
  unfold scroll
  split <;> rfl

theorem addr6845_apart {p : BitVec 16} (hp : TextPort p) (s : Console) : s.addr6845 ≠ p ∧ s.addr6845 + 1 ≠ p := by
  unfold addr6845
  rcases hp with rfl | rfl <;> split <;> decide

theorem sent_setCursor {p : BitVec 16} (hp : TextPort p) (s : Console) : sent p (setCursor s) = sent p s := by
  have ha := fun t => (addr6845_apart hp t).1
  have hb := fun t => (addr6845_apart hp t).2
  rw [setCursor, sent_outb_ne (hb _), sent_outb_ne (ha _), sent_outb_ne (hb _), sent_outb_ne (ha _)]

theorem sent_serialPutc (c : Word) (s : Console) :
    sent comTx (serialPutc c s) = sent comTx s ++ [low c] ∧ sent lptData (serialPutc c s) = sent lptData s := by
  rw [serialPutc, sent_outb_same, sent_outb_ne (by decide), sent_waitFor, sent_waitFor]
  exact ⟨rfl, rfl⟩

theorem sent_lptPutc (c : Word) (s : Console) :
    sent comTx (lptPutc c s) = sent comTx s ∧ sent lptData (lptPutc c s) = sent lptData s ++ [low c] := by
  constructor
  · rw [lptPutc, sent_outb_ne (by decide), sent_outb_ne (by decide), sent_outb_ne (by decide), sent_waitFor]
  · rw [lptPutc, sent_outb_ne (by decide), sent_outb_ne (by decide), sent_outb_same, sent_waitFor]

theorem sent_ports {p : BitVec 16} (hp : TextPort p) (c : Word) (s : Console) :
    sent p (lptPutc c (serialPutc c s)) = sent p s ++ [low c] := by
  rcases hp with rfl | rfl
  · rw [(sent_lptPutc c _).1, (sent_serialPutc c s).1]
  · rw [(sent_lptPutc c _).2, (sent_serialPutc c s).2]

/-! ## One character -/

theorem attr_low (c : Word) : (if c &&& ~~~0xFF = 0 then c ||| 0x0700 else c) &&& 0xFF = c &&& 0xFF := by
  split
  · rw [BitVec.and_comm, BitVec.and_or_distrib_left, show (0xFF : Word) &&& 0x0700 = 0#32 by decide, BitVec.or_zero,
      BitVec.and_comm]
  · rfl

theorem and_low (c : Word) : c &&& 0xFF = (low c).setWidth 32 := by
  apply BitVec.eq_of_toNat_eq
  rw [BitVec.toNat_and, low, BitVec.toNat_setWidth, BitVec.toNat_setWidth]
  have h : c.toNat &&& (0xFF : Word).toNat = c.toNat % 2 ^ 8 := Nat.and_two_pow_sub_one_eq_mod c.toNat 8
  rw [h]
  omega

theorem tab_iff (c : Word) : c &&& 0xFF = 0x09 ↔ low c = 0x09 := by
  rw [and_low]
  constructor
  · intro h
    have := congrArg (BitVec.setWidth 8) h
    rwa [BitVec.setWidth_setWidth_of_le _ (by decide), BitVec.setWidth_eq] at this
  · intro h
    rw [h]
    rfl

theorem sent_cgaPutcWith {p : BitVec 16} (hp : TextPort p) (cons : Word → Console → Console) (c : Word) (s : Console) :
    sent p (cgaPutcWith cons c s) =
      if low c = 0x09 then sent p (cons 0x20 (cons 0x20 (cons 0x20 (cons 0x20 (cons 0x20 s))))) else sent p s := by
  unfold cgaPutcWith
  dsimp only
  rw [sent_setCursor hp, sent_scroll, attr_low]
  by_cases ht : low c = 0x09
  · have h := (tab_iff c).mpr ht
    rw [if_pos ht, h, if_neg (by decide), if_neg (by decide), if_neg (by decide), if_pos rfl]
  · rw [if_neg ht]
    split
    · split <;> rfl
    split
    · rfl
    split
    · rfl
    rw [if_neg fun h => ht ((tab_iff c).mp h)]
    rfl

def text (c : Word) : List Byte := if low c = 0x09 then low c :: List.replicate 5 0x20 else [low c]

theorem sent_consPutcBlank {p : BitVec 16} (hp : TextPort p) (c : Word) (hc : low c ≠ 0x09) (s : Console) :
    sent p (consPutcBlank c s) = sent p s ++ [low c] := by
  rw [consPutcBlank, sent_cgaPutcWith hp, if_neg hc, sent_ports hp]

theorem sent_cputchar {p : BitVec 16} (hp : TextPort p) (c : Word) (s : Console) :
    sent p (cputchar c s) = sent p s ++ text c := by
  have hb : ∀ t, sent p (consPutcBlank 0x20 t) = sent p t ++ [0x20] := sent_consPutcBlank hp 0x20 (by decide)
  rw [cputchar, consPutc, cgaPutc, sent_cgaPutcWith hp, hb, hb, hb, hb, hb, sent_ports hp, text]
  split
  · simp only [List.append_assoc, List.cons_append, List.nil_append]
    rfl
  · rfl

/-! ## Every sequence of characters -/

def puts (cs : List Word) (s : Console) : Console := cs.foldl (fun s c => cputchar c s) s

theorem sent_puts {p : BitVec 16} (hp : TextPort p) (cs : List Word) (s : Console) :
    sent p (puts cs s) = sent p s ++ cs.flatMap text := by
  induction cs generalizing s with
  | nil =>
    rw [List.flatMap_nil, List.append_nil]
    rfl
  | cons c cs ih =>
    rw [List.flatMap_cons, ← List.append_assoc, ← sent_cputchar hp]
    exact ih (cputchar c s)

theorem text_tab {c : Word} (h : low c = 0x09) : (text c).length = 6 := by
  rw [text, if_pos h]
  rfl

theorem text_char {c : Word} (h : low c ≠ 0x09) : text c = [low c] := by rw [text, if_neg h]

theorem length_le_flatMap (cs : List Word) : cs.length ≤ (cs.flatMap text).length := by
  induction cs with
  | nil => exact Nat.zero_le _
  | cons c cs ih =>
    rw [List.flatMap_cons, List.length_append, List.length_cons]
    by_cases h : low c = 0x09
    · rw [text_tab h]
      omega
    · rw [text_char h, List.length_singleton]
      omega

theorem flatMap_text_eq_iff (cs : List Word) : cs.flatMap text = cs.map low ↔ ∀ c ∈ cs, low c ≠ 0x09 := by
  induction cs with
  | nil => exact iff_of_true rfl fun _ hc => absurd hc List.not_mem_nil
  | cons c cs ih =>
    rw [List.flatMap_cons, List.map_cons, List.forall_mem_cons]
    by_cases h : low c = 0x09
    · refine iff_of_false (fun he => ?_) fun hn => hn.1 h
      have hlen := congrArg List.length he
      have := length_le_flatMap cs
      rw [List.length_append, text_tab h, List.length_cons, List.length_map] at hlen
      omega
    · rw [text_char h, List.singleton_append, List.cons.injEq, ih]
      simp only [h, true_and, ne_eq, not_false_eq_true]

/-- **`cputchar`**: the serial and the parallel port get exactly the low bytes of the characters,
just when there is no tab among them. -/
theorem cputchar_sound (s : Console) (cs : List Word) :
    (sent comTx (puts cs s) = sent comTx s ++ cs.map low ∧ sent lptData (puts cs s) = sent lptData s ++ cs.map low) ↔
      ∀ c ∈ cs, low c ≠ 0x09 := by
  rw [sent_puts (Or.inl rfl), sent_puts (Or.inr rfl), List.append_cancel_left_eq, List.append_cancel_left_eq, and_self,
    flatMap_text_eq_iff]

/-- One tab, and the serial port is sent six bytes. -/
theorem cputchar_tab : ¬ ∀ (s : Console) (cs : List Word),
    sent comTx (puts cs s) = sent comTx s ++ cs.map low ∧ sent lptData (puts cs s) = sent lptData s ++ cs.map low := by
  intro h
  have he := (h ⟨fun _ _ => 0xFF, 0, [], false, fun _ => 0, 0⟩ [0x09]).1
  rw [sent_puts (Or.inl rfl), List.append_cancel_left_eq] at he
  exact absurd he (by decide)

end Console

end Jos
