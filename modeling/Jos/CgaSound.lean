import Jos.Cga
import Jos.PutcSound
import Jos.MemmoveSound
import Jos.Lib.Terminal
import Jos.Lib.Loop

/-!
# The display is a terminal

`cga_putc` keeps the memory of the display a terminal of 25 rows and 80 columns, cell
by cell and with the cursor. The cells of `Console` stand in between: the memory shows
them, and they are the grid of the terminal row by row.
-/

namespace Jos

open Access Terminal

abbrev Screen := Terminal 25 80 (BitVec 16)

namespace Screen

open Console

def attr (c : Word) : Byte := if c.toNat < 256 then 0x07 else (c >>> 8).setWidth 8

def blank : BitVec 16 := 0x0720

def key (c : Word) (t : Screen) : Screen :=
  if low c = 0x08 then t.erase (attr c ++ (0x20 : Byte))
  else if low c = 0x0A then t.newline blank
  else if low c = 0x0D then t.home
  else if low c = 0x09 then (Terminal.put blank blank)^[5] t
  else t.put blank (attr c ++ low c)

def type (cs : List Word) (t : Screen) : Screen := cs.foldl (fun t c => key c t) t

end Screen

open Screen

/-! ## Characters with their attribute -/

theorem and_not_low (c : Word) : c &&& ~~~(0xFF : Word) = (c >>> 8) <<< 8 := and_not_ones c 8 (by decide)

theorem no_attribute (c : Word) : c &&& ~~~(0xFF : Word) = 0 ↔ c.toNat < 256 := by
  rw [and_not_low, ← BitVec.toNat_inj, BitVec.toNat_shiftLeft, BitVec.toNat_ushiftRight, Nat.shiftRight_eq_div_pow,
    Nat.shiftLeft_eq]
  have := c.isLt
  show _ = 0 ↔ _
  omega

theorem append_low (c : Word) : c.setWidth 16 = (c >>> 8).setWidth 8 ++ Console.low c := by
  apply BitVec.eq_of_toNat_eq
  have hc := c.isLt
  rw [BitVec.toNat_append, BitVec.toNat_setWidth, BitVec.toNat_setWidth, Console.low, BitVec.toNat_setWidth,
    BitVec.toNat_ushiftRight, Nat.shiftRight_eq_div_pow, ← Nat.shiftLeft_add_eq_or_of_lt (by omega), Nat.shiftLeft_eq]
  omega

def withAttribute (c : Word) : Word := if c &&& ~~~0xFF = 0 then c ||| 0x0700 else c

theorem withAttribute_cell (c : Word) : (withAttribute c).setWidth 16 = attr c ++ Console.low c := by
  unfold withAttribute attr
  by_cases h : c.toNat < 256
  · have hc : c = (Console.low c).setWidth 32 := by
      apply BitVec.eq_of_toNat_eq
      rw [Console.low, BitVec.toNat_setWidth, BitVec.toNat_setWidth]
      omega
    rw [if_pos ((no_attribute c).mpr h), if_pos h]
    have hall : ∀ b : Byte, ((b.setWidth 32 : Word) ||| 0x0700).setWidth 16 = (0x07 : Byte) ++ b := by decide
    rw [hc, hall, ← hc]
  · rw [if_neg (fun h' => h ((no_attribute c).mp h')), if_neg h, append_low]

theorem withAttribute_blank (c : Word) :
    ((withAttribute c &&& ~~~0xFF) ||| 0x20 : Word).setWidth 16 = attr c ++ (0x20 : Byte) := by
  have h := withAttribute_cell c
  generalize withAttribute c = x at h ⊢
  have hlow : Console.low ((x &&& ~~~0xFF) ||| 0x20) = 0x20 := by
    rw [Console.low, BitVec.setWidth_or, BitVec.setWidth_and]
    exact (congrArg (· ||| 0x20#8) (BitVec.and_zero ..)).trans (BitVec.zero_or ..)
  have hhigh : (((x &&& ~~~0xFF) ||| 0x20) >>> 8).setWidth 8 = (x >>> 8).setWidth 8 := by
    rw [BitVec.ushiftRight_or_distrib, BitVec.ushiftRight_and_distrib, BitVec.setWidth_or, BitVec.setWidth_and]
    exact (BitVec.or_zero ..).trans (BitVec.and_allOnes ..)
  rw [append_low] at h ⊢
  have hattr := congrArg (·.extractLsb' 8 8) h
  simp only [BitVec.extractLsb'_append_eq_left] at hattr
  rw [hlow, hhigh, hattr]

theorem char_iff (c : Word) (b : Byte) : withAttribute c &&& 0xFF = b.setWidth 32 ↔ Console.low c = b := by
  have h : withAttribute c &&& 0xFF = c &&& 0xFF := Console.attr_low c
  rw [h, Console.and_low]
  constructor
  · intro he
    have := congrArg (BitVec.setWidth 8) he
    rwa [BitVec.setWidth_setWidth_of_le _ (by decide), BitVec.setWidth_setWidth_of_le _ (by decide), BitVec.setWidth_eq,
      BitVec.setWidth_eq] at this
  · intro he
    rw [he]

/-! ## The cells of the console -/

namespace Console

variable {con : Console} {t : Screen}

def Screens (con : Console) (t : Screen) : Prop := Flat con.crtBuf con.crtPos.toNat t

theorem Screens.lt (h : Screens con t) : con.crtPos.toNat < 2000 := Flat.lt h

theorem below_iff (con : Console) : con.crtPos ≥ crtSize ↔ 2000 ≤ con.crtPos.toNat := BitVec.le_def

theorem scroll_below (h : con.crtPos.toNat < 2000) : scroll con = con := by
  rw [scroll, if_neg]
  rw [below_iff]
  omega

theorem scroll_above (h : 2000 ≤ con.crtPos.toNat) :
    scroll con = { con with crtBuf := shift (80 * 25) 80 blank con.crtBuf, crtPos := con.crtPos - crtCols } := by
  rw [scroll, if_pos ((below_iff con).mpr h)]
  rfl

theorem sub_cols (h : 2000 ≤ con.crtPos.toNat) : (con.crtPos - crtCols).toNat = con.crtPos.toNat - 80 := by
  rw [BitVec.toNat_sub_of_le]
  · rfl
  · rw [BitVec.le_def, show crtCols.toNat = 80 from rfl]
    omega

theorem add_cols (h : con.crtPos.toNat < 2000) : (con.crtPos + crtCols).toNat = con.crtPos.toNat + 80 := by
  rw [BitVec.toNat_add, show crtCols.toNat = 80 from rfl]
  omega

theorem start_toNat (pos : BitVec 16) : (pos - pos % crtCols).toNat = pos.toNat - pos.toNat % 80 := by
  rw [BitVec.toNat_sub_of_le]
  · rw [BitVec.toNat_umod]
    rfl
  · rw [BitVec.le_def, BitVec.toNat_umod]
    exact Nat.mod_le _ _

theorem setCursor_crtBuf (con : Console) : (setCursor con).crtBuf = con.crtBuf := rfl

theorem setCursor_crtPos (con : Console) : (setCursor con).crtPos = con.crtPos := rfl

theorem screens_setCursor : Screens (setCursor con) t ↔ Screens con t := Iff.rfl

theorem Screens.below {n : Nat} (hp : con.crtPos.toNat = n) (hn : n < 2000) (h : Flat con.crtBuf n t) :
    Screens (scroll con) t := by
  subst hp
  rw [scroll_below hn]
  exact h

theorem Screens.above {n : Nat} (hp : con.crtPos.toNat = n) (hn : 2000 ≤ n)
    (h : Flat (shift (80 * 25) 80 blank con.crtBuf) (n - 80) t) : Screens (scroll con) t := by
  subst hp
  rw [scroll_above hn, Screens, sub_cols hn]
  exact h

theorem Screens.put (h : Screens con t) (v : BitVec 16) :
    Screens (scroll { con with crtBuf := Function.update con.crtBuf con.crtPos.toNat v, crtPos := con.crtPos + 1 })
      (t.put blank v) := by
  have hlt := h.lt
  have hp : (con.crtPos + 1).toNat = con.crtPos.toNat + 1 := by
    rw [BitVec.toNat_add, show (1 : BitVec 16).toNat = 1 from rfl]
    omega
  have hw := Flat.write h v
  rcases Nat.lt_or_ge (con.crtPos.toNat + 1) 2000 with hn | hn
  · exact .below hp hn (hw.advance_next hn)
  · exact .above hp hn (hw.advance_scroll hn)

theorem Screens.newline (h : Screens con t) :
    Screens (scroll { con with crtPos := con.crtPos + crtCols - (con.crtPos + crtCols) % crtCols }) (t.newline blank) := by
  have hlt := h.lt
  have hp : (con.crtPos + crtCols - (con.crtPos + crtCols) % crtCols).toNat =
      con.crtPos.toNat - con.crtPos.toNat % 80 + 80 := by
    rw [start_toNat, add_cols hlt]
    omega
  rcases Nat.lt_or_ge (con.crtPos.toNat - con.crtPos.toNat % 80 + 80) 2000 with hn | hn
  · exact .below hp hn (Flat.newline_next h hn)
  · refine .above hp hn ?_
    rw [Nat.add_sub_cancel]
    exact Flat.newline_scroll h hn

theorem Screens.home (h : Screens con t) :
    Screens (scroll { con with crtPos := con.crtPos - con.crtPos % crtCols }) t.home :=
  .below (start_toNat con.crtPos) (Nat.lt_of_le_of_lt (Nat.sub_le ..) h.lt) (Flat.home h)

theorem Screens.erase (h : Screens con t) (h0 : con.crtPos > 0) (v : BitVec 16) :
    Screens (scroll { con with crtBuf := Function.update con.crtBuf (con.crtPos - 1).toNat v, crtPos := con.crtPos - 1 })
      (t.erase v) := by
  have hpos : 0 < con.crtPos.toNat := BitVec.lt_def.mp h0
  have h1 : (1 : BitVec 16) ≤ con.crtPos := BitVec.le_def.mpr hpos
  have hp : (con.crtPos - 1).toNat = con.crtPos.toNat - 1 := BitVec.toNat_sub_of_le h1
  refine .below hp (Nat.lt_of_le_of_lt (Nat.sub_le ..) h.lt) ?_
  dsimp only
  rw [hp]
  exact Flat.erase h hpos v

theorem waitFor_crt (port : BitVec 16) (mask : Byte) (n : Nat) (s : Console) :
    (waitFor port mask n s).crtBuf = s.crtBuf ∧ (waitFor port mask n s).crtPos = s.crtPos := by
  induction n generalizing s with
  | zero => exact ⟨rfl, rfl⟩
  | succ n ih =>
    unfold waitFor
    dsimp only
    split
    · exact ⟨rfl, rfl⟩
    · exact ih _

theorem Screens.ports (h : Screens con t) (c : Word) : Screens (lptPutc c (serialPutc c con)) t := by
  have hs := waitFor_crt comLsr comLsrTxrdy 12800 con
  have hl := waitFor_crt (lptData + 1) 0x80 12800 (serialPutc c con)
  unfold Screens
  rw [show (lptPutc c (serialPutc c con)).crtBuf = con.crtBuf from hl.1.trans hs.1,
    show (lptPutc c (serialPutc c con)).crtPos = con.crtPos from hl.2.trans hs.2]
  exact h

theorem cgaPutcWith_eq (cons : Word → Console → Console) (c : Word) (s : Console) :
    cgaPutcWith cons c s = setCursor (scroll
      (if low c = 0x08 then
        if s.crtPos > 0 then
          { s with
            crtBuf := Function.update s.crtBuf (s.crtPos - 1).toNat (attr c ++ (0x20 : Byte))
            crtPos := s.crtPos - 1 }
        else s
      else if low c = 0x0A then { s with crtPos := s.crtPos + crtCols - (s.crtPos + crtCols) % crtCols }
      else if low c = 0x0D then { s with crtPos := s.crtPos - s.crtPos % crtCols }
      else if low c = 0x09 then cons 0x20 (cons 0x20 (cons 0x20 (cons 0x20 (cons 0x20 s))))
      else
        { s with
          crtBuf := Function.update s.crtBuf s.crtPos.toNat (attr c ++ low c)
          crtPos := s.crtPos + 1 })) := by
  have h8 : withAttribute c &&& 0xFF = 0x08 ↔ low c = 0x08 := char_iff c 0x08
  have ha : withAttribute c &&& 0xFF = 0x0A ↔ low c = 0x0A := char_iff c 0x0A
  have hd : withAttribute c &&& 0xFF = 0x0D ↔ low c = 0x0D := char_iff c 0x0D
  have h9 : withAttribute c &&& 0xFF = 0x09 ↔ low c = 0x09 := char_iff c 0x09
  rw [← withAttribute_cell, ← withAttribute_blank]
  simp only [← h8, ← ha, ← hd, ← h9]
  rfl

theorem iterate_five {α : Type} (f : α → α) (a : α) : f^[5] a = f (f (f (f (f a)))) := rfl

theorem Screens.key (h : Screens con t) (c : Word) {cons : Word → Console → Console}
    (hb : low c = 0x09 → ∀ con t, Screens con t → Screens (cons 0x20 con) (t.put blank blank)) :
    Screens (cgaPutcWith cons c con) (Screen.key c t) := by
  rw [cgaPutcWith_eq, screens_setCursor]
  unfold Screen.key
  split
  · split
    · next h0 => exact h.erase h0 _
    · next h0 =>
      have hz : con.crtPos.toNat = 0 := Nat.eq_zero_of_not_pos fun hp => h0 (BitVec.lt_def.mpr hp)
      rw [scroll_below h.lt, Terminal.erase, if_pos ((Flat.origin_iff h).mpr hz)]
      exact h
  split
  · exact h.newline
  split
  · exact h.home
  split
  · next h9 =>
    rw [iterate_five]
    have h5 := hb h9 _ _ (hb h9 _ _ (hb h9 _ _ (hb h9 _ _ (hb h9 _ _ h))))
    rw [scroll_below h5.lt]
    exact h5
  · exact h.put _

theorem Screens.blank (h : Screens con t) : Screens (consPutcBlank 0x20 con) (t.put Screen.blank Screen.blank) :=
  (h.ports 0x20).key 0x20 fun h9 => absurd h9 (by decide)

theorem Screens.cgaPutc (h : Screens con t) (c : Word) : Screens (cgaPutc c con) (Screen.key c t) :=
  h.key c fun _ _ _ h => h.blank

end Console

/-! ## The memory of the display -/

namespace Cga

open Console

structure Cells (m0 : Memory) (p : Word) (pos : BitVec 16) (buf : Nat → BitVec 16) (s : Cga) : Prop where
  crtBuf : s.crtBuf = p
  crtPos : s.crtPos = pos
  byte : ∀ k < 4000, s.mem (p + BitVec.ofNat 32 k) = (le16 (buf (k / 2)))[k % 2]?
  rest : ∀ a, 4000 ≤ (a - p).toNat → s.mem a = m0 a

variable {m0 : Memory} {p : Word} {pos : BitVec 16} {buf : Nat → BitVec 16} {s : Cga}

theorem byte_ne_none (v : BitVec 16) (k : Nat) : (le16 v)[k % 2]? ≠ none := by
  rw [Ne, List.getElem?_eq_none_iff, not_le]
  exact Nat.mod_lt _ (by decide)

theorem Cells.mapped (h : Cells m0 p pos buf s) : Mapped s.mem p 4000 := fun k hk => by
  rw [h.byte k hk]
  exact byte_ne_none _ _

theorem Cells.move (h : Cells m0 p pos buf s) (pos' : BitVec 16) : Cells m0 p pos' buf { s with crtPos := pos' } :=
  ⟨h.crtBuf, rfl, h.byte, h.rest⟩

theorem offset_sub (p : Word) (k j : Nat) :
    p + BitVec.ofNat 32 k - (p + BitVec.ofNat 32 j) = BitVec.ofNat 32 k - BitVec.ofNat 32 j := by abel

theorem Cells.write (h : Cells m0 p pos buf s) {i : Nat} (hi : i < 2000) (v : BitVec 16) :
    ∃ s', writeCrt i v s = .ok s' ∧ Cells m0 p pos (Function.update buf i v) s' := by
  obtain ⟨mem, q, pos'⟩ := s
  obtain rfl : q = p := h.crtBuf
  have hm : Mapped mem (q + BitVec.ofNat 32 (2 * i)) 2 := fun j hj => by
    rw [BitVec.add_assoc, ← BitVec.ofNat_add]
    exact h.mapped _ (by omega)
  have hst : stores mem (q + BitVec.ofNat 32 (2 * i)) (le16 v) = _ := stores_mapped hm (show 2 < 2 ^ 32 by decide)
  rw [writeCrt, hst]
  refine ⟨_, rfl, rfl, h.crtPos, fun k hk => ?_, fun a ha => ?_⟩
  · dsimp only
    rw [offset_sub, show (le16 v).length = 2 from rfl]
    have hsub : (BitVec.ofNat 32 k - BitVec.ofNat 32 (2 * i)).toNat =
        if 2 * i ≤ k then k - 2 * i else 2 ^ 32 + k - 2 * i := by
      rw [BitVec.toNat_sub, BitVec.toNat_ofNat, BitVec.toNat_ofNat]
      split <;> omega
    rw [hsub]
    by_cases hki : k / 2 = i
    · have hk2 : k - 2 * i = k % 2 := by omega
      rw [hki, Function.update_self, if_pos (show 2 * i ≤ k by omega), hk2, if_pos (Nat.mod_lt _ (by decide))]
    · have hout : ¬ (if 2 * i ≤ k then k - 2 * i else 2 ^ 32 + k - 2 * i) < 2 := by split <;> omega
      rw [Function.update_of_ne hki, if_neg hout]
      exact h.byte k hk
  · have hsub : (a - (q + BitVec.ofNat 32 (2 * i))).toNat = (a - q).toNat - 2 * i := by
      rw [← BitVec.sub_sub]
      exact Move.toNat_sub_ofNat (by omega)
    dsimp only
    rw [hsub, show (le16 v).length = 2 from rfl, if_neg (by omega)]
    exact h.rest a ha

theorem Cells.rows (hp : p.toNat + 4000 ≤ 2 ^ 32) (h : Cells m0 p pos buf s) :
    ∃ mem, memmove p (p + 160) 3840 ⟨false, s.mem⟩ = .ok (p, ⟨false, mem⟩) ∧
      Cells m0 p pos (fun i => if i < 1920 then buf (i + 80) else buf i) { s with mem } := by
  have hsrc : (p + 160).toNat = p.toNat + 160 := by
    rw [BitVec.toNat_add, show (160 : Word).toNat = 160 from rfl, Nat.mod_eq_of_lt (by omega)]
  have hm : Mapped s.mem (p + BitVec.ofNat 32 160) 3840 := Mapped.drop (k := 160) h.mapped
  refine ⟨_, memmove_mapped (by rw [hsrc]; exact hp) (Nat.le_trans (Nat.add_le_add_left (by decide) _) hp) hm
    (fun i hi => h.mapped i (Nat.lt_of_lt_of_le hi (by decide))) false, h.crtBuf, h.crtPos, fun k hk => ?_, fun a ha => ?_⟩
  · have hk' : p + BitVec.ofNat 32 k - p = BitVec.ofNat 32 k := by abel
    have hkn : (BitVec.ofNat 32 k).toNat = k := by
      rw [BitVec.toNat_ofNat]
      omega
    dsimp only
    rcases Nat.lt_or_ge k 3840 with hlt | hge
    · rw [Move.move_in (by rw [hk', hkn]; exact hlt), hk', BitVec.add_assoc]
      have hb := h.byte (160 + k) (by omega)
      rw [BitVec.ofNat_add] at hb
      rw [if_pos (by omega), show k / 2 + 80 = (160 + k) / 2 by omega, show k % 2 = (160 + k) % 2 by omega, ← hb]
      rfl
    · rw [Move.move_out (by rw [hk', hkn]; exact hge), if_neg (by omega), h.byte k hk]
  · dsimp only
    rw [Move.move_out (Nat.le_trans (by decide) ha), h.rest a ha]

def cleared (buf : Nat → BitVec 16) (j : Nat) : Nat → BitVec 16 := fun i =>
  if i < 1920 then buf (i + 80) else if i < 1920 + j then blank else buf i

theorem cleared_succ (buf : Nat → BitVec 16) (j : Nat) :
    Function.update (cleared buf j) (1920 + j) blank = cleared buf (j + 1) := by
  funext i
  unfold cleared
  by_cases hi : i = 1920 + j
  · rw [hi, Function.update_self, if_neg (by omega), if_pos (by omega)]
  · rw [Function.update_of_ne hi]
    split
    · rfl
    · by_cases hlt : i < 1920 + j
      · rw [if_pos hlt, if_pos (by omega)]
      · rw [if_neg hlt, if_neg (by omega)]

theorem scroll_eq (s : Cga) : Cga.scroll s =
    if s.crtPos ≥ crtSize then do
      let (_, cpu) ← memmove s.crtBuf (s.crtBuf + 160) 3840 ⟨false, s.mem⟩
      let s ← (List.range 80).foldlM (fun s j => writeCrt (1920 + j) blank s) { s with mem := cpu.mem }
      .ok { s with crtPos := s.crtPos - crtCols }
    else .ok s := by
  have hsize : (crtSize.setWidth 32 - crtCols.setWidth 32) * 2 = (3840 : Word) := by decide
  have hoff : crtCols.setWidth 32 * 2 = (160 : Word) := by decide
  have hkeep : crtSize.toNat - crtCols.toNat = 1920 := by decide
  have hblank : 0x0700 ||| 0x20 = blank := by decide
  unfold Cga.scroll
  simp only [hsize, hoff, hkeep, hblank]
  rfl

theorem Cells.scroll (hp : p.toNat + 4000 ≤ 2 ^ 32) {con : Console} (h : Cells m0 p con.crtPos con.crtBuf s) :
    ∃ s', Cga.scroll s = .ok s' ∧ Cells m0 p (Console.scroll con).crtPos (Console.scroll con).crtBuf s' := by
  obtain ⟨mem, q, pos⟩ := s
  obtain rfl : q = p := h.crtBuf
  obtain rfl : pos = con.crtPos := h.crtPos
  rw [scroll_eq]
  dsimp only
  by_cases hpos : con.crtPos ≥ crtSize
  · obtain ⟨mem', hmem, hc⟩ := h.rows hp
    have h0 : Cells m0 q con.crtPos (cleared con.crtBuf 0) ⟨mem', q, con.crtPos⟩ := by
      have he : cleared con.crtBuf 0 = fun i => if i < 1920 then con.crtBuf (i + 80) else con.crtBuf i := by
        funext i
        unfold cleared
        split <;> rfl
      rw [he]
      exact hc
    obtain ⟨t, ht, hct⟩ := Loop.range_ok (n := 80) (f := fun s j => writeCrt (1920 + j) blank s)
      (fun j t => Cells m0 q con.crtPos (cleared con.crtBuf j) t) h0 fun j hj t hct => by
        rw [← cleared_succ]
        exact hct.write (by omega) blank
    rw [scroll_above ((below_iff con).mp hpos), if_pos hpos, hmem, ok_then]
    dsimp only
    rw [ht, ok_then, hct.crtPos]
    exact ⟨_, rfl, hct.move _⟩
  · rw [if_neg hpos, Console.scroll, if_neg hpos]
    exact ⟨_, rfl, h⟩

/-! ## One character -/

theorem cgaPutcWith_eq (cons : Word → Cga → Except Fault Cga) (c : Word) (s : Cga) :
    cgaPutcWith cons c s = ((if low c = 0x08 then
        if s.crtPos > 0 then writeCrt (s.crtPos - 1).toNat (attr c ++ (0x20 : Byte)) { s with crtPos := s.crtPos - 1 }
        else .ok s
      else if low c = 0x0A then .ok { s with crtPos := s.crtPos + crtCols - (s.crtPos + crtCols) % crtCols }
      else if low c = 0x0D then .ok { s with crtPos := s.crtPos - s.crtPos % crtCols }
      else if low c = 0x09 then cons 0x20 s >>= fun s => cons 0x20 s >>= fun s => cons 0x20 s >>= fun s =>
        cons 0x20 s >>= cons 0x20
      else writeCrt s.crtPos.toNat (attr c ++ low c) s >>= fun s => .ok { s with crtPos := s.crtPos + 1 }) >>= scroll) := by
  have h8 : withAttribute c &&& 0xFF = 0x08 ↔ low c = 0x08 := char_iff c 0x08
  have ha : withAttribute c &&& 0xFF = 0x0A ↔ low c = 0x0A := char_iff c 0x0A
  have hd : withAttribute c &&& 0xFF = 0x0D ↔ low c = 0x0D := char_iff c 0x0D
  have h9 : withAttribute c &&& 0xFF = 0x09 ↔ low c = 0x09 := char_iff c 0x09
  rw [← withAttribute_cell, ← withAttribute_blank]
  simp only [← h8, ← ha, ← hd, ← h9]
  unfold cgaPutcWith
  change (if withAttribute c &&& 0xFF = 0x08 then _ else _) = _
  split
  · split <;> rfl
  change (if withAttribute c &&& 0xFF = 0x0A then _ else _) = _
  split
  · rfl
  change (if withAttribute c &&& 0xFF = 0x0D then _ else _) = _
  split
  · rfl
  change (if withAttribute c &&& 0xFF = 0x09 then _ else _) = _
  split
  · simp only [bind_assoc]
  · simp only [bind_assoc]
    rfl

structure Sim (m0 : Memory) (p : Word) (con : Console) (t : Screen) (s : Cga) : Prop where
  cells : Cells m0 p con.crtPos con.crtBuf s
  screens : Screens con t

section
variable {con : Console} {t : Screen} (hp : p.toNat + 4000 ≤ 2 ^ 32)
include hp

theorem bind_scroll {x : Except Fault Cga} (h : ∃ s, x = .ok s ∧ Cells m0 p con.crtPos con.crtBuf s) :
    ∃ s', x >>= Cga.scroll = .ok s' ∧
      Cells m0 p (setCursor (Console.scroll con)).crtPos (setCursor (Console.scroll con)).crtBuf s' := by
  obtain ⟨s, rfl, hc⟩ := h
  rw [setCursor_crtPos, setCursor_crtBuf]
  exact hc.scroll hp

theorem Sim.key (h : Sim m0 p con t s) (c : Word) {f : Word → Cga → Except Fault Cga} {g : Word → Console → Console}
    (hb : low c = 0x09 → ∀ {con t s}, Sim m0 p con t s →
      ∃ s', f 0x20 s = .ok s' ∧ Sim m0 p (g 0x20 con) (t.put blank blank) s')
    (hg : low c = 0x09 → ∀ con t, Screens con t → Screens (g 0x20 con) (t.put blank blank)) :
    ∃ s', cgaPutcWith f c s = .ok s' ∧ Sim m0 p (Console.cgaPutcWith g c con) (Screen.key c t) s' := by
  suffices hcells : ∃ s', cgaPutcWith f c s = .ok s' ∧
      Cells m0 p (Console.cgaPutcWith g c con).crtPos (Console.cgaPutcWith g c con).crtBuf s' by
    obtain ⟨s', hs', hc⟩ := hcells
    exact ⟨s', hs', hc, h.screens.key c hg⟩
  have hlt := h.screens.lt
  rw [cgaPutcWith_eq, Console.cgaPutcWith_eq, h.cells.crtPos]
  apply bind_scroll hp
  split
  · split
    · next h0 =>
      have hle : (con.crtPos - 1).toNat ≤ con.crtPos.toNat := by
        have h1 : (1 : BitVec 16) ≤ con.crtPos := BitVec.le_def.mpr (BitVec.lt_def.mp h0)
        rw [BitVec.toNat_sub_of_le h1]
        exact Nat.sub_le _ _
      exact (h.cells.move (con.crtPos - 1)).write (Nat.lt_of_le_of_lt hle hlt) _
    · exact ⟨s, rfl, h.cells⟩
  split
  · exact ⟨_, rfl, h.cells.move _⟩
  split
  · exact ⟨_, rfl, h.cells.move _⟩
  split
  · next h9 =>
    obtain ⟨s₁, e₁, h₁⟩ := hb h9 h
    obtain ⟨s₂, e₂, h₂⟩ := hb h9 h₁
    obtain ⟨s₃, e₃, h₃⟩ := hb h9 h₂
    obtain ⟨s₄, e₄, h₄⟩ := hb h9 h₃
    obtain ⟨s₅, e₅, h₅⟩ := hb h9 h₄
    rw [e₁, ok_then, e₂, ok_then, e₃, ok_then, e₄, ok_then, e₅]
    exact ⟨s₅, rfl, h₅.cells⟩
  · obtain ⟨s', hs', hc⟩ := h.cells.write hlt (attr c ++ low c)
    rw [hs', ok_then, hc.crtPos]
    exact ⟨_, rfl, hc.move _⟩

theorem Sim.blank (h : Sim m0 p con t s) :
    ∃ s', Cga.consPutcBlank 0x20 s = .ok s' ∧ Sim m0 p (Console.consPutcBlank 0x20 con) (t.put Screen.blank Screen.blank) s' := by
  have hports : Sim m0 p (lptPutc 0x20 (serialPutc 0x20 con)) t s := by
    have hs := waitFor_crt comLsr comLsrTxrdy 12800 con
    have hl := waitFor_crt (lptData + 1) 0x80 12800 (serialPutc 0x20 con)
    refine ⟨?_, h.screens.ports 0x20⟩
    rw [show (lptPutc 0x20 (serialPutc 0x20 con)).crtBuf = con.crtBuf from hl.1.trans hs.1,
      show (lptPutc 0x20 (serialPutc 0x20 con)).crtPos = con.crtPos from hl.2.trans hs.2]
    exact h.cells
  exact hports.key hp 0x20 (fun h9 => absurd h9 (by decide)) fun h9 => absurd h9 (by decide)

theorem Sim.cgaPutc (h : Sim m0 p con t s) (c : Word) :
    ∃ s', Cga.cgaPutc c s = .ok s' ∧ Sim m0 p (Console.cgaPutc c con) (Screen.key c t) s' :=
  h.key hp c (fun _ _ _ _ h => h.blank hp) fun _ _ _ h => h.blank

theorem Sim.puts (h : Sim m0 p con t s) (cs : List Word) :
    ∃ s' con', Cga.puts cs s = .ok s' ∧ Sim m0 p con' (Screen.type cs t) s' := by
  induction cs generalizing s con t with
  | nil => exact ⟨s, con, rfl, h⟩
  | cons c cs ih =>
    obtain ⟨s₁, hs₁, h₁⟩ := h.cgaPutc hp c
    obtain ⟨s', con', hs', h'⟩ := ih h₁
    refine ⟨s', con', ?_, h'⟩
    rw [Cga.puts, List.foldlM_cons, hs₁, ok_then]
    exact hs'

end

/-! ## `cga_init` -/

theorem append_toNat (hi lo : Byte) : (hi ++ lo).toNat = hi.toNat * 256 + lo.toNat := by
  rw [BitVec.toNat_append, ← Nat.shiftLeft_add_eq_or_of_lt lo.isLt, Nat.shiftLeft_eq]

theorem cgaInit_crtPos (hi lo : Byte) (mem : Memory) : (cgaInit hi lo mem).crtPos = hi ++ lo := by
  change ((hi.setWidth 32 <<< 8 ||| lo.setWidth 32 : Word)).setWidth 16 = hi ++ lo
  apply BitVec.eq_of_toNat_eq
  have hhi := hi.isLt
  have hlo := lo.isLt
  have hshift : (hi.setWidth 32 <<< 8 : Word).toNat = hi.toNat <<< 8 := by
    rw [BitVec.toNat_shiftLeft, BitVec.toNat_setWidth, Nat.shiftLeft_eq, Nat.shiftLeft_eq]
    omega
  have hlow : (lo.setWidth 32 : Word).toNat = lo.toNat := by
    rw [BitVec.toNat_setWidth]
    omega
  rw [append_toNat, BitVec.toNat_setWidth, BitVec.toNat_or, hshift, hlow, ← Nat.shiftLeft_add_eq_or_of_lt hlo,
    Nat.shiftLeft_eq]
  omega

theorem cgaInit_crtBuf (hi lo : Byte) (mem : Memory) :
    (cgaInit hi lo mem).crtBuf = kernbase + cgaBuf ∨ (cgaInit hi lo mem).crtBuf = kernbase + monoBuf := by
  unfold cgaInit
  dsimp only
  split
  · exact Or.inr rfl
  · exact Or.inl rfl

theorem poke_none (mem : Memory) (q : Word) (v : BitVec 16) (a : Word) : poke mem q v a = none ↔ mem a = none := by
  unfold poke
  split
  · rw [Option.map_eq_none_iff]
  · split
    · rw [Option.map_eq_none_iff]
    · rfl

theorem cgaInit_none (hi lo : Byte) (mem : Memory) (a : Word) : (cgaInit hi lo mem).mem a = none ↔ mem a = none := by
  unfold cgaInit
  dsimp only
  split
  · exact poke_none ..
  · exact (poke_none ..).trans (poke_none ..)

structure Shows (s : Cga) (t : Screen) : Prop where
  cursor : s.crtPos.toNat = 80 * t.row + t.col
  low : ∀ r c, s.mem (s.crtBuf + BitVec.ofNat 32 (2 * (80 * r.val + c.val))) = some ((t.cell r c).setWidth 8)
  high : ∀ r c, s.mem (s.crtBuf + BitVec.ofNat 32 (2 * (80 * r.val + c.val) + 1)) = some ((t.cell r c >>> 8).setWidth 8)

theorem Sim.shows {con : Console} {t : Screen} (h : Sim m0 p con t s) : Shows s t where
  cursor := by
    rw [h.cells.crtPos]
    exact h.screens.pos
  low r c := by
    have hlt := index_lt r c
    rw [h.cells.crtBuf, h.cells.byte _ (by omega), ← h.screens.cell r c]
    rw [show 2 * (80 * r.val + c.val) / 2 = 80 * r.val + c.val by omega, Nat.mul_mod_right]
    rfl
  high r c := by
    have hlt := index_lt r c
    rw [h.cells.crtBuf, h.cells.byte _ (by omega), ← h.screens.cell r c]
    rw [show (2 * (80 * r.val + c.val) + 1) / 2 = 80 * r.val + c.val by omega, Nat.mul_add_mod]
    rfl

theorem le16_append (hi lo : Byte) : le16 (hi ++ lo) = [lo, hi] := by
  have hhi := hi.isLt
  have hlo := lo.isLt
  have h1 : (hi ++ lo).setWidth 8 = lo := by
    apply BitVec.eq_of_toNat_eq
    rw [BitVec.toNat_setWidth, append_toNat]
    omega
  have h2 : ((hi ++ lo) >>> 8).setWidth 8 = hi := by
    apply BitVec.eq_of_toNat_eq
    rw [BitVec.toNat_setWidth, BitVec.toNat_ushiftRight, append_toNat, Nat.shiftRight_eq_div_pow]
    omega
  rw [le16, h1, h2]

theorem exists_sim (hpos : s.crtPos.toNat < 2000) (hm : Mapped s.mem s.crtBuf 4000) :
    ∃ con t, Sim s.mem s.crtBuf con t s := by
  let buf : Nat → BitVec 16 := fun i => (s.mem (s.crtBuf + BitVec.ofNat 32 (2 * i + 1))).getD 0 ++
    (s.mem (s.crtBuf + BitVec.ofNat 32 (2 * i))).getD 0
  obtain ⟨t, ht⟩ : ∃ t : Screen, Flat buf s.crtPos.toNat t := exists_flat buf hpos
  refine ⟨⟨fun _ _ => 0, 0, [], false, buf, s.crtPos⟩, t, ⟨rfl, rfl, fun k hk => ?_, fun _ _ => rfl⟩, ht⟩
  obtain ⟨b, hb⟩ := Option.ne_none_iff_exists'.mp (hm k hk)
  dsimp only [buf]
  rw [le16_append, hb]
  rcases Nat.mod_two_eq_zero_or_one k with h | h
  · rw [h, show 2 * (k / 2) = k by omega, hb]
    rfl
  · rw [h, show 2 * (k / 2) + 1 = k by omega, hb]
    rfl

/-- **`cga_putc`**: from a cursor on the screen, every sequence of characters leaves the display as it leaves the
terminal, and what is no cell of the display is not accessed. -/
theorem cgaPutc_terminal (hi lo : Byte) (mem : Memory) (hpos : (hi ++ lo : BitVec 16) < crtSize)
    (hmem : Mapped mem (cgaInit hi lo mem).crtBuf 4000) :
    ∃ t, Shows (cgaInit hi lo mem) t ∧ ∀ cs, ∃ s, puts cs (cgaInit hi lo mem) = .ok s ∧ s.crtPos < crtSize ∧
      Shows s (Screen.type cs t) ∧ s.crtBuf = (cgaInit hi lo mem).crtBuf ∧
      ∀ a, 4000 ≤ (a - s.crtBuf).toNat → s.mem a = (cgaInit hi lo mem).mem a := by
  have hp : (cgaInit hi lo mem).crtBuf.toNat + 4000 ≤ 2 ^ 32 := by
    rcases cgaInit_crtBuf hi lo mem with h | h <;> rw [h] <;> decide
  have hm : Mapped (cgaInit hi lo mem).mem (cgaInit hi lo mem).crtBuf 4000 :=
    hmem.mono fun a ha hn => ha ((cgaInit_none hi lo mem a).mp hn)
  rw [← cgaInit_crtPos hi lo mem] at hpos
  obtain ⟨con, t, h⟩ := exists_sim (BitVec.lt_def.mp hpos) hm
  refine ⟨t, h.shows, fun cs => ?_⟩
  obtain ⟨s, con', hs, h'⟩ := h.puts hp cs
  refine ⟨s, hs, ?_, h'.shows, h'.cells.crtBuf, ?_⟩
  · rw [h'.cells.crtPos]
    exact BitVec.lt_def.mpr h'.screens.lt
  · rw [h'.cells.crtBuf]
    exact h'.cells.rest

theorem cgaPutc_terminal_small : ∃ s, puts [0x41, 0x09] (cgaInit 0x07 0xCF fun _ => some 0) = .ok s ∧ s.crtPos < crtSize := by
  obtain ⟨t, _, h⟩ := cgaPutc_terminal 0x07 0xCF (fun _ => some 0) (by decide) fun _ _ => by simp
  obtain ⟨s, hs, hpos, _⟩ := h [0x41, 0x09]
  exact ⟨s, hs, hpos⟩

end Cga

end Jos
