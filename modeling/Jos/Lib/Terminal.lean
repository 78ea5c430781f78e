import Mathlib.Tactic

/-!
# Terminals

A grid of cells with a cursor that is always on it: what runs over the last row
moves all rows up by one. `Flat` is the grid in an array, row by row, with the
cursor as an index.
-/

structure Terminal (rows cols : Nat) (β : Type*) where
  cell : Fin rows → Fin cols → β
  row : Fin rows
  col : Fin cols

namespace Terminal

variable {rows cols : Nat} {β : Type*} {buf : Nat → β} {pos i : Nat} {b : β} {t : Terminal rows cols β}

/-! ## The cursor and the cells -/

def write (v : β) (t : Terminal rows cols β) : Terminal rows cols β :=
  { t with cell := fun r c => if r = t.row ∧ c = t.col then v else t.cell r c }

def scroll (blank : β) (t : Terminal rows cols β) : Terminal rows cols β :=
  { t with cell := fun r c => if h : r.val + 1 < rows then t.cell ⟨r.val + 1, h⟩ c else blank }

def home (t : Terminal rows cols β) : Terminal rows cols β := { t with col := ⟨0, Nat.zero_lt_of_lt t.col.isLt⟩ }

def newline (blank : β) (t : Terminal rows cols β) : Terminal rows cols β :=
  if h : t.row.val + 1 < rows then { t.home with row := ⟨t.row.val + 1, h⟩ } else t.home.scroll blank

def advance (blank : β) (t : Terminal rows cols β) : Terminal rows cols β :=
  if h : t.col.val + 1 < cols then { t with col := ⟨t.col.val + 1, h⟩ } else t.newline blank

def put (blank v : β) (t : Terminal rows cols β) : Terminal rows cols β := (t.write v).advance blank

def back (t : Terminal rows cols β) : Terminal rows cols β :=
  if 0 < t.col.val then { t with col := ⟨t.col.val - 1, Nat.lt_of_le_of_lt (Nat.sub_le ..) t.col.isLt⟩ }
  else if 0 < t.row.val then
    { t with
      row := ⟨t.row.val - 1, Nat.lt_of_le_of_lt (Nat.sub_le ..) t.row.isLt⟩
      col := ⟨cols - 1, Nat.sub_lt (Nat.zero_lt_of_lt t.col.isLt) Nat.one_pos⟩ }
  else t

def origin (t : Terminal rows cols β) : Prop := t.row.val = 0 ∧ t.col.val = 0

instance : Decidable t.origin := inferInstanceAs (Decidable (_ ∧ _))

def erase (v : β) (t : Terminal rows cols β) : Terminal rows cols β := if t.origin then t else t.back.write v

/-! ## The grid in an array -/

structure Flat (buf : Nat → β) (pos : Nat) (t : Terminal rows cols β) : Prop where
  pos : pos = cols * t.row + t.col
  cell : ∀ r c, buf (cols * r.val + c.val) = t.cell r c

def shift (size cols : Nat) (blank : β) (buf : Nat → β) : Nat → β := fun i =>
  if i < size - cols then buf (i + cols) else if i < size then blank else buf i

theorem index_lt (r : Fin rows) (c : Fin cols) : cols * r.val + c.val < cols * rows := by
  have h := Nat.mul_le_mul_left cols (Nat.succ_le_of_lt r.isLt)
  rw [Nat.mul_succ] at h
  have := c.isLt
  omega

theorem index_inj {r r' : Fin rows} {c c' : Fin cols} :
    cols * r.val + c.val = cols * r'.val + c'.val ↔ r = r' ∧ c = c' := by
  refine ⟨fun h => ?_, fun h => by rw [h.1, h.2]⟩
  have hd := congrArg (· / cols) h
  have hm := congrArg (· % cols) h
  simp only [Nat.mul_add_mod, Nat.mod_eq_of_lt c.isLt, Nat.mod_eq_of_lt c'.isLt] at hm
  simp only [Nat.mul_add_div (Nat.zero_lt_of_lt c.isLt), Nat.div_eq_of_lt c.isLt, Nat.div_eq_of_lt c'.isLt, Nat.add_zero] at hd
  exact ⟨Fin.ext hd, Fin.ext hm⟩

theorem exists_flat (buf : Nat → β) (h : pos < cols * rows) : ∃ t : Terminal rows cols β, Flat buf pos t := by
  have hc : 0 < cols := Nat.pos_of_ne_zero fun h0 => by
    rw [h0, Nat.zero_mul] at h
    exact Nat.not_lt_zero _ h
  exact ⟨⟨fun r c => buf (cols * r.val + c.val), ⟨pos / cols, Nat.div_lt_of_lt_mul h⟩, ⟨pos % cols, Nat.mod_lt _ hc⟩⟩,
    (Nat.div_add_mod pos cols).symm, fun _ _ => rfl⟩

namespace Flat

theorem lt (h : Flat buf pos t) : pos < cols * rows := h.pos ▸ index_lt t.row t.col

theorem mod (h : Flat buf pos t) : pos % cols = t.col := by rw [h.pos, Nat.mul_add_mod, Nat.mod_eq_of_lt t.col.isLt]

theorem start (h : Flat buf pos t) : pos - pos % cols = cols * t.row := by rw [h.mod, h.pos, Nat.add_sub_cancel]

theorem origin_iff (h : Flat buf pos t) : t.origin ↔ pos = 0 := by
  have hc := t.col.isLt
  rw [h.pos, Nat.add_eq_zero_iff, Nat.mul_eq_zero, origin]
  constructor
  · exact fun ho => ⟨Or.inr ho.1, ho.2⟩
  · exact fun ho => ⟨ho.1.resolve_left (by omega), ho.2⟩

theorem write (h : Flat buf pos t) (v : β) : Flat (Function.update buf pos v) pos (t.write v) where
  pos := h.pos
  cell r c := by
    by_cases he : r = t.row ∧ c = t.col
    · rw [he.1, he.2, ← h.pos]
      simp [Terminal.write]
    · rw [Function.update_of_ne (by rw [h.pos]; exact fun hi => he (index_inj.mp hi)), h.cell]
      simp [Terminal.write, he]

theorem home (h : Flat buf pos t) : Flat buf (pos - pos % cols) t.home := ⟨h.start, h.cell⟩

theorem back (h : Flat buf pos t) (h0 : 0 < pos) : Flat buf (pos - 1) t.back := by
  have hp := h.pos
  have hc := t.col.isLt
  unfold Terminal.back
  split
  · refine ⟨?_, h.cell⟩
    dsimp only
    omega
  · next hcol =>
    have hrow : 0 < t.row.val := by
      refine Nat.pos_of_ne_zero fun hr => ?_
      rw [hr, Nat.mul_zero] at hp
      omega
    rw [if_pos hrow]
    refine ⟨?_, h.cell⟩
    obtain ⟨r, hr⟩ : ∃ r, t.row.val = r + 1 := ⟨t.row.val - 1, by omega⟩
    dsimp only
    rw [hr, Nat.mul_succ] at hp
    rw [hr, Nat.add_sub_cancel]
    omega

theorem erase (h : Flat buf pos t) (h0 : 0 < pos) (v : β) :
    Flat (Function.update buf (pos - 1) v) (pos - 1) (t.erase v) := by
  rw [Terminal.erase, if_neg (fun ho => absurd (h.origin_iff.mp ho) (by omega))]
  exact (h.back h0).write v

theorem shift_cell (h : Flat buf pos t) (r : Fin rows) (c : Fin cols) :
    shift (cols * rows) cols b buf (cols * r.val + c.val) = (t.scroll b).cell r c := by
  have hc := c.isLt
  have hlt := index_lt r c
  rw [shift, Terminal.scroll]
  dsimp only
  by_cases hr : r.val + 1 < rows
  · have hle := Nat.mul_le_mul_left cols (show r.val + 2 ≤ rows by omega)
    rw [Nat.mul_add] at hle
    rw [dif_pos hr, if_pos (by omega), ← h.cell]
    refine congrArg buf ?_
    rw [Nat.mul_succ]
    omega
  · have hrows : rows = r.val + 1 := by
      have := r.isLt
      omega
    have hsize : cols * rows = cols * r.val + cols := (congrArg (cols * ·) hrows).trans (Nat.mul_succ ..)
    rw [dif_neg hr, if_neg (by omega), if_pos hlt]

theorem newline_next (h : Flat buf pos t) (hn : pos - pos % cols + cols < cols * rows) :
    Flat buf (pos - pos % cols + cols) (t.newline b) := by
  rw [h.start, ← Nat.mul_succ] at hn ⊢
  have hrow : t.row.val + 1 < rows := Nat.lt_of_mul_lt_mul_left hn
  rw [Terminal.newline, dif_pos hrow]
  exact ⟨rfl, h.cell⟩

theorem newline_scroll (h : Flat buf pos t) (hn : cols * rows ≤ pos - pos % cols + cols) :
    Flat (shift (cols * rows) cols b buf) (pos - pos % cols) (t.newline b) := by
  have hc := t.col.isLt
  rw [h.start, ← Nat.mul_succ] at hn
  have hrow : ¬ t.row.val + 1 < rows := fun hlt =>
    absurd (Nat.mul_lt_mul_of_pos_left hlt (Nat.zero_lt_of_lt hc)) (Nat.not_lt.mpr hn)
  rw [h.start, Terminal.newline, dif_neg hrow]
  exact ⟨rfl, fun r c => h.home.shift_cell r c⟩

theorem advance_next (h : Flat buf pos t) (hn : pos + 1 < cols * rows) : Flat buf (pos + 1) (t.advance b) := by
  have hm := h.mod
  have hp := h.pos
  unfold advance
  split
  · refine ⟨?_, h.cell⟩
    dsimp only
    omega
  · have he : pos - pos % cols + cols = pos + 1 := by
      have hc := t.col.isLt
      have hle := Nat.mod_le pos cols
      omega
    rw [← he] at hn ⊢
    exact h.newline_next hn

theorem advance_scroll (h : Flat buf pos t) (hn : cols * rows ≤ pos + 1) :
    Flat (shift (cols * rows) cols b buf) (pos + 1 - cols) (t.advance b) := by
  have hc := t.col.isLt
  have hlt := h.lt
  have hm := h.mod
  have hlast : ¬ t.col.val + 1 < cols := fun hcol => by
    have hmod : (pos + 1) % cols = 0 := by
      rw [show pos + 1 = cols * rows by omega, Nat.mul_mod_right]
    rw [Nat.add_mod, hm, Nat.mod_eq_of_lt (show 1 < cols by omega), Nat.mod_eq_of_lt hcol] at hmod
    omega
  have he : pos - pos % cols = pos + 1 - cols := by omega
  rw [advance, dif_neg hlast, ← he]
  exact h.newline_scroll (by omega)

end Flat

end Terminal
