import Jos.Memmove
import Jos.Lib.Move

/-!
# `memmove` copies all at once

Both versions copy upwards unless the destination begins inside of the source, and
then downwards. The string instructions take words where the addresses allow it:
how large the blocks are makes no difference.
-/

namespace Jos

open Access Move

variable {mem : Memory} {d s dst src n : Word} {w c k : Nat}

/-! ## One element -/

theorem mapped_move (h : Mapped mem s k) {p : Word} {m : Nat} (hp : Mapped mem p m) : Mapped (move mem d s k) p m := by
  refine hp.mono fun a ha => ?_
  rcases Nat.lt_or_ge (a - d).toNat k with hk | hk
  · rw [move_in hk]
    exact h.get (by rwa [BitVec.add_comm, BitVec.add_sub_cancel])
  · rwa [move_out hk]

theorem stores_move (hs : Mapped mem s k) (hd : Mapped mem d k) (hk : k < 2 ^ 32) :
    (loads mem s k >>= fun bs => stores mem d bs) = .ok (move mem d s k) := by
  obtain ⟨bs, hbs, hlen, hget⟩ := loads_mapped hs
  rw [hbs, ok_then, stores_mapped (hlen ▸ hd) (hlen ▸ hk)]
  refine congrArg Except.ok (funext fun a => ?_)
  rw [hlen, move]
  split
  · next h => rw [← hget _ h, BitVec.ofNat_toNat, BitVec.setWidth_eq]
  · rfl

theorem Cpu.movs_mapped (hs : Mapped mem s w) (hd : Mapped mem d w) (hw : w < 2 ^ 32) (df : Bool) :
    Cpu.movs w d s ⟨df, mem⟩ = .ok ⟨df, move mem d s w⟩ := by
  have h := stores_move hs hd hw
  obtain ⟨bs, hbs, _⟩ := loads_mapped hs
  rw [hbs, ok_then] at h
  rw [Cpu.movs, hbs, ok_then, h]
  rfl

theorem copy_byte (hs : mem s ≠ none) (hd : mem d ≠ none) :
    ∃ b, load mem s = .ok b ∧ store mem d b = .ok (move mem d s 1) := by
  obtain ⟨b, hb⟩ := Option.ne_none_iff_exists'.mp hs
  refine ⟨b, load_some hb, ?_⟩
  rw [store_some hd]
  refine congrArg Except.ok (funext fun a => ?_)
  by_cases ha : a = d
  · subst ha
    simp [move, hb]
  · have h0 : (a - d).toNat ≠ 0 := fun h => ha (by
      rw [← BitVec.sub_add_cancel a d, BitVec.eq_of_toNat_eq (y := 0#32) h, BitVec.zero_add])
    rw [Function.update_of_ne ha, move_out (by omega)]

/-! ## All elements -/

theorem repMovs_up (hw : w < 2 ^ 32) (hs : Mapped mem s (w * c)) (hd : Mapped mem d (w * c)) :
    Cpu.repMovs w c d s ⟨false, mem⟩ = .ok ⟨false, up w c d s mem⟩ := by
  induction c generalizing d s mem with
  | zero => rfl
  | succ c ih =>
    rw [Nat.mul_succ, Nat.add_comm] at hs hd
    rw [Cpu.repMovs, Cpu.movs_mapped hs.take hd.take hw, ok_then]
    exact ih (mapped_move hs.take hs.drop) (mapped_move hs.take hd.drop)

theorem add_blocks (p : Word) (w c : Nat) :
    p + BitVec.ofNat 32 (w * (c + 1)) - BitVec.ofNat 32 w = p + BitVec.ofNat 32 (w * c) := by
  rw [Nat.mul_succ, BitVec.ofNat_add, ← BitVec.add_assoc, BitVec.add_sub_cancel]

theorem repMovs_down (hw : w < 2 ^ 32) (hs : Mapped mem s (w * c)) (hd : Mapped mem d (w * c)) :
    Cpu.repMovs w c (d + BitVec.ofNat 32 (w * c) - BitVec.ofNat 32 w) (s + BitVec.ofNat 32 (w * c) - BitVec.ofNat 32 w)
      ⟨true, mem⟩ =
      .ok ⟨true, down w c (d + BitVec.ofNat 32 (w * c) - BitVec.ofNat 32 w) (s + BitVec.ofNat 32 (w * c) - BitVec.ofNat 32 w) mem⟩ := by
  induction c generalizing mem with
  | zero => rfl
  | succ c ih =>
    rw [Nat.mul_succ] at hs hd
    rw [add_blocks, add_blocks, Cpu.repMovs, Cpu.movs_mapped hs.drop hd.drop hw, ok_then]
    exact ih (mapped_move hs.drop hs.take) (mapped_move hs.drop hd.take)

theorem copyUp_mapped (hs : Mapped mem s c) (hd : Mapped mem d c) : C.copyUp c d s mem = .ok (up 1 c d s mem) := by
  induction c generalizing d s mem with
  | zero => rfl
  | succ c ih =>
    have h1 : Mapped mem s 1 := fun i hi => hs i (by omega)
    obtain ⟨b, hl, hst⟩ := copy_byte hs.head hd.head
    rw [C.copyUp, hl, ok_then, hst, ok_then]
    exact ih (mapped_move h1 hs.tail) (mapped_move h1 hd.tail)

theorem copyDown_mapped (hs : Mapped mem s c) (hd : Mapped mem d c) :
    C.copyDown c (d + BitVec.ofNat 32 c) (s + BitVec.ofNat 32 c) mem =
      .ok (down 1 c (d + BitVec.ofNat 32 c - 1) (s + BitVec.ofNat 32 c - 1) mem) := by
  induction c generalizing mem with
  | zero => rfl
  | succ c ih =>
    have hpred : ∀ p : Word, p + BitVec.ofNat 32 (c + 1) - 1 = p + BitVec.ofNat 32 c := fun p => by
      rw [BitVec.ofNat_add, ← BitVec.add_assoc]
      exact BitVec.add_sub_cancel _ _
    have h1 : Mapped mem (s + BitVec.ofNat 32 c) 1 := hs.drop
    obtain ⟨b, hl, hst⟩ := copy_byte (hs c (Nat.lt_succ_self c)) (hd c (Nat.lt_succ_self c))
    rw [C.copyDown, hpred, hpred, hl, ok_then, hst, ok_then]
    exact ih (mapped_move h1 hs.take) (mapped_move h1 hd.take)

/-! ## The direction -/

theorem backward_iff (hs : src.toNat + n.toNat ≤ 2 ^ 32) (hd : dst.toNat + n.toNat ≤ 2 ^ 32) :
    src < dst ∧ src + n > dst ↔ src.toNat < dst.toNat ∧ dst.toNat < src.toNat + n.toNat := by
  simp only [gt_iff_lt, BitVec.lt_def, BitVec.toNat_add]
  constructor
  · rintro ⟨h, h'⟩
    exact ⟨h, by have := Nat.mod_le (src.toNat + n.toNat) (2 ^ 32); omega⟩
  · rintro ⟨h, h'⟩
    exact ⟨h, by rwa [Nat.mod_eq_of_lt (by omega)]⟩

theorem distance {a b : Word} (h : a.toNat ≤ b.toNat) : (b - a).toNat = b.toNat - a.toNat := BitVec.toNat_sub_of_le h

theorem distance_wrap {a b : Word} (h : a.toNat < b.toNat) : (a - b).toNat = 2 ^ 32 - (b.toNat - a.toNat) := by
  have hb := b.isLt
  rw [BitVec.toNat_sub, Nat.mod_eq_of_lt (by omega)]
  omega

theorem up_move (hs : src.toNat + n.toNat ≤ 2 ^ 32) (h : ¬ (src.toNat < dst.toNat ∧ dst.toNat < src.toNat + n.toNat))
    (hc : w * c = n.toNat) : up w c dst src mem = move mem dst src n.toNat := by
  rw [← hc]
  refine up_eq ?_
  rw [hc]
  rcases Nat.lt_or_ge src.toNat dst.toNat with hlt | hge
  · rw [distance_wrap hlt]
    omega
  · rw [distance hge]
    omega

theorem down_move (hd : dst.toNat + n.toNat ≤ 2 ^ 32) (h : src.toNat < dst.toNat) (hc : w * c = n.toNat) :
    down w c (dst + n - BitVec.ofNat 32 w) (src + n - BitVec.ofNat 32 w) mem = move mem dst src n.toNat := by
  have hn : n = BitVec.ofNat 32 (w * c) := by rw [hc, BitVec.ofNat_toNat, BitVec.setWidth_eq]
  have he : (dst - src).toNat + w * c ≤ 2 ^ 32 := by
    rw [distance (Nat.le_of_lt h), hc]
    omega
  rw [← hc, ← down_eq he, ← hn]

/-! ## Both versions -/

theorem div4_mul (h : n % 4 = 0) : 4 * (n / 4).toNat = n.toNat := by
  have h0 := congrArg BitVec.toNat h
  rw [BitVec.toNat_umod] at h0
  rw [BitVec.toNat_udiv]
  exact Nat.mul_div_cancel' (Nat.dvd_of_mod_eq_zero h0)

section
variable (hs : src.toNat + n.toNat ≤ 2 ^ 32) (hd : dst.toNat + n.toNat ≤ 2 ^ 32) (hms : Mapped mem src n.toNat)
  (hmd : Mapped mem dst n.toNat)
include hs hd hms hmd

omit hd in
theorem repMovs_forward (h : ¬ (src.toNat < dst.toNat ∧ dst.toNat < src.toNat + n.toNat)) (hw : w < 2 ^ 32)
    (hc : w * c = n.toNat) : Cpu.repMovs w c dst src ⟨false, mem⟩ = .ok ⟨false, move mem dst src n.toNat⟩ := by
  rw [repMovs_up hw (hc ▸ hms) (hc ▸ hmd), up_move hs h hc]

omit hs in
theorem repMovs_backward (h : src.toNat < dst.toNat) (hw : w < 2 ^ 32) (hc : w * c = n.toNat) :
    Cpu.repMovs w c (dst + n - BitVec.ofNat 32 w) (src + n - BitVec.ofNat 32 w) ⟨true, mem⟩ =
      .ok ⟨true, move mem dst src n.toNat⟩ := by
  have hn : n = BitVec.ofNat 32 (w * c) := by rw [hc, BitVec.ofNat_toNat, BitVec.setWidth_eq]
  rw [← down_move hd h hc, hn]
  exact repMovs_down hw (hc ▸ hms) (hc ▸ hmd)

theorem memmove_mapped (df : Bool) : memmove dst src n ⟨df, mem⟩ = .ok (dst, ⟨false, move mem dst src n.toNat⟩) := by
  unfold memmove
  dsimp only
  by_cases h : src < dst ∧ src + n > dst
  · have hlt := ((backward_iff hs hd).mp h).1
    rw [if_pos h]
    split
    · next ha =>
      have hr : Cpu.repMovs 4 (n / 4).toNat (dst + n - 4) (src + n - 4) ⟨true, mem⟩ = _ :=
        repMovs_backward hd hms hmd hlt (by omega) (div4_mul ha.2.2)
      rw [show Cpu.std ⟨df, mem⟩ = ⟨true, mem⟩ from rfl, hr]
      rfl
    · have hr : Cpu.repMovs 1 n.toNat (dst + n - 1) (src + n - 1) ⟨true, mem⟩ = _ :=
        repMovs_backward hd hms hmd hlt (by omega) (Nat.one_mul _)
      rw [show Cpu.std ⟨df, mem⟩ = ⟨true, mem⟩ from rfl, hr]
      rfl
  · have hn := fun h' => h ((backward_iff hs hd).mpr h')
    rw [if_neg h, show Cpu.cld ⟨df, mem⟩ = ⟨false, mem⟩ from rfl]
    split
    · next ha =>
      rw [repMovs_forward hs hms hmd hn (by omega) (div4_mul ha.2.2)]
      rfl
    · rw [repMovs_forward hs hms hmd hn (by omega) (Nat.one_mul _)]
      rfl

theorem C.memmove_mapped : C.memmove dst src n mem = .ok (dst, move mem dst src n.toNat) := by
  unfold C.memmove
  dsimp only
  by_cases h : src < dst ∧ src + n > dst
  · have hlt := ((backward_iff hs hd).mp h).1
    have hn : BitVec.ofNat 32 n.toNat = n := by rw [BitVec.ofNat_toNat, BitVec.setWidth_eq]
    have hr := copyDown_mapped hms hmd
    rw [hn] at hr
    rw [if_pos h, hr, show (1 : Word) = BitVec.ofNat 32 1 from rfl, down_move hd hlt (Nat.one_mul _)]
    rfl
  · have hn := fun h' => h ((backward_iff hs hd).mpr h')
    rw [if_neg h, copyUp_mapped hms hmd, up_move hs hn (Nat.one_mul _)]
    rfl

end

/-- **`memmove`**: the string instructions and the loops in C leave the same memory, with the old bytes of the
source in the destination and every other byte as it was. -/
theorem memmove_same (mem : Word → Byte) (df : Bool) (dst src n : Word) (hs : src.toNat + n.toNat ≤ 2 ^ 32)
    (hd : dst.toNat + n.toNat ≤ 2 ^ 32) :
    ∃ mem' : Word → Byte, memmove dst src n ⟨df, fun a => some (mem a)⟩ = .ok (dst, ⟨false, fun a => some (mem' a)⟩) ∧
      C.memmove dst src n (fun a => some (mem a)) = .ok (dst, fun a => some (mem' a)) ∧
      (∀ k < n.toNat, mem' (dst + BitVec.ofNat 32 k) = mem (src + BitVec.ofNat 32 k)) ∧
      ∀ a, (∀ k < n.toNat, a ≠ dst + BitVec.ofNat 32 k) → mem' a = mem a := by
  have hall : ∀ p, Mapped (fun a => some (mem a)) p n.toNat := fun p i _ => by simp
  have hm : move (fun a => some (mem a)) dst src n.toNat = fun a => some (move mem dst src n.toNat a) := by
    funext a
    unfold move
    split <;> rfl
  refine ⟨move mem dst src n.toNat, ?_, ?_, fun k hk => ?_, fun a ha => ?_⟩
  · rw [memmove_mapped hs hd (hall _) (hall _), hm]
  · rw [C.memmove_mapped hs hd (hall _) (hall _), hm]
  · have hk' : dst + BitVec.ofNat 32 k - dst = BitVec.ofNat 32 k := by rw [BitVec.add_comm, BitVec.add_sub_cancel]
    have hn := n.isLt
    rw [move_in, hk']
    rwa [hk', BitVec.toNat_ofNat, Nat.mod_eq_of_lt (by omega)]
  · refine move_out (Nat.le_of_not_lt fun hlt => ha _ hlt ?_)
    rw [BitVec.ofNat_toNat, BitVec.setWidth_eq, BitVec.add_comm, BitVec.sub_add_cancel]

theorem memmove_same_small : ∃ mem' : Word → Byte,
    memmove 0x1002 0x1000 5 ⟨false, fun a => some (a.setWidth 8)⟩ = .ok (0x1002, ⟨false, fun a => some (mem' a)⟩) ∧
      C.memmove 0x1002 0x1000 5 (fun a => some (a.setWidth 8)) = .ok (0x1002, fun a => some (mem' a)) ∧
      mem' 0x1004 = 2 ∧ mem' 0x1007 = 7 := by
  obtain ⟨mem', h, h', hin, hout⟩ := memmove_same (fun a => a.setWidth 8) false 0x1002 0x1000 5 (by decide) (by decide)
  exact ⟨mem', h, h', hin 2 (by decide), hout 0x1007 (by decide)⟩

end Jos
