import Jos.StrtolSound

/-!
# The text of a directive

What `reswitch` makes of flags, of numerals and of `*`, and what a directive with
them emits.
-/

namespace Jos

open Numeral

/-! ## Flags -/

section
variable {s : Spec} {fmt : List Byte} {ap : List Arg} {c : Byte}

theorem reswitch_minus : reswitch s (chr '-' :: fmt) ap = reswitch { s with padc := chr '-' } fmt ap := by
  rw [reswitch, if_pos rfl]

theorem reswitch_star (v : Word) :
    reswitch s (chr '*' :: fmt) (.int v :: ap) = reswitch (s.processPrecision v) fmt ap := by
  rw [reswitch, if_neg (by decide), if_neg (by decide), dif_neg (by decide), if_pos rfl]
  rfl

theorem reswitch_dot : reswitch s (chr '.' :: fmt) ap =
    reswitch (if s.width.slt 0 then { s with width := 0 } else s) fmt ap := by
  rw [reswitch, if_neg (by decide), if_neg (by decide), dif_neg (by decide), if_neg (by decide), if_pos rfl]

theorem reswitch_l : reswitch s (chr 'l' :: fmt) ap = reswitch { s with lflag := s.lflag + 1 } fmt ap := by
  rw [reswitch, if_neg (by decide), if_neg (by decide), dif_neg (by decide), if_neg (by decide), if_neg (by decide),
    if_neg (by decide), if_pos rfl]

theorem reswitch_ells (k : Nat) :
    reswitch s (List.replicate k (chr 'l') ++ fmt) ap =
      reswitch { s with lflag := s.lflag + BitVec.ofNat 32 k } fmt ap := by
  induction k generalizing s with
  | zero =>
    rw [BitVec.add_zero]
    rfl
  | succ k ih =>
    rw [List.replicate_succ, List.cons_append, reswitch_l, ih, Nat.add_comm k, BitVec.ofNat_add, ← BitVec.add_assoc]
    rfl

theorem reswitch_zeros (k : Nat) (hk : k ≠ 0) :
    reswitch s (List.replicate k (chr '0') ++ fmt) ap = reswitch { s with padc := chr '0' } fmt ap := by
  induction k generalizing s with
  | zero => exact absurd rfl hk
  | succ k ih =>
    rw [List.replicate_succ, List.cons_append, reswitch_zero]
    cases k with
    | zero => rfl
    | succ k => exact ih (Nat.succ_ne_zero k)

end

/-! ## Numerals as text -/

def numeral (b n : Nat) : List Byte := (digits b n).map digitChar

theorem numeral_nonzero {b n : Nat} (hb : 2 ≤ b) (hb' : b ≤ 16) : ∀ c ∈ numeral b n, c ≠ 0 := by
  intro c hc
  obtain ⟨d, hd, rfl⟩ := List.mem_map.mp hc
  have := lt_of_mem_digits hb hd
  exact digitChar_ne d (by omega) 0 (by decide)

theorem reswitch_decimal {s : Spec} {n : Nat} (hn : n ≠ 0) {c : Byte} (hc : isDigit c = false) (fmt : List Byte)
    (ap : List Arg) :
    reswitch s (numeral 10 n ++ c :: fmt) ap = reswitch (s.processPrecision (BitVec.ofNat 32 n)) (c :: fmt) ap := by
  have h := @reswitch_numeral s fmt ap c (digits 10 n) (fun d hd => lt_of_mem_digits (by omega) hd) (digits_ne_nil 10 n)
    (head_digits hn) hc
  rwa [value_digits] at h

theorem length_numeral (b n : Nat) : (numeral b n).length = (digits b n).length := List.length_map ..

theorem length_numeral_le {b n : Nat} (hb : 2 ≤ b) (hn : n < 2 ^ 64) : (numeral b n).length ≤ 64 := by
  rw [length_numeral]
  exact length_digits_le hb (Nat.lt_of_lt_of_le hn (Nat.pow_le_pow_left hb 64))

/-! ## A width -/

def widthText (star : Bool) (w : Nat) : List Byte := if star then [chr '*'] else if w = 0 then [] else numeral 10 w

def widthArg (star : Bool) (w : Nat) : List Arg := if star then [.int (BitVec.ofNat 32 w)] else []

def widthOf (star : Bool) (w : Nat) : Word := if star = false ∧ w = 0 then -1 else BitVec.ofNat 32 w

theorem reswitch_widthText {s : Spec} (hw : s.width = -1) (hp : s.precision = -1) (star : Bool) (w : Nat) {c : Byte}
    (hc : isDigit c = false) (fmt : List Byte) (ap : List Arg) :
    reswitch s (widthText star w ++ c :: fmt) (widthArg star w ++ ap) =
      reswitch { s with width := widthOf star w } (c :: fmt) ap := by
  have hprec : ∀ v, s.processPrecision v = { s with width := v } := fun v => by
    rw [Spec.processPrecision, hw, if_pos (by decide)]
    obtain ⟨padc, width, precision, lflag, altflag⟩ := s
    cases hp
    rfl
  cases star with
  | true =>
    have h0 : widthOf true w = BitVec.ofNat 32 w := if_neg fun h => Bool.noConfusion h.1
    rw [h0, ← hprec]
    exact reswitch_star _
  | false =>
    by_cases h0 : w = 0
    · subst h0
      obtain ⟨padc, width, precision, lflag, altflag⟩ := s
      cases hw
      rfl
    · have hwt : widthText false w = numeral 10 w := if_neg h0
      have hwo : widthOf false w = BitVec.ofNat 32 w := if_neg fun h => h0 h.2
      rw [hwt, hwo, ← hprec]
      exact reswitch_decimal h0 hc fmt ap

theorem toNat_sub_ofNat {v : Word} {k : Nat} (hk : k < 2 ^ 32) :
    (v - BitVec.ofNat 32 k).toNat = (v.toNat + (2 ^ 32 - k)) % 2 ^ 32 := by
  rw [BitVec.toNat_sub, BitVec.toNat_ofNat, Nat.mod_eq_of_lt hk, Nat.add_comm]

theorem padding_widthOf (star : Bool) (w : Nat) {k : Nat} (hk : k ≤ 64) : padding (widthOf star w) k =
    if w ≤ k then 0 else if (w - k) % 2 ^ 32 < 2 ^ 31 then (w - k) % 2 ^ 32 else 0 := by
  have hto := @toNat_sub_ofNat (widthOf star w) k (by omega)
  rw [padding, toNat_toInt, hto]
  by_cases h0 : star = false ∧ w = 0
  · rw [widthOf, if_pos h0, show (-1 : Word).toNat = 2 ^ 32 - 1 from rfl, if_pos (show w ≤ k by omega)]
    exact if_neg (by omega)
  · rw [widthOf, if_neg h0, BitVec.toNat_ofNat]
    by_cases hle : w ≤ k
    · rw [if_pos hle]
      by_cases heq : w = k
      · subst heq
        rw [if_pos (by omega)]
        omega
      · exact if_neg (by omega)
    · have hmod : (w % 2 ^ 32 + (2 ^ 32 - k)) % 2 ^ 32 = (w - k) % 2 ^ 32 := by omega
      rw [if_neg hle, hmod]

/-! ## Numbers -/

theorem emitConv_number {k : Unsigned} {s : Spec} {ap ap' : List Arg} {n : BitVec 64}
    (h : getuint ap s.lflag = some (n, ap')) :
    emitConv s k.char ap = some (ap', List.replicate (padding s.width (digits k.base n.toNat).length) (s.padc.signExtend 32) ++
      (numeral k.base n.toNat).map (·.setWidth 32)) := by
  have hbase : unsignedBase k.char = k.base := by cases k <;> rfl
  rw [emitConv, convert_unsigned (by cases k <;> decide), h, Option.map_some, convertNum, hbase, printnum_collect,
    numeral, List.map_map, List.nil_append]
  rfl

theorem emitConv_negative {s : Spec} {ap ap' : List Arg} {n : BitVec 64} (h : getint ap s.lflag = some (n, ap'))
    (hn : n.slt 0) :
    emitConv s (chr 'd') ap = some (ap', (chr '-').setWidth 32 ::
      (List.replicate (padding s.width (digits 10 (-n).toNat).length) (s.padc.signExtend 32) ++
        (numeral 10 (-n).toNat).map (·.setWidth 32))) := by
  rw [emitConv, convert_d, h, Option.map_some, if_pos hn, convertNum, printnum_collect, numeral, List.map_map]
  rfl

theorem emitConv_natural {s : Spec} {ap ap' : List Arg} {n : BitVec 64} (h : getint ap s.lflag = some (n, ap'))
    (hn : ¬ n.slt 0) :
    emitConv s (chr 'd') ap = some (ap', List.replicate (padding s.width (digits 10 n.toNat).length) (s.padc.signExtend 32) ++
      (numeral 10 n.toNat).map (·.setWidth 32)) := by
  rw [emitConv, convert_d, h, Option.map_some, if_neg hn, convertNum, printnum_collect, numeral, List.map_map,
    List.nil_append]
  rfl

theorem emit_directive {fmt : List Byte} {ap ap' ap'' : List Arg} {s : Spec} {c : Byte} {out : List Word}
    (h : reswitch Spec.init fmt ap = some (s, c, [], ap')) (hc : isConversion c = true)
    (ho : emitConv s c ap' = some (ap'', out)) : emit (chr '%' :: fmt) ap = some out := by
  rw [emit_conv h hc, ho, Option.bind_some, emit_nil, Option.map_some, List.append_nil]

end Jos
