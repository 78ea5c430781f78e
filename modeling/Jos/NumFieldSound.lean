import Jos.Directive

/-!
# Numbers with a width

`printnum` puts the pads in front of the digits. It knows nothing of `-`, which it
takes for a pad character, nor of the sign, which `%d` has put before.
-/

namespace Jos

open Numeral

def numField (flag : List Byte) (star : Bool) (w l : Nat) (c : Byte) : List Byte :=
  chr '%' :: (flag ++ (widthText star w ++ (List.replicate l (chr 'l') ++ [c])))

section
variable {k : Unsigned} {star zero : Bool} {w l : Nat} {c padc : Byte} {ap ap' : List Arg} {n : BitVec 64}

theorem reswitch_numField (padc : Byte) (star : Bool) (w l : Nat) (hc : isConversion c = true) (ap : List Arg) :
    reswitch { Spec.init with padc := padc } (widthText star w ++ (List.replicate l (chr 'l') ++ [c])) (widthArg star w ++ ap) =
      some (⟨padc, widthOf star w, -1, BitVec.ofNat 32 l, false⟩, c, [], ap) := by
  have hell : ∀ s : Spec, s.lflag = 0 → reswitch s (List.replicate l (chr 'l') ++ [c]) ap =
      some ({ s with lflag := BitVec.ofNat 32 l }, c, [], ap) := fun s hs => by
    rw [reswitch_ells, reswitch_conversion hc, hs]
    simp
  cases l with
  | zero =>
    have hw := @reswitch_widthText { Spec.init with padc := padc } rfl rfl star w c (isDigit_conversion hc) [] ap
    exact hw.trans (hell _ rfl)
  | succ l =>
    have hw := @reswitch_widthText { Spec.init with padc := padc } rfl rfl star w (chr 'l') (by decide)
      (List.replicate l (chr 'l') ++ [c]) ap
    exact hw.trans (hell _ rfl)

theorem length_number (base : Base) (n : BitVec 64) :
    (numeral base n.toNat).length ≤ 64 ∧ 0 < (numeral base n.toNat).length := by
  refine ⟨length_numeral_le base.2 n.isLt, ?_⟩
  rw [length_numeral]
  exact List.length_pos_iff.mpr (digits_ne_nil _ _)

/-! ## Unsigned numbers -/

theorem emit_unsigned (h : getuint ap (BitVec.ofNat 32 l) = some (n, ap')) :
    emit (numField [chr '-'] star w l k.char) (widthArg star w ++ ap) =
      some (List.replicate (padding (widthOf star w) (numeral k.base n.toNat).length) ((chr '-').signExtend 32) ++
        (numeral k.base n.toNat).map (·.setWidth 32)) := by
  have hc : isConversion k.char = true := by cases k <;> decide
  have hr := reswitch_numField (chr '-') star w l hc ap
  rw [length_numeral]
  exact emit_directive (reswitch_minus.trans hr) hc (emitConv_number h)

theorem digit_ne_pad {b n : Nat} (hb : 2 ≤ b) (hb' : b ≤ 16) :
    ∀ c ∈ (numeral b n).map (·.setWidth 32), c ≠ (chr '-').signExtend 32 := by
  intro c hc
  obtain ⟨b', hm, rfl⟩ := List.mem_map.mp hc
  obtain ⟨d, hd, rfl⟩ := List.mem_map.mp hm
  have hlt := lt_of_mem_digits hb hd
  have hne := digitChar_ne d (by omega) (chr '-') (by decide)
  intro he
  have := congrArg (BitVec.setWidth 8) he
  rw [byte_of_char] at this
  exact hne this

def leftJustified (w : Nat) (ds : List Byte) : List Byte := ds ++ List.replicate (w - ds.length) (chr ' ')

theorem le_of_left_justified (h : getuint ap (BitVec.ofNat 32 l) = some (n, ap'))
    (he : emit (numField [chr '-'] star w l k.char) (widthArg star w ++ ap) =
      some ((leftJustified w (numeral k.base n.toNat)).map (·.setWidth 32))) : w ≤ (numeral k.base n.toNat).length := by
  have h16 : (k.base : Nat) ≤ 16 := by
    have := k.base_cases
    omega
  have hne := @digit_ne_pad k.base n.toNat k.base.2 h16
  have hpos := (length_number k.base n).2
  rw [emit_unsigned h, Option.some.injEq, leftJustified] at he
  generalize numeral k.base n.toNat = ds at *
  by_contra hgt
  have hlen := congrArg List.length he
  simp only [List.length_append, List.length_replicate, List.length_map] at hlen
  -- so there are pads, and the first of them stands where the first digit should be
  obtain ⟨p, hp⟩ : ∃ p, padding (widthOf star w) ds.length = p + 1 := ⟨_, (Nat.sub_add_cancel (show 1 ≤ _ by omega)).symm⟩
  obtain ⟨d, ds, rfl⟩ := List.exists_cons_of_length_pos hpos
  have hhead := congrArg List.head? he
  simp only [hp, List.replicate_succ, List.cons_append, List.map_cons, List.head?_cons, Option.some.injEq] at hhead
  exact hne _ (List.mem_map_of_mem List.mem_cons_self) hhead.symm

/-- **`-`** before the width of an unsigned number puts the blanks behind it just when there are none to put. -/
theorem left_justified_iff (k : Unsigned) (star : Bool) (w l : Nat)
    (h : getuint ap (BitVec.ofNat 32 l) = some (n, ap')) :
    emit (numField [chr '-'] star w l k.char) (widthArg star w ++ ap) =
        some ((leftJustified w (numeral k.base n.toNat)).map (·.setWidth 32)) ↔
          w ≤ (numeral k.base n.toNat).length := by
  refine ⟨le_of_left_justified h, fun hw => ?_⟩
  have hpad := padding_widthOf star w (length_number k.base n).1
  rw [if_pos hw] at hpad
  rw [emit_unsigned h, hpad, leftJustified, Nat.sub_eq_zero_of_le hw, List.replicate_zero, List.replicate_zero,
    List.append_nil]
  rfl

theorem length_five : (numeral 10 5).length = 1 := by
  rw [numeral, digits_of_lt (by decide)]
  rfl

theorem left_justified_small : emit (numField [chr '-'] false 1 0 Unsigned.u.char) [.int 5] =
    some ((leftJustified 1 (numeral 10 5)).map (·.setWidth 32)) := by
  have h : getuint [.int 5] (BitVec.ofNat 32 0) = some (5, []) := rfl
  exact (left_justified_iff .u false 1 0 h).mpr (le_of_eq length_five.symm)

/-- `%-3u` of 5 is `--5`. -/
theorem not_left_justified : ¬ ∀ (k : Unsigned) (star : Bool) (w l : Nat) (ap ap' : List Arg) (n : BitVec 64),
    getuint ap (BitVec.ofNat 32 l) = some (n, ap') →
    emit (numField [chr '-'] star w l k.char) (widthArg star w ++ ap) =
      some ((leftJustified w (numeral k.base n.toNat)).map (·.setWidth 32)) := by
  intro h
  have hg : getuint [.int 5] (BitVec.ofNat 32 0) = some (5, []) := rfl
  have hle : 3 ≤ (numeral 10 5).length := le_of_left_justified (k := .u) hg (h .u false 3 0 [.int 5] [] 5 hg)
  rw [length_five] at hle
  omega

/-! ## Negative numbers -/

/-- A negative number in the width, with the sign at its digits, or before the zeros. -/
def signed (zero : Bool) (w : Nat) (ds : List Byte) : List Byte :=
  if zero then chr '-' :: (List.replicate (w - (1 + ds.length)) (chr '0') ++ ds)
  else List.replicate (w - (1 + ds.length)) (chr ' ') ++ chr '-' :: ds

theorem length_signed (zero : Bool) (w : Nat) (ds : List Byte) : (signed zero w ds).length = max w (1 + ds.length) := by
  unfold signed
  split
  · simp only [List.length_cons, List.length_append, List.length_replicate]
    omega
  · simp only [List.length_cons, List.length_append, List.length_replicate]
    omega

theorem emit_negative (h : getint ap (BitVec.ofNat 32 l) = some (n, ap')) (hn : n.slt 0) :
    emit (numField (if zero then [chr '0'] else []) star w l (chr 'd')) (widthArg star w ++ ap) =
      some ((chr '-' :: (List.replicate (padding (widthOf star w) (numeral 10 (-n).toNat).length) (padOf zero) ++
        numeral 10 (-n).toNat)).map (·.setWidth 32)) := by
  have hpad : (padOf zero).signExtend 32 = (padOf zero).setWidth 32 := by cases zero <;> decide
  have hr : reswitch Spec.init ((if zero then [chr '0'] else []) ++ (widthText star w ++ (List.replicate l (chr 'l') ++ [chr 'd'])))
      (widthArg star w ++ ap) = some (⟨padOf zero, widthOf star w, -1, BitVec.ofNat 32 l, false⟩, chr 'd', [], ap) := by
    cases zero with
    | false => exact reswitch_numField (chr ' ') star w l (by decide) ap
    | true => exact (reswitch_zero _ _ _).trans (reswitch_numField (chr '0') star w l (by decide) ap)
  rw [numField, emit_directive hr (by decide) (emitConv_negative h hn), length_numeral, List.map_cons, List.map_append,
    List.map_replicate, hpad]

theorem le_of_signed (h : getint ap (BitVec.ofNat 32 l) = some (n, ap')) (hn : n.slt 0)
    (he : emit (numField (if zero then [chr '0'] else []) star w l (chr 'd')) (widthArg star w ++ ap) =
      some ((signed zero w (numeral 10 (-n).toNat)).map (·.setWidth 32))) : w ≤ (numeral 10 (-n).toNat).length := by
  have hle : (numeral 10 (-n).toNat).length ≤ 64 := (length_number dec (-n)).1
  have hpad := padding_widthOf star w hle
  rw [emit_negative h hn, Option.some.injEq] at he
  have hlen := congrArg List.length he
  rw [List.length_map, List.length_map, length_signed] at hlen
  simp only [List.length_cons, List.length_append, List.length_replicate] at hlen
  by_contra hgt
  rw [if_neg hgt] at hpad
  split at hpad <;> omega

/-- **The sign**: a negative number fills its width as it should just when its digits alone fill it. -/
theorem negative_field_iff (zero star : Bool) (w l : Nat) (h : getint ap (BitVec.ofNat 32 l) = some (n, ap'))
    (hn : n.slt 0) :
    emit (numField (if zero then [chr '0'] else []) star w l (chr 'd')) (widthArg star w ++ ap) =
        some ((signed zero w (numeral 10 (-n).toNat)).map (·.setWidth 32)) ↔ w ≤ (numeral 10 (-n).toNat).length := by
  refine ⟨le_of_signed h hn, fun hw => ?_⟩
  have hle : (numeral 10 (-n).toNat).length ≤ 64 := (length_number dec (-n)).1
  have hpad := padding_widthOf star w hle
  rw [if_pos hw] at hpad
  rw [emit_negative h hn, hpad, signed, Nat.sub_eq_zero_of_le (show w ≤ 1 + _ by omega)]
  split <;> rfl

theorem negative_field_small : emit (numField [] false 1 0 (chr 'd')) [.int (-5)] =
    some ((signed false 1 (numeral 10 5)).map (·.setWidth 32)) := by
  have h : getint [.int (-5)] (BitVec.ofNat 32 0) = some (-5, []) := rfl
  exact (negative_field_iff false false 1 0 h (by decide)).mpr (le_of_eq length_five.symm)

/-- `%3d` of -5 is `-` and then `  5`. -/
theorem sign_apart : ¬ ∀ (zero star : Bool) (w l : Nat) (ap ap' : List Arg) (n : BitVec 64),
    getint ap (BitVec.ofNat 32 l) = some (n, ap') → n.slt 0 →
    emit (numField (if zero then [chr '0'] else []) star w l (chr 'd')) (widthArg star w ++ ap) =
      some ((signed zero w (numeral 10 (-n).toNat)).map (·.setWidth 32)) := by
  intro h
  have hg : getint [.int (-5)] (BitVec.ofNat 32 0) = some (-5, []) := rfl
  have hle : 3 ≤ (numeral 10 5).length :=
    le_of_signed hg (by decide) (h false false 3 0 [.int (-5)] [] (-5) hg (by decide))
  rw [length_five] at hle
  omega

end

end Jos
