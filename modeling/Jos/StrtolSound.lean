import Jos.Emit
import Jos.Strtol
import Jos.Lib.Numeral

/-!
# `strtol` reads back what `vprintfmt` writes

`printnum` writes pads and then the digits of the number; `strtol` passes over
the pads, blanks before the number or zeros at its front, and reads the digits.
-/

namespace Jos

open Numeral

/-! ## Digits -/

theorem lit_digits : (CStr.lit "0123456789abcdef").bytes =
    [0x30, 0x31, 0x32, 0x33, 0x34, 0x35, 0x36, 0x37, 0x38, 0x39, 0x61, 0x62, 0x63, 0x64, 0x65, 0x66] := by decide

theorem digitValue_digitChar : ∀ d < 16, digitValue (digitChar d) = some (BitVec.ofNat 32 d) := by
  simp only [digitChar, lit_digits]
  decide +kernel

theorem digitChar_ne : ∀ d < 16, ∀ c ∈ [chr ' ', chr '\t', chr '+', chr '-', chr 'x', 0], digitChar d ≠ c := by
  simp only [digitChar, lit_digits]
  decide +kernel

theorem isDigit_digitChar : ∀ d < 10, isDigit (digitChar d) = true ∧ (digitChar d).setWidth 32 = BitVec.ofNat 32 (48 + d) := by
  simp only [digitChar, lit_digits]
  decide +kernel

theorem digitChar_eq_zero : ∀ d < 16, digitChar d = chr '0' ↔ d = 0 := by
  simp only [digitChar, lit_digits]
  decide +kernel

/-! ## What `printnum` writes -/

def padding (width : Word) (n : Nat) : Nat := (width - BitVec.ofNat 32 n).toInt.toNat

theorem printnum_collect (base : Base) (padc : Byte) (num : Nat) (width : Word) (d : List Word) :
    printnum collect num base width padc d =
      d ++ List.replicate (padding width (digits base num).length) (padc.signExtend 32) ++
        (digits base num).map fun n => (digitChar n).setWidth 32 := by
  induction num using Nat.strong_induction_on generalizing width with
  | _ num ih =>
    have hb := base.2
    rcases Nat.lt_or_ge num base with h | h
    · rw [printnum_last h, digits_of_lt h, iterate_collect]
      rfl
    · rw [printnum_high h, digits_of_le hb h, ih _ (Nat.div_lt_self (by omega) (by omega)), collect, padding, padding,
        List.length_append, List.length_singleton, List.map_append, List.append_assoc, BitVec.ofNat_add, BitVec.sub_sub,
        BitVec.add_comm 1]
      rfl

/-! ## What `strtol` reads -/

theorem toInt_small {n : Nat} (h : n ≤ 16) : (BitVec.ofNat 32 n).toInt = n := by
  rw [BitVec.toInt_ofNat', Int.bmod_eq_of_le (by omega) (by omega)]

theorem sle_digit {b d : Nat} (hb : b ≤ 16) (hd : d < b) : (BitVec.ofNat 32 b).sle (BitVec.ofNat 32 d) = false := by
  rw [BitVec.sle, toInt_small hb, toInt_small (by omega)]
  exact decide_eq_false (by omega)

theorem scanValue_digits {b : Nat} (hb : b ≤ 16) {ds : List Nat} (hds : ∀ d ∈ ds, d < b) (v : Nat) :
    scanValue (BitVec.ofNat 32 b) (BitVec.ofNat 32 v) (ds.map digitChar) = (BitVec.ofNat 32 (value b ds v), []) := by
  induction ds generalizing v with
  | nil => rfl
  | cons d ds ih =>
    obtain ⟨hd, hds⟩ := List.forall_mem_cons.mp hds
    rw [List.map_cons, scanValue, digitValue_digitChar d (by omega), value_cons]
    dsimp only
    rw [sle_digit hb hd, if_neg (by decide), ← BitVec.ofNat_mul, ← BitVec.ofNat_add]
    exact ih hds _

theorem strtol_blanks (k : Nat) (s : List Byte) (base : Word) : strtol (List.replicate k (chr ' ') ++ s) base = strtol s base := by
  induction k with
  | zero => rfl
  | succ k ih =>
    rw [← ih, List.replicate_succ, List.cons_append, strtol, List.dropWhile_cons_of_pos (by decide), ← strtol]

theorem strtol_unsigned {c : Byte} (hc : ∀ d ∈ [chr ' ', chr '	', chr '+', chr '-'], c ≠ d) (s : List Byte) (base : Word) :
    strtol (c :: s) base = scanValue (scanBase base (c :: s)).1 0 (scanBase base (c :: s)).2 := by
  simp only [List.forall_mem_cons, List.not_mem_nil, false_imp_iff, implies_true, and_true] at hc
  obtain ⟨h1, h2, h3, h4⟩ := hc
  rw [strtol, List.dropWhile_cons_of_neg (by simp only [h1, h2, or_self, decide_false, Bool.false_eq_true, not_false_eq_true]),
    scanSign, if_neg h3, if_neg h4]
  rfl

theorem strtol_minus (s : List Byte) (base : Word) :
    strtol (chr '-' :: s) base = (-(scanValue (scanBase base s).1 0 (scanBase base s).2).1,
      (scanValue (scanBase base s).1 0 (scanBase base s).2).2) := by
  rw [strtol, List.dropWhile_cons_of_neg (by decide), scanSign, if_neg (by decide), if_pos rfl]
  rfl

theorem scanBase_digits {b : Nat} (hb : b = 8 ∨ b = 10 ∨ b = 16) {ds : List Nat} (hds : ∀ d ∈ ds, d < b) :
    scanBase (BitVec.ofNat 32 b) (ds.map digitChar) = (BitVec.ofNat 32 b, ds.map digitChar) := by
  have h0 : BitVec.ofNat 32 b ≠ 0 := by rcases hb with rfl | rfl | rfl <;> decide
  have hx : (ds.map digitChar)[1]? ≠ some (chr 'x') := by
    rw [List.getElem?_map, ne_eq, Option.map_eq_some_iff]
    rintro ⟨d, hd, he⟩
    have := hds d (List.mem_of_getElem? hd)
    exact digitChar_ne d (by omega) (chr 'x') (by decide) he
  rw [scanBase, if_neg fun h => hx h.2.2, if_neg fun h => h0 h.1, if_neg h0]

theorem strtol_digits {b : Nat} (hb : b = 8 ∨ b = 10 ∨ b = 16) {ds : List Nat} (hne : ds ≠ []) (hds : ∀ d ∈ ds, d < b) :
    strtol (ds.map digitChar) (BitVec.ofNat 32 b) = (BitVec.ofNat 32 (value b ds 0), []) := by
  obtain ⟨d, ds', rfl⟩ := List.exists_cons_of_ne_nil hne
  have hd := hds d List.mem_cons_self
  have hc : ∀ e ∈ [chr ' ', chr '	', chr '+', chr '-'], digitChar d ≠ e := fun e he =>
    digitChar_ne d (by omega) e (List.mem_append_left [chr 'x', 0] he)
  rw [List.map_cons, strtol_unsigned hc, ← List.map_cons, scanBase_digits hb hds]
  exact scanValue_digits (by omega) hds 0

theorem strtol_neg_digits {b : Nat} (hb : b = 8 ∨ b = 10 ∨ b = 16) {ds : List Nat} (hds : ∀ d ∈ ds, d < b) :
    strtol (chr '-' :: ds.map digitChar) (BitVec.ofNat 32 b) = (-BitVec.ofNat 32 (value b ds 0), []) := by
  rw [strtol_minus, scanBase_digits hb hds, show (0 : Word) = BitVec.ofNat 32 0 from rfl,
    scanValue_digits (by omega) hds 0]

/-- After `0x` the base is 16, also where it was to be found out. -/
theorem strtol_prefixed {base : Word} (hb : base = 0 ∨ base = 16) {ds : List Nat} (hds : ∀ d ∈ ds, d < 16) :
    strtol (chr '0' :: chr 'x' :: ds.map digitChar) base = (BitVec.ofNat 32 (value 16 ds 0), []) := by
  rw [strtol_unsigned (by decide), scanBase, if_pos ⟨hb, rfl, rfl⟩]
  exact scanValue_digits (Nat.le_refl 16) hds 0

/-! ## The text of a conversion -/

def text (fmt : CStr) (ap : List Arg) : Option (List Byte) := (emitted fmt ap).map (·.map (·.setWidth 8))

theorem text_conv (fmt : CStr) {t : List Byte} {ap ap' ap'' : List Arg} {s : Spec} {c : Byte} {out : List Word}
    (hf : fmt.bytes = chr '%' :: t) (h : reswitch Spec.init t ap = some (s, c, [], ap')) (hc : isConversion c = true)
    (ho : emitConv s c ap' = some (ap'', out)) : text fmt ap = some (out.map (·.setWidth 8)) := by
  rw [text, emitted_eq, hf, emit_conv h hc, ho, Option.bind_some, emit_nil, Option.map_some, List.append_nil, Option.map_some]

theorem byte_of_char (b : Byte) : (b.setWidth 32).setWidth 8 = b := by
  rw [BitVec.setWidth_setWidth_of_le _ (by decide), BitVec.setWidth_eq]

theorem bytes_of_number (base : Base) (padc : Byte) (hp : padc = chr ' ' ∨ padc = chr '0') (num : Nat) (width : Word)
    (d : List Word) :
    (printnum collect num base width padc d).map (·.setWidth 8) =
      d.map (·.setWidth 8) ++ List.replicate (padding width (digits base num).length) padc ++
        (digits base num).map digitChar := by
  have hpad : (padc.signExtend 32).setWidth 8 = padc := by rcases hp with rfl | rfl <;> decide
  rw [printnum_collect, List.map_append, List.map_append, List.map_replicate, hpad, List.map_map]
  exact congrArg _ (List.map_congr_left fun d _ => byte_of_char (digitChar d))

/-! ## Formats with a width -/

theorem reswitch_zero (s : Spec) (fmt : List Byte) (ap : List Arg) :
    reswitch s (chr '0' :: fmt) ap = reswitch { s with padc := chr '0' } fmt ap := by
  rw [reswitch, if_neg (by decide), if_pos rfl]

theorem scanDigits_digits {ds : List Nat} (hds : ∀ d ∈ ds, d < 10) {c : Byte} (hc : isDigit c = false) (fmt : List Byte)
    (p : Nat) : scanDigits (BitVec.ofNat 32 p) (ds.map digitChar ++ c :: fmt) = (BitVec.ofNat 32 (value 10 ds p), c :: fmt) := by
  induction ds generalizing p with
  | nil =>
    rw [List.map_nil, List.nil_append, scanDigits, if_neg (by rw [hc]; decide)]
    rfl
  | cons d ds ih =>
    obtain ⟨hd, hds⟩ := List.forall_mem_cons.mp hds
    obtain ⟨h1, h2⟩ := isDigit_digitChar d hd
    rw [List.map_cons, List.cons_append, scanDigits, if_pos h1, h2, value_cons, ← ih hds]
    refine congrArg (scanDigits · _) ?_
    rw [BitVec.ofNat_add 48, BitVec.ofNat_add, BitVec.ofNat_mul, BitVec.add_comm (BitVec.ofNat 32 48), ← BitVec.add_assoc]
    exact BitVec.add_sub_cancel _ _

theorem reswitch_numeral {s : Spec} {fmt : List Byte} {ap : List Arg} {c : Byte} {ds : List Nat}
    (hds : ∀ d ∈ ds, d < 10) (hne : ds ≠ []) (hhead : ds.head? ≠ some 0) (hc : isDigit c = false) :
    reswitch s (ds.map digitChar ++ c :: fmt) ap =
      reswitch (s.processPrecision (BitVec.ofNat 32 (value 10 ds 0))) (c :: fmt) ap := by
  have hscan : scanDigits 0 (ds.map digitChar ++ c :: fmt) = _ := scanDigits_digits hds hc fmt 0
  obtain ⟨d, ds, rfl⟩ := List.exists_cons_of_ne_nil hne
  have hd := hds d List.mem_cons_self
  have hminus : digitChar d ≠ chr '-' := digitChar_ne d (by omega) _ (by decide)
  have hzero : digitChar d ≠ chr '0' := fun h => hhead (congrArg some ((digitChar_eq_zero d (by omega)).mp h))
  rw [List.map_cons, List.cons_append] at hscan ⊢
  rw [reswitch, if_neg hminus, if_neg hzero, dif_pos (isDigit_digitChar d hd).1, hscan]

theorem head_digits {n : Nat} (hn : n ≠ 0) : (digits 10 n).head? ≠ some 0 := by
  obtain ⟨d, ds, h⟩ := List.exists_cons_of_ne_nil (digits_ne_nil 10 n)
  rw [h, List.head?_cons]
  intro h0
  exact head_digits_ne_zero hn h (Option.some.inj h0)

theorem isDigit_conversion {c : Byte} (hc : isConversion c = true) : isDigit c = false := by
  rcases isConversion_cases hc with rfl | rfl | rfl | rfl | rfl | rfl | rfl | rfl | rfl <;> decide

theorem reswitch_digits {s : Spec} (hs : s.width.slt 0) {w : Nat} (hw : w ≠ 0) {c : Byte} (hc : isConversion c = true)
    (ap : List Arg) : reswitch s ((digits 10 w).map digitChar ++ [c]) ap =
      some ({ s with width := BitVec.ofNat 32 w, precision := -1 }, c, [], ap) := by
  have hlt : ∀ d ∈ digits 10 w, d < 10 := fun d hd => lt_of_mem_digits (by omega) hd
  rw [reswitch_numeral hlt (digits_ne_nil 10 w) (head_digits hw) (isDigit_conversion hc), value_digits, Spec.processPrecision,
    if_pos hs, reswitch_conversion hc]

/-- `%wc`, with a `0` before the width to pad with zeros; no width is written for 0. -/
def widthBytes (zero : Bool) (w : Nat) (c : Byte) : List Byte :=
  chr '%' :: ((if zero then [chr '0'] else []) ++ ((if w = 0 then [] else (digits 10 w).map digitChar) ++ [c]))

def padOf (zero : Bool) : Byte := if zero then chr '0' else chr ' '

theorem reswitch_width (zero : Bool) (w : Nat) {c : Byte} (hc : isConversion c = true) (ap : List Arg) :
    ∃ width, reswitch Spec.init (widthBytes zero w c).tail ap = some (⟨padOf zero, width, -1, 0, false⟩, c, [], ap) := by
  have hrest : ∀ s : Spec, s.width = -1 → s.precision = -1 →
      ∃ width, reswitch s ((if w = 0 then [] else (digits 10 w).map digitChar) ++ [c]) ap =
        some ({ s with width := width, precision := -1 }, c, [], ap) := by
    intro s hs hp
    split
    · refine ⟨-1, ?_⟩
      rw [List.nil_append, reswitch_conversion hc]
      obtain ⟨padc, width, precision, lflag, altflag⟩ := s
      cases hs
      cases hp
      rfl
    · next hw =>
      exact ⟨_, reswitch_digits (by rw [hs]; decide) hw hc ap⟩
  rw [widthBytes, List.tail_cons]
  cases zero with
  | false => exact hrest Spec.init rfl rfl
  | true =>
    obtain ⟨width, h⟩ := hrest { Spec.init with padc := chr '0' } rfl rfl
    exact ⟨width, (reswitch_zero Spec.init _ ap).trans h⟩

theorem widthBytes_nonzero (zero : Bool) (w : Nat) {c : Byte} (hc : c ≠ 0) : ∀ b ∈ widthBytes zero w c, b ≠ 0 := by
  intro b hb
  rw [widthBytes, List.mem_cons, List.mem_append, List.mem_append, List.mem_singleton] at hb
  rcases hb with rfl | hb | hb | rfl
  · decide
  · cases zero with
    | false => cases hb
    | true =>
      rw [if_pos rfl, List.mem_singleton] at hb
      rw [hb]
      decide
  · split at hb
    · cases hb
    · obtain ⟨d, hd, rfl⟩ := List.mem_map.mp hb
      have := lt_of_mem_digits (by omega) hd
      exact digitChar_ne d (by omega) 0 (by decide)
  · exact hc

inductive Unsigned where
  | u
  | o
  | x

def Unsigned.char : Unsigned → Byte
  | .u => chr 'u'
  | .o => chr 'o'
  | .x => chr 'x'

def Unsigned.base : Unsigned → Base
  | .u => dec
  | .o => oct
  | .x => hex

def widthFmt (zero : Bool) (w : Nat) (k : Unsigned) : CStr where
  bytes := widthBytes zero w k.char
  nonzero := widthBytes_nonzero zero w (by cases k <;> decide)

/-! ## The round trips -/

theorem padding_none {num : Nat} (hn : num < 2 ^ 64) (base : Base) : padding (-1) (digits base num).length = 0 := by
  have hpow : num < (base : Nat) ^ (63 + 1) := Nat.lt_of_lt_of_le hn (Nat.pow_le_pow_left base.2 64)
  have hlen := length_digits_le base.2 hpow
  have hk : (-1 - BitVec.ofNat 32 (digits base num).length : Word).toNat = 2 ^ 32 - 1 - (digits base num).length := by
    rw [BitVec.toNat_sub, show (-1 : Word).toNat = 2 ^ 32 - 1 from rfl, BitVec.toNat_ofNat]
    omega
  rw [padding, toNat_toInt, hk, if_neg (by omega)]

theorem bytes_of_plain (base : Base) {num : Nat} (hn : num < 2 ^ 64) (d : List Word) :
    (printnum collect num base (-1) (chr ' ') d).map (·.setWidth 8) = d.map (·.setWidth 8) ++ (digits base num).map digitChar := by
  rw [bytes_of_number base _ (Or.inl rfl), padding_none hn, List.replicate_zero, List.append_nil]

theorem slt_signExtend (n : Word) : (n.signExtend 64).slt 0 = n.slt 0 := by
  rw [BitVec.slt, BitVec.slt, BitVec.toInt_signExtend_of_le (by decide)]
  rfl

theorem toNat_signExtend (n : Word) : (n.signExtend 64).toNat = n.toNat + if n.slt 0 then 2 ^ 64 - 2 ^ 32 else 0 := by
  rw [BitVec.toNat_signExtend, BitVec.toNat_setWidth_of_le (by decide), ← BitVec.slt_zero_eq_msb]
  rfl

theorem getint_int (n : Word) (ap : List Arg) : getint (.int n :: ap) 0 = some (n.signExtend 64, ap) := rfl

theorem getuint_int (n : Word) (ap : List Arg) : getuint (.int n :: ap) 0 = some (n.setWidth 64, ap) := rfl

theorem text_d (n : Word) : text (.lit "%d") [.int n] = some (if n.slt 0 then
    chr '-' :: (digits 10 (2 ^ 32 - n.toNat)).map digitChar else (digits 10 n.toNat).map digitChar) := by
  have hlit : (CStr.lit "%d").bytes = [chr '%', chr 'd'] := by decide
  have hlt := n.isLt
  have hto := toNat_signExtend n
  by_cases hneg : n.slt 0 = true
  · have hge := (slt_zero_iff n).mp hneg
    rw [if_pos hneg] at hto
    have hnum : (-n.signExtend 64).toNat = 2 ^ 32 - n.toNat := by
      rw [BitVec.toNat_neg, hto]
      omega
    have ho : emitConv Spec.init (chr 'd') [.int n] =
        some ([], printnum collect (2 ^ 32 - n.toNat) dec (-1) (chr ' ') [(chr '-').setWidth 32]) := by
      rw [emitConv, convert_d, show Spec.init.lflag = 0 from rfl, getint_int, Option.map_some, slt_signExtend, if_pos hneg,
        convertNum, hnum]
      rfl
    rw [text_conv _ hlit (reswitch_conversion (by decide)) (by decide) ho, bytes_of_plain _ (by omega), if_pos hneg]
    rfl
  · rw [if_neg hneg, Nat.add_zero] at hto
    have ho : emitConv Spec.init (chr 'd') [.int n] = some ([], printnum collect n.toNat dec (-1) (chr ' ') []) := by
      rw [emitConv, convert_d, show Spec.init.lflag = 0 from rfl, getint_int, Option.map_some, slt_signExtend, if_neg hneg,
        convertNum, hto]
      rfl
    rw [text_conv _ hlit (reswitch_conversion (by decide)) (by decide) ho, bytes_of_plain _ (by omega), if_neg hneg]
    rfl

theorem strtol_d (n : Word) : ∃ t, text (.lit "%d") [.int n] = some t ∧ strtol t 10 = (n, []) := by
  refine ⟨_, text_d n, ?_⟩
  have hb : (10 : Word) = BitVec.ofNat 32 10 := rfl
  split
  · next hneg =>
    have hge := (slt_zero_iff n).mp hneg
    rw [hb, strtol_neg_digits (Or.inr (Or.inl rfl)) (fun d hd => lt_of_mem_digits (by omega) hd), value_digits]
    refine congrArg (·, []) (BitVec.eq_of_toNat_eq ?_)
    have := n.isLt
    rw [BitVec.toNat_neg, BitVec.toNat_ofNat]
    omega
  · rw [hb, strtol_digits (Or.inr (Or.inl rfl)) (digits_ne_nil 10 _) (fun d hd => lt_of_mem_digits (by omega) hd), value_digits,
      BitVec.ofNat_toNat, BitVec.setWidth_eq]

theorem Unsigned.base_cases (k : Unsigned) : (k.base : Nat) = 8 ∨ (k.base : Nat) = 10 ∨ (k.base : Nat) = 16 := by
  cases k with
  | u => exact Or.inr (Or.inl rfl)
  | o => exact Or.inl rfl
  | x => exact Or.inr (Or.inr rfl)

theorem emitConv_unsigned (s : Spec) (hs : s.lflag = 0) (k : Unsigned) (n : Word) (ap : List Arg) :
    emitConv s k.char (.int n :: ap) = some (ap, printnum collect n.toNat k.base s.width s.padc []) := by
  have hnum : (n.setWidth 64).toNat = n.toNat := BitVec.toNat_setWidth_of_le (by decide)
  have hbase : unsignedBase k.char = k.base := by cases k <;> rfl
  rw [emitConv, convert_unsigned (by cases k <;> decide), hs, getuint_int, Option.map_some, convertNum, hnum, hbase]

theorem strtol_width (zero : Bool) (w : Nat) (k : Unsigned) (n : Word) :
    ∃ t, text (widthFmt zero w k) [.int n] = some t ∧ strtol t (BitVec.ofNat 32 k.base) = (n, []) := by
  have hc : isConversion k.char = true := by cases k <;> decide
  obtain ⟨width, hr⟩ := reswitch_width zero w hc [.int n]
  have hpad : padOf zero = chr ' ' ∨ padOf zero = chr '0' := by cases zero <;> decide
  have hlt : ∀ d ∈ digits k.base n.toNat, d < k.base := fun d hd => lt_of_mem_digits k.base.2 hd
  refine ⟨_, text_conv (widthFmt zero w k) rfl hr hc (emitConv_unsigned _ rfl k n []), ?_⟩
  rw [bytes_of_number _ _ hpad, List.map_nil, List.nil_append]
  have hval : strtol ((digits k.base n.toNat).map digitChar) (BitVec.ofNat 32 k.base) = (n, []) := by
    rw [strtol_digits k.base_cases (digits_ne_nil _ _) hlt, value_digits, BitVec.ofNat_toNat, BitVec.setWidth_eq]
  cases zero with
  | false => exact (strtol_blanks _ _ _).trans hval
  | true =>
    -- the pads are digits too
    have h0 : digitChar 0 = padOf true := (digitChar_eq_zero 0 (by omega)).mpr rfl
    have hk := k.base.2
    rw [← h0, ← List.map_replicate, ← List.map_append, strtol_digits k.base_cases, value_zeros, value_digits,
      BitVec.ofNat_toNat, BitVec.setWidth_eq]
    · exact List.append_ne_nil_of_right_ne_nil _ (digits_ne_nil _ _)
    · intro d hd
      rcases List.mem_append.mp hd with hd | hd
      · rw [(List.mem_replicate.mp hd).2]
        omega
      · exact hlt d hd

theorem strtol_p (p : Word) :
    ∃ t, text (.lit "%p") [.ptr p] = some t ∧ strtol t 16 = (p, []) ∧ strtol t 0 = (p, []) := by
  have hlit : (CStr.lit "%p").bytes = [chr '%', chr 'p'] := by decide
  have hnum : (p.setWidth 64).toNat = p.toNat := BitVec.toNat_setWidth_of_le (by decide)
  have ho : emitConv Spec.init (chr 'p') [.ptr p] =
      some ([], printnum collect p.toNat hex (-1) (chr ' ') [(chr '0').setWidth 32, (chr 'x').setWidth 32]) := by
    rw [emitConv, convert_p, ← hnum]
    rfl
  have hpre : ∀ base : Word, base = 0 ∨ base = 16 →
      strtol (chr '0' :: chr 'x' :: (digits 16 p.toNat).map digitChar) base = (p, []) := fun base hb => by
    rw [strtol_prefixed hb (fun d hd => lt_of_mem_digits (by omega) hd), value_digits, BitVec.ofNat_toNat, BitVec.setWidth_eq]
  refine ⟨chr '0' :: chr 'x' :: (digits 16 p.toNat).map digitChar, ?_, hpre 16 (Or.inr rfl), hpre 0 (Or.inl rfl)⟩
  have hlt := p.isLt
  rw [text_conv _ hlit (reswitch_conversion (by decide)) (by decide) ho, bytes_of_plain _ (by omega)]
  rfl

/-- **`strtol`** reads back the text of `%d`, of `%u`, `%o` and `%x` with any width and padding, and of
`%p`, to its end. -/
theorem strtol_format :
    (∀ n, ∃ t, text (.lit "%d") [.int n] = some t ∧ strtol t 10 = (n, [])) ∧
    (∀ zero w n, (∃ t, text (widthFmt zero w .u) [.int n] = some t ∧ strtol t 10 = (n, [])) ∧
      (∃ t, text (widthFmt zero w .o) [.int n] = some t ∧ strtol t 8 = (n, [])) ∧
      ∃ t, text (widthFmt zero w .x) [.int n] = some t ∧ strtol t 16 = (n, [])) ∧
    ∀ p, ∃ t, text (.lit "%p") [.ptr p] = some t ∧ strtol t 16 = (p, []) ∧ strtol t 0 = (p, []) :=
  ⟨strtol_d, fun zero w n => ⟨strtol_width zero w .u n, strtol_width zero w .o n, strtol_width zero w .x n⟩, strtol_p⟩

end Jos
