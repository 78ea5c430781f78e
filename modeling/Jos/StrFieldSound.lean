import Jos.CputsSound

/-!
# Strings with a width and a precision

One width is counted down in the pads on the left, the bytes and the pads on the
right. It wraps behind strings of some 2^30 bytes, and then pads come where none
should. A precision that is written as zeros is a flag.
-/

namespace Jos

open Numeral

variable {mem fm : Fmt.Memory} {p f : Word}

def chars (str : List Byte) (k : Nat) : List Word := (str.take k).map (shown false)

theorem length_chars (str : List Byte) (k : Nat) : (chars str k).length = min k str.length := by
  rw [chars, List.length_map, List.length_take]

theorem chars_min (str : List Byte) (k : Nat) : chars str (min k str.length) = chars str k := by
  rw [chars, chars]
  congr 1
  rcases Nat.le_total k str.length with h | h
  · rw [Nat.min_eq_left h]
  · rw [Nat.min_eq_right h, List.take_length, List.take_of_length_le h]

/-! ## A precision -/

theorem emitConv_counted (padc : Byte) (v : Word) (str : CStr) (hlen : str.bytes.length < 2 ^ 32) (ap : List Arg) :
    emitConv ⟨padc, 0, v, 0, false⟩ (chr 's') (.str (some str) :: ap) =
      some (ap, chars str.bytes (shownLength str.bytes v) ++ List.replicate
        (if 2 ^ 31 < shownLength str.bytes v then 2 ^ 32 - shownLength str.bytes v else 0) ((chr ' ').setWidth 32)) := by
  have hk : shownLength str.bytes v < 2 ^ 32 := by
    unfold shownLength
    split <;> omega
  have hleft : padLeft collect ⟨padc, 0, v, 0, false⟩ str.bytes [] = (0, []) :=
    padLeft_narrow (show ¬ (0 : Word).slt 0 by decide) _ _
  rw [emitConv_str, Option.getD_some, convertStr_collect, hleft, ← Fmt.pads_after hk]
  rfl

theorem counted_eq_iff {str : List Byte} (hlen : str.length < 2 ^ 32) (v : Word) (n : Nat) :
    chars str (shownLength str v) ++ List.replicate (if 2 ^ 31 < shownLength str v then 2 ^ 32 - shownLength str v else 0)
      ((chr ' ').setWidth 32) = chars str n ↔ shownLength str v ≤ 2 ^ 31 ∧ shownLength str v = min n str.length := by
  have hk : shownLength str v ≤ str.length := by
    unfold shownLength
    split <;> omega
  constructor
  · intro h
    have hl := congrArg List.length h
    rw [List.length_append, List.length_replicate, length_chars, length_chars] at hl
    split at hl <;> omega
  · rintro ⟨hle, hmin⟩
    rw [if_neg (by omega), List.replicate_zero, List.append_nil, hmin, chars_min]

theorem split_zeros (ds : List Nat) : ∃ k ds', ds = List.replicate k 0 ++ ds' ∧ ds'.head? ≠ some 0 := by
  induction ds with
  | nil => exact ⟨0, [], rfl, by simp⟩
  | cons d ds ih =>
    cases d with
    | zero =>
      obtain ⟨k, ds', rfl, h⟩ := ih
      exact ⟨k + 1, ds', rfl, h⟩
    | succ d => exact ⟨0, (d + 1) :: ds, rfl, by simp⟩

def precisionOf (ds : List Nat) : Word := if ∃ d ∈ ds, d ≠ 0 then BitVec.ofNat 32 (value 10 ds 0) else -1

def precisionBytes (ds : List Nat) : List Byte := chr '%' :: chr '.' :: (ds.map digitChar ++ [chr 's'])

theorem reswitch_precision {ds : List Nat} (hds : ∀ d ∈ ds, d < 10) (ap : List Arg) : ∃ padc,
    reswitch Spec.init (precisionBytes ds).tail ap = some (⟨padc, 0, precisionOf ds, 0, false⟩, chr 's', [], ap) := by
  obtain ⟨k, ds', rfl, hhead⟩ := split_zeros ds
  have hzeros : ∃ padc, reswitch Spec.init (precisionBytes (List.replicate k 0 ++ ds')).tail ap =
      reswitch ⟨padc, 0, -1, 0, false⟩ (ds'.map digitChar ++ [chr 's']) ap := by
    have hchars : (List.replicate k 0 ++ ds').map digitChar ++ [chr 's'] =
        List.replicate k (chr '0') ++ (ds'.map digitChar ++ [chr 's']) := by
      rw [List.map_append, List.map_replicate, List.append_assoc]
      rfl
    rw [precisionBytes, List.tail_cons, reswitch_dot, hchars]
    by_cases hk : k = 0
    · subst hk
      exact ⟨chr ' ', rfl⟩
    · exact ⟨chr '0', reswitch_zeros k hk⟩
  obtain ⟨padc, hz⟩ := hzeros
  refine ⟨padc, hz.trans ?_⟩
  have hmem : ∀ d, d ∈ List.replicate k 0 ++ ds' → d ≠ 0 → d ∈ ds' := fun d hd h0 =>
    (List.mem_append.mp hd).resolve_left fun hr => h0 (List.eq_of_mem_replicate hr)
  cases ds' with
  | nil =>
    have hno : ¬ ∃ d ∈ List.replicate k 0 ++ [], d ≠ 0 := fun ⟨d, hd, h0⟩ => List.not_mem_nil (hmem d hd h0)
    rw [precisionOf, if_neg hno]
    exact reswitch_conversion (by decide)
  | cons d ds' =>
    have hd : d ≠ 0 := fun h0 => hhead (congrArg some h0)
    have hex : ∃ d' ∈ List.replicate k 0 ++ d :: ds', d' ≠ 0 := ⟨d, List.mem_append_right _ List.mem_cons_self, hd⟩
    have hnum := @reswitch_numeral ⟨padc, 0, -1, 0, false⟩ [] ap (chr 's') (d :: ds')
      (fun x hx => hds x (List.mem_append_right _ hx)) (List.cons_ne_nil _ _) hhead (by decide)
    rw [hnum, reswitch_conversion (by decide), precisionOf, if_pos hex, value_zeros]
    rfl

def precisionFmt (ds : List Nat) (hds : ∀ d ∈ ds, d < 10) : CStr where
  bytes := precisionBytes ds
  nonzero b hb := by
    rcases List.mem_cons.mp hb with rfl | hb
    · decide
    rcases List.mem_cons.mp hb with rfl | hb
    · decide
    rcases List.mem_append.mp hb with hb | hb
    · obtain ⟨d, hd, rfl⟩ := List.mem_map.mp hb
      exact digitChar_ne d (by have := hds d hd; omega) 0 (by decide)
    · rw [List.mem_singleton.mp hb]
      decide

theorem shownLength_iff {str : List Byte} (hlen : str.length < 2 ^ 32) (n : Nat) :
    shownLength str (BitVec.ofNat 32 n) ≤ 2 ^ 31 ∧ shownLength str (BitVec.ofNat 32 n) = min n str.length ↔
      n < 2 ^ 31 ∨ str.length ≤ min (n % 2 ^ 32) (2 ^ 31) := by
  unfold shownLength
  split
  · next h =>
    rw [slt_zero_iff, BitVec.toNat_ofNat] at h
    omega
  · next h =>
    rw [slt_zero_iff, BitVec.toNat_ofNat] at h
    rw [BitVec.toNat_ofNat]
    omega

section
variable {str : CStr} {fm' : Fmt.Memory} {f' : Word} (hp : p ≠ 0) (hs : Fmt.Holds mem p str.bytes)
include hp hs

theorem prints_written {ds : List Nat} {hds : ∀ d ∈ ds, d < 10} (hf : Fmt.Holds fm f (precisionFmt ds hds).bytes)
    (n : Nat) :
    Fmt.Prints fm mem f [.ptr p] (chars str.bytes n) ↔
      shownLength str.bytes (precisionOf ds) ≤ 2 ^ 31 ∧
        shownLength str.bytes (precisionOf ds) = min n str.bytes.length := by
  obtain ⟨padc, hr⟩ := reswitch_precision hds [.str (some str)]
  have hlen := hs.length_lt
  have hout := emit_directive hr (by decide) (emitConv_counted padc (precisionOf ds) str hlen [])
  have hin : Fmt.ArgsIn mem [.str (some str)] [.ptr p] := .cons (.str hp hs) (.nil [])
  rw [(Fmt.prints_of_emitted hf hin hout).iff_eq, counted_eq_iff hlen]

theorem prints_given (hf : Fmt.Holds fm f (CStr.lit "%.*s").bytes) (v : Word) (n : Nat) :
    Fmt.Prints fm mem f [.int v, .ptr p] (chars str.bytes n) ↔
      shownLength str.bytes v ≤ 2 ^ 31 ∧ shownLength str.bytes v = min n str.bytes.length := by
  have hlen := hs.length_lt
  have hout :=
    emit_directive (Fmt.reswitch_cputs v [.str (some str)]) (by decide) (emitConv_counted (chr ' ') v str hlen [])
  have hin : Fmt.ArgsIn mem [.int v, .str (some str)] [.int v, .ptr p] := .cons (.int v) (.cons (.str hp hs) (.nil []))
  rw [← Fmt.cputs_bytes] at hout
  rw [(Fmt.prints_of_emitted hf hin hout).iff_eq, counted_eq_iff hlen]

theorem shown_of_zeros {ds : List Nat} {hds : ∀ d ∈ ds, d < 10} (hf : Fmt.Holds fm f (precisionFmt ds hds).bytes)
    (h : Fmt.Prints fm mem f [.ptr p] (chars str.bytes (value 10 ds 0))) : (∃ d ∈ ds, d ≠ 0) ∨ str.bytes = [] := by
  by_contra hno
  rw [not_or] at hno
  obtain ⟨hzero, hne⟩ := hno
  have hval : value 10 ds 0 = 0 := by
    have hrep : ds = List.replicate ds.length 0 := List.eq_replicate_of_mem fun d hd => by
      by_contra h0
      exact hzero ⟨d, hd, h0⟩
    have hv := value_zeros (b := 10) ds.length []
    rwa [List.append_nil, ← hrep] at hv
  have hk := ((prints_written hp hs hf _).mp h).2
  rw [precisionOf, if_neg hzero, hval, Nat.zero_min, shownLength, if_pos (by decide)] at hk
  exact hne (List.eq_nil_of_length_eq_zero hk)

/-- **A precision** in the format and as an argument both show that many bytes just when it is not written as
zeros only (the string being empty apart) and is no negative `int` (the string being short apart). -/
theorem precision_iff (ds : List Nat) (hds : ∀ d ∈ ds, d < 10) (hf : Fmt.Holds fm f (precisionFmt ds hds).bytes)
    (hf' : Fmt.Holds fm' f' (CStr.lit "%.*s").bytes) :
    (Fmt.Prints fm mem f [.ptr p] (chars str.bytes (value 10 ds 0)) ∧
        Fmt.Prints fm' mem f' [.int (BitVec.ofNat 32 (value 10 ds 0)), .ptr p] (chars str.bytes (value 10 ds 0))) ↔
      ((∃ d ∈ ds, d ≠ 0) ∨ str.bytes = []) ∧
        (value 10 ds 0 < 2 ^ 31 ∨ str.bytes.length ≤ min (value 10 ds 0 % 2 ^ 32) (2 ^ 31)) := by
  rw [prints_given hp hs hf', shownLength_iff hs.length_lt]
  refine ⟨fun ⟨h, hn⟩ => ⟨shown_of_zeros hp hs hf h, hn⟩, fun ⟨hz, hn⟩ => ⟨?_, hn⟩⟩
  rw [prints_written hp hs hf]
  by_cases hex : ∃ d ∈ ds, d ≠ 0
  · rw [precisionOf, if_pos hex, shownLength_iff hs.length_lt]
    exact hn
  · have hnil := hz.resolve_left hex
    rw [hnil, shownLength, List.length_nil, Nat.zero_min, ite_self, Nat.min_zero]
    exact ⟨Nat.zero_le _, rfl⟩

end

theorem lit_a : (CStr.lit "a").bytes = [chr 'a'] := by decide

theorem holds_a : Fmt.Holds (Fmt.bytesAt 0x1000 ((CStr.lit "a").bytes ++ [0])) 0x1000 (CStr.lit "a").bytes :=
  Fmt.holds_bytesAt 0x1000 (by decide)

theorem holds_precision (d : Nat) (hd : ∀ x ∈ [d], x < 10) :
    Fmt.Holds (Fmt.bytesAt 0x3000 ((precisionFmt [d] hd).bytes ++ [0])) 0x3000 (precisionFmt [d] hd).bytes :=
  Fmt.holds_bytesAt 0x3000 (by simp [precisionFmt, precisionBytes])

theorem precision_small :
    Fmt.Prints Fmt.cputsFmt (Fmt.bytesAt 0x1000 ((CStr.lit "a").bytes ++ [0])) 0x2000 [.int 1, .ptr 0x1000]
    (chars (CStr.lit "a").bytes 1) :=
  ((precision_iff (p := 0x1000) (by decide) holds_a [1] (by decide) (holds_precision 1 (by decide)) Fmt.holds_cputsFmt).mpr
    ⟨Or.inl ⟨1, by decide, by decide⟩, Or.inl (by decide)⟩).2

/-- `%.0s` prints the whole string. -/
theorem precision_zero :
    ¬ ∀ (fm fm' mem : Fmt.Memory) (f f' p : Word) (str : CStr) (ds : List Nat) (hds : ∀ d ∈ ds, d < 10),
    ds ≠ [] → p ≠ 0 → Fmt.Holds mem p str.bytes → Fmt.Holds fm f (precisionFmt ds hds).bytes →
    Fmt.Holds fm' f' (CStr.lit "%.*s").bytes →
    Fmt.Prints fm mem f [.ptr p] (chars str.bytes (value 10 ds 0)) ∧
      Fmt.Prints fm' mem f' [.int (BitVec.ofNat 32 (value 10 ds 0)), .ptr p] (chars str.bytes (value 10 ds 0)) := by
  intro h
  have hd : ∀ x ∈ [0], x < 10 := by decide
  have h0 :=
    h _ _ _ _ _ 0x1000 (.lit "a") [0] hd (by decide) (by decide) holds_a (holds_precision 0 hd) Fmt.holds_cputsFmt
  rcases shown_of_zeros (by decide) holds_a (holds_precision 0 hd) h0.1 with ⟨d, hm, hne⟩ | hnil
  · exact hne (List.mem_singleton.mp hm)
  · rw [lit_a] at hnil
    cases hnil

/-! ## A width -/

inductive StrFlag where
  | none
  | minus
  | zero

def StrFlag.text : StrFlag → List Byte
  | none => []
  | minus => [chr '-']
  | zero => [chr '0']

def StrFlag.padc : StrFlag → Byte
  | none => chr ' '
  | minus => chr '-'
  | zero => chr '0'

def StrFlag.field (flag : StrFlag) (w : Nat) (cs : List Word) : List Word :=
  match flag with
  | none => List.replicate (w - cs.length) ((chr ' ').setWidth 32) ++ cs
  | minus => cs ++ List.replicate (w - cs.length) ((chr ' ').setWidth 32)
  | zero => List.replicate (w - cs.length) ((chr '0').setWidth 32) ++ cs

def precisionWord (prec : Option Nat) : Word := prec.elim (-1) (BitVec.ofNat 32)

def strBytes (flag : StrFlag) (w : Nat) (prec : Option Nat) : List Byte :=
  chr '%' :: (flag.text ++ (numeral 10 w ++ (prec.elim [] (fun p => chr '.' :: numeral 10 p) ++ [chr 's'])))

def strFmt (flag : StrFlag) (w : Nat) (prec : Option Nat) : CStr where
  bytes := strBytes flag w prec
  nonzero := by
    have hnum : ∀ n, ∀ b ∈ numeral 10 n, b ≠ 0 := fun n => numeral_nonzero (by omega) (by omega)
    have hflag : ∀ b ∈ flag.text, b ≠ 0 := by cases flag <;> decide
    have hprec : ∀ b ∈ prec.elim [] (fun p => chr '.' :: numeral 10 p) ++ [chr 's'], b ≠ 0 := by
      refine List.forall_mem_append.mpr ⟨?_, by decide⟩
      cases prec with
      | none => exact fun b hb => absurd hb List.not_mem_nil
      | some p => exact List.forall_mem_cons.mpr ⟨by decide, hnum p⟩
    refine List.forall_mem_cons.mpr ⟨by decide, List.forall_mem_append.mpr ⟨hflag, List.forall_mem_append.mpr ⟨hnum w, hprec⟩⟩⟩

def shownOf (prec : Option Nat) (n : Nat) : Nat := prec.elim n (min n)

theorem shownOf_le (prec : Option Nat) (n : Nat) : shownOf prec n ≤ n := by
  cases prec with
  | none => exact Nat.le_refl n
  | some p => exact Nat.min_le_left n p

section
variable {w : Nat} {prec : Option Nat} (hw : 1 ≤ w) (hw' : w < 2 ^ 31) (hprec : ∀ n ∈ prec, 1 ≤ n ∧ n < 2 ^ 31)
include hw hw' hprec

theorem reswitch_strBytes (flag : StrFlag) (ap : List Arg) : reswitch Spec.init (strBytes flag w prec).tail ap =
    some (⟨flag.padc, BitVec.ofNat 32 w, precisionWord prec, 0, false⟩, chr 's', [], ap) := by
  have hpos : ¬ (BitVec.ofNat 32 w).slt 0 := mt (slt_ofNat_iff (by omega)).mp (by omega)
  have hpart : ∀ padc, reswitch ⟨padc, BitVec.ofNat 32 w, -1, 0, false⟩
      (prec.elim [] (fun p => chr '.' :: numeral 10 p) ++ [chr 's']) ap =
      some (⟨padc, BitVec.ofNat 32 w, precisionWord prec, 0, false⟩, chr 's', [], ap) := by
    intro padc
    cases prec with
    | none => exact reswitch_conversion (by decide)
    | some n =>
      have hn := hprec n rfl
      rw [Option.elim_some, List.cons_append, reswitch_dot, if_neg hpos, reswitch_decimal (by omega) (by decide),
        reswitch_conversion (by decide), Spec.processPrecision, if_neg hpos]
      rfl
  have hwidth : ∀ padc, reswitch ⟨padc, -1, -1, 0, false⟩
      (numeral 10 w ++ (prec.elim [] (fun p => chr '.' :: numeral 10 p) ++ [chr 's'])) ap =
      some (⟨padc, BitVec.ofNat 32 w, precisionWord prec, 0, false⟩, chr 's', [], ap) := by
    intro padc
    obtain ⟨c, rest, hc, hrest⟩ : ∃ c rest, isDigit c = false ∧
        prec.elim [] (fun p => chr '.' :: numeral 10 p) ++ [chr 's'] = c :: rest := by
      cases prec with
      | none => exact ⟨chr 's', [], by decide, rfl⟩
      | some n => exact ⟨chr '.', numeral 10 n ++ [chr 's'], by decide, rfl⟩
    have hstep := hpart padc
    rw [hrest] at hstep ⊢
    rw [reswitch_decimal (by omega) hc]
    exact hstep
  cases flag with
  | none => exact hwidth (chr ' ')
  | minus => exact reswitch_minus.trans (hwidth (chr '-'))
  | zero => exact (reswitch_zero Spec.init _ ap).trans (hwidth (chr '0'))

omit hw hw' in
theorem shownLength_prec {str : List Byte} (hlen : str.length < 2 ^ 32) :
    shownLength str (precisionWord prec) = shownOf prec str.length ∧
      strnlen str (precisionWord prec) = BitVec.ofNat 32 (shownOf prec str.length) := by
  cases prec with
  | none =>
    refine ⟨if_pos (by decide), congrArg (BitVec.ofNat 32) (Nat.min_eq_left ?_)⟩
    exact Nat.le_sub_one_of_lt hlen
  | some n =>
    have hn := (hprec n rfl).2
    have hpos : ¬ (precisionWord (some n)).slt 0 := mt (slt_ofNat_iff (by omega)).mp (by omega)
    have hto : (precisionWord (some n)).toNat = n := by
      rw [precisionWord, Option.elim_some, BitVec.toNat_ofNat]
      omega
    refine ⟨?_, congrArg (BitVec.ofNat 32) ?_⟩
    · rw [shownLength, if_neg hpos, hto]
      rfl
    · rw [hto]
      rfl

end

def widthLeft (w n : Nat) : Word :=
  if (0 : Word).slt (BitVec.ofNat 32 w - BitVec.ofNat 32 n) then 0 else BitVec.ofNat 32 w - BitVec.ofNat 32 n

def StrFlag.counted (flag : StrFlag) (w : Nat) (cs : List Word) : List Word :=
  match flag with
  | minus => cs ++ List.replicate (padding (BitVec.ofNat 32 w) cs.length) ((chr ' ').setWidth 32)
  | flag => List.replicate (padding (BitVec.ofNat 32 w) cs.length) (flag.padc.setWidth 32) ++ cs ++
      List.replicate (padding (widthLeft w cs.length) cs.length) ((chr ' ').setWidth 32)

/-- The lengths for which the width does not wrap to a positive number. -/
def StrFlag.Fits (flag : StrFlag) (w n : Nat) : Prop :=
  match flag with
  | minus => n ≤ w + 2 ^ 31
  | _ => 2 * n ≤ w + 2 ^ 31 ∨ w + 2 ^ 32 ≤ 2 * n ∧ n ≤ w + 2 ^ 31

section
variable {w n : Nat} (hw : w < 2 ^ 31) (hn : n < 2 ^ 32)
include hw hn

theorem toNat_width_sub : (BitVec.ofNat 32 w - BitVec.ofNat 32 n : Word).toNat = (w + (2 ^ 32 - n)) % 2 ^ 32 := by
  rw [toNat_sub_ofNat hn, BitVec.toNat_ofNat, Nat.mod_eq_of_lt (Nat.lt_trans hw (by decide))]

theorem padding_eq_iff : padding (BitVec.ofNat 32 w) n = w - n ↔ n ≤ w + 2 ^ 31 := by
  rw [padding, toNat_toInt, toNat_width_sub hw hn]
  split <;> omega

theorem toNat_widthLeft : (widthLeft w n).toNat = if n ≤ w ∨ w + 2 ^ 31 < n then 0 else w + (2 ^ 32 - n) := by
  have hto := toNat_width_sub hw hn
  unfold widthLeft
  split
  · next h =>
    rw [zero_slt_iff, hto] at h
    rw [if_pos (by omega)]
    rfl
  · next h =>
    rw [zero_slt_iff, hto] at h
    rw [hto]
    split <;> omega

theorem padding_widthLeft_iff : padding (widthLeft w n) n = 0 ∧ n ≤ w + 2 ^ 31 ↔
    2 * n ≤ w + 2 ^ 31 ∨ w + 2 ^ 32 ≤ 2 * n ∧ n ≤ w + 2 ^ 31 := by
  rw [padding, toNat_toInt, toNat_sub_ofNat hn, toNat_widthLeft hw hn]
  split <;> split <;> omega

end

theorem counted_eq_field_iff (flag : StrFlag) {w : Nat} (hw : w < 2 ^ 31) {cs : List Word} (hn : cs.length < 2 ^ 32) :
    flag.counted w cs = flag.field w cs ↔ flag.Fits w cs.length := by
  have both : ∀ c : Word, (List.replicate (padding (BitVec.ofNat 32 w) cs.length) c ++ cs ++
      List.replicate (padding (widthLeft w cs.length) cs.length) ((chr ' ').setWidth 32) = List.replicate (w - cs.length) c ++ cs) ↔
      2 * cs.length ≤ w + 2 ^ 31 ∨ w + 2 ^ 32 ≤ 2 * cs.length ∧ cs.length ≤ w + 2 ^ 31 := by
    intro c
    rw [← padding_widthLeft_iff hw hn, ← padding_eq_iff hw hn]
    constructor
    · intro h
      have hl := congrArg List.length h
      simp only [List.length_append, List.length_replicate] at hl
      rcases Nat.lt_or_ge w cs.length with hlt | hge
      · omega
      · have heq := (padding_eq_iff hw hn).mpr (by omega)
        omega
    · rintro ⟨h0, heq⟩
      rw [h0, heq, List.replicate_zero, List.append_nil]
  cases flag with
  | none => exact both _
  | zero => exact both _
  | minus =>
    rw [StrFlag.counted, StrFlag.field, StrFlag.Fits, ← padding_eq_iff hw hn, List.append_cancel_left_eq]
    exact ⟨fun h => by simpa using congrArg List.length h, fun h => by rw [h]⟩

section
variable {w : Nat} {prec : Option Nat} (hw : 1 ≤ w) (hw' : w < 2 ^ 31) (hprec : ∀ n ∈ prec, 1 ≤ n ∧ n < 2 ^ 31)
include hw hw' hprec

theorem padLeft_left (flag : StrFlag) (hflag : flag.padc ≠ chr '-') {str : List Byte} (hlen : str.length < 2 ^ 32) :
    padLeft collect ⟨flag.padc, BitVec.ofNat 32 w, precisionWord prec, 0, false⟩ str [] =
      (widthLeft w (shownOf prec str.length),
        List.replicate (padding (BitVec.ofNat 32 w) (shownOf prec str.length)) (flag.padc.setWidth 32)) := by
  have hpos : (0 : Word).slt (BitVec.ofNat 32 w) := by
    rw [zero_slt_iff, BitVec.toNat_ofNat]
    omega
  have hpad : flag.padc.signExtend 32 = flag.padc.setWidth 32 := by cases flag <;> decide
  rw [padLeft, if_pos ⟨hpos, hflag⟩, (shownLength_prec hprec hlen).2]
  dsimp only
  rw [putPads_collect, List.nil_append, hpad]
  rfl

theorem convertStr_counted (flag : StrFlag) (str : CStr) (hlen : str.bytes.length < 2 ^ 32) :
    convertStr collect ⟨flag.padc, BitVec.ofNat 32 w, precisionWord prec, 0, false⟩ str [] =
      flag.counted w (chars str.bytes (shownOf prec str.bytes.length)) := by
  have hshown := (shownLength_prec hprec hlen).1
  have hcs : (chars str.bytes (shownOf prec str.bytes.length)).length = shownOf prec str.bytes.length := by
    rw [length_chars, Nat.min_eq_left (shownOf_le _ _)]
  rw [convertStr_collect, hshown]
  cases flag with
  | none =>
    rw [padLeft_left hw hw' hprec .none (by decide) hlen, StrFlag.counted, hcs]
    · rfl
    · exact StrFlag.noConfusion
  | zero =>
    rw [padLeft_left hw hw' hprec .zero (by decide) hlen, StrFlag.counted, hcs]
    · rfl
    · exact StrFlag.noConfusion
  | minus =>
    have hleft : padLeft collect ⟨StrFlag.minus.padc, BitVec.ofNat 32 w, precisionWord prec, 0, false⟩ str.bytes [] =
        (BitVec.ofNat 32 w, []) := if_neg fun h => h.2 rfl
    rw [hleft, StrFlag.counted, hcs]
    rfl

theorem emitted_strFmt (flag : StrFlag) (q : Option CStr) (hlen : (q.getD null).bytes.length < 2 ^ 32) :
    emitted (strFmt flag w prec) [.str q] = some (flag.counted w
      (chars (q.getD null).bytes (shownOf prec (q.getD null).bytes.length))) := by
  have hout := emitConv_str ⟨flag.padc, BitVec.ofNat 32 w, precisionWord prec, 0, false⟩ q []
  rw [convertStr_counted hw hw' hprec flag _ hlen] at hout
  exact emit_directive (reswitch_strBytes hw hw' hprec flag [.str q]) (by decide) hout

theorem prints_counted (flag : StrFlag) {q : Option CStr} (hq : Fmt.ArgIn mem (.str q) (.ptr p))
    (hf : Fmt.Holds fm f (strFmt flag w prec).bytes) : (q.getD null).bytes.length < 2 ^ 32 ∧
      Fmt.Prints fm mem f [.ptr p] (flag.counted w (chars (q.getD null).bytes (shownOf prec (q.getD null).bytes.length))) := by
  have hlen : (q.getD null).bytes.length < 2 ^ 32 := by
    cases hq with
    | null => decide
    | str _ h => exact h.length_lt
  exact ⟨hlen, Fmt.prints_of_emitted hf (.cons hq (.nil [])) (emitted_strFmt hw hw' hprec flag q hlen)⟩

omit hw hprec in
theorem counted_shown_iff (flag : StrFlag) {str : List Byte} (hlen : str.length < 2 ^ 32) :
    flag.counted w (chars str (shownOf prec str.length)) = flag.field w (chars str (shownOf prec str.length)) ↔
      flag.Fits w (shownOf prec str.length) := by
  have hle := shownOf_le prec str.length
  have hcs : (chars str (shownOf prec str.length)).length = shownOf prec str.length := by
    rw [length_chars, Nat.min_eq_left hle]
  rw [counted_eq_field_iff flag hw' (by omega), hcs]

/-- **`%s`** with a width fills the field just when the width does not wrap. -/
theorem strField_iff (flag : StrFlag) {q : Option CStr} (hq : Fmt.ArgIn mem (.str q) (.ptr p))
    (hf : Fmt.Holds fm f (strFmt flag w prec).bytes) :
    Fmt.Prints fm mem f [.ptr p] (flag.field w (chars (q.getD null).bytes (shownOf prec (q.getD null).bytes.length))) ↔
      flag.Fits w (shownOf prec (q.getD null).bytes.length) := by
  obtain ⟨hlen, hrun⟩ := prints_counted hw hw' hprec flag hq hf
  rw [hrun.iff_eq, counted_shown_iff hw' flag hlen]

end

theorem no_precision : ∀ n ∈ (none : Option Nat), 1 ≤ n ∧ n < 2 ^ 31 := fun _ h => by cases h

theorem holds_strFmt (flag : StrFlag) {w : Nat} (hw : w < 10) :
    Fmt.Holds (Fmt.bytesAt 0x3000 ((strFmt flag w none).bytes ++ [0])) 0x3000 (strFmt flag w none).bytes := by
  apply Fmt.holds_bytesAt
  cases flag <;> simp [strFmt, strBytes, StrFlag.text, numeral, digits_of_lt hw]

theorem strField_small : Fmt.Prints (Fmt.bytesAt 0x3000 ((strFmt .zero 3 none).bytes ++ [0]))
    (Fmt.bytesAt 0x1000 ((CStr.lit "a").bytes ++ [0])) 0x3000 [.ptr 0x1000] (StrFlag.zero.field 3 (chars [chr 'a'] 1)) := by
  have h := (strField_iff (show 1 ≤ 3 by decide) (by decide) no_precision .zero
    (.str (by decide) holds_a) (holds_strFmt .zero (by decide))).mpr (Or.inl (by decide))
  rwa [Option.getD_some, lit_a] at h

/-- Behind 2^30 + 1 bytes with a width of 1 there are pads. -/
theorem strField_wraps :
    ¬ ∀ (flag : StrFlag) (w : Nat) (prec : Option Nat) (fm mem : Fmt.Memory) (f p : Word) (q : Option CStr),
    1 ≤ w → w < 2 ^ 31 → (∀ n ∈ prec, 1 ≤ n ∧ n < 2 ^ 31) → Fmt.ArgIn mem (.str q) (.ptr p) →
    Fmt.Holds fm f (strFmt flag w prec).bytes →
    Fmt.Prints fm mem f [.ptr p] (flag.field w (chars (q.getD null).bytes (shownOf prec (q.getD null).bytes.length))) := by
  intro h
  obtain ⟨n, hn⟩ : ∃ n, n = 2 ^ 30 + 1 := ⟨_, rfl⟩
  have hlen : (List.replicate n (chr 'a')).length = n := List.length_replicate
  have hnz : ∀ b ∈ List.replicate n (chr 'a'), b ≠ 0 := by
    intro b hb
    rw [List.eq_of_mem_replicate hb]
    decide
  have hs := @Fmt.holds_bytesAt (List.replicate n (chr 'a')) 0x1000 (by omega)
  have hq : Fmt.ArgIn _ (.str (some ⟨_, hnz⟩)) (.ptr 0x1000) := .str (by decide) hs
  have hf := holds_strFmt .none (show 1 < 10 by decide)
  obtain ⟨hlt, hrun⟩ := prints_counted (show 1 ≤ 1 by decide) (by decide) no_precision .none hq hf
  have hfield := h .none 1 none _ _ 0x3000 0x1000 _ (by decide) (by decide) no_precision hq hf
  have hfits := (counted_shown_iff (by decide) .none hlt).mp (hrun.unique hfield)
  simp only [StrFlag.Fits, shownOf, Option.elim_none, Option.getD_some, hlen] at hfits
  omega

end Jos
