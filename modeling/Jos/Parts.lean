import Jos.PutcSound
import Jos.ReadlineSound
import Jos.ScanSound
import Jos.StrFieldSound

/-!
# Formats in parts

A part of a format carries its arguments and what comes of them, whatever follows.
So what a format of the kernel emits is put together from its parts.
-/

namespace Jos

open Numeral

structure Part where
  fmt : List Byte
  ap : List Arg
  out : List Word
  emits : ∀ rest ap', emit (fmt ++ rest) (ap ++ ap') = (emit rest ap').map (out ++ ·)

theorem emit_parts (ps : List Part) :
    emit (ps.flatMap (·.fmt)) (ps.flatMap (·.ap)) = some (ps.flatMap (·.out)) := by
  induction ps with
  | nil => exact emit_nil []
  | cons p ps ih =>
    rw [List.flatMap_cons, List.flatMap_cons, p.emits, ih]
    rfl

theorem emitted_parts {fmt : CStr} {ap : List Arg} (ps : List Part) (hf : fmt.bytes = ps.flatMap (·.fmt))
    (ha : ap = ps.flatMap (·.ap)) : emitted fmt ap = some (ps.flatMap (·.out)) := by
  rw [emitted_eq, hf, ha]
  exact emit_parts ps

theorem emit_flags {flags : List Byte} {c : Byte} {s : Spec} {ap : List Arg} (ap₁ : List Arg) {out : List Word}
    (hr : ∀ rest ap', reswitch Spec.init (flags ++ c :: rest) (ap ++ ap') = some (s, c, rest, ap₁ ++ ap'))
    (hc : isConversion c = true) (ho : ∀ ap', emitConv s c (ap₁ ++ ap') = some (ap', out)) (rest : List Byte) (ap' : List Arg) :
    emit (chr '%' :: (flags ++ [c]) ++ rest) (ap ++ ap') = (emit rest ap').map (out ++ ·) := by
  have hr := hr rest ap'
  rw [List.cons_append, List.append_assoc, List.singleton_append, emit_conv hr hc, ho, Option.bind_some]

/-! ## Numbers -/

theorem length_numeral_word {b : Nat} (hb : 8 ≤ b) (n : Word) : (numeral b n.toNat).length ≤ 11 := by
  rw [length_numeral]
  have hlt : n.toNat < b ^ (10 + 1) := Nat.lt_of_lt_of_le n.isLt (Nat.le_trans (by decide) (Nat.pow_le_pow_left hb 11))
  exact length_digits_le (by omega) hlt

def hexField (k : Nat) (n : Word) : List Byte :=
  List.replicate (k - (numeral 16 n.toNat).length) (chr '0') ++ numeral 16 n.toNat

theorem numeral_digit {k : Nat} (hk : k < 10) : numeral 10 k = [digitChar k] := by
  rw [numeral, digits_of_lt hk]
  rfl

theorem toNat_long (n : Word) : (n.setWidth 64 : BitVec 64).toNat = n.toNat := BitVec.toNat_setWidth_of_le (by decide)

theorem padding_hex {k : Nat} (hk : k < 10) (n : Word) :
    padding (BitVec.ofNat 32 k) (digits 16 n.toNat).length = k - (numeral 16 n.toNat).length := by
  have hlen := length_numeral_word (b := 16) (by omega) n
  rw [length_numeral] at hlen ⊢
  exact (padding_eq_iff (by omega) (by omega)).mpr (by omega)

theorem no_padding {b m : Nat} (hb : 2 ≤ b) (hm : m ≤ 2 ^ 32) : padding Spec.init.width (digits b m).length = 0 :=
  padding_none (Nat.lt_of_le_of_lt hm (by decide)) ⟨b, hb⟩

def decimal (n : Word) : List Byte :=
  if n.slt 0 then chr '-' :: numeral 10 (2 ^ 32 - n.toNat) else numeral 10 n.toNat

namespace Part

/-! ## The parts -/

def text (s : List Byte) (hs : chr '%' ∉ s) : Part where
  fmt := s
  ap := []
  out := words s
  emits _ _ := emit_literal_append hs _ _

def zeroHex (k : Nat) (h0 : k ≠ 0) (hk : k < 10) (n : Word) : Part where
  fmt := chr '%' :: ([chr '0', digitChar k] ++ [chr 'x'])
  ap := [.int n]
  out := words (hexField k n)
  emits := by
    refine emit_flags [.int n] (s := ⟨chr '0', BitVec.ofNat 32 k, -1, 0, false⟩) (fun rest ap' => ?_) (by decide) fun ap' => ?_
    · have h := reswitch_decimal (s := { Spec.init with padc := chr '0' }) h0 (show isDigit (chr 'x') = false by decide)
        rest ([.int n] ++ ap')
      rw [numeral_digit hk] at h
      exact (reswitch_zero _ _ _).trans (h.trans (reswitch_conversion (by decide)))
    · have h := emitConv_number (k := .x) (s := ⟨chr '0', BitVec.ofNat 32 k, -1, 0, false⟩) (getuint_int n ap')
      rw [toNat_long] at h
      rw [words, hexField, List.map_append, List.map_replicate, ← padding_hex hk]
      exact h

def unsigned (n : Word) : Part where
  fmt := chr '%' :: ([] ++ [chr 'u'])
  ap := [.int n]
  out := words (numeral 10 n.toNat)
  emits := by
    refine emit_flags [.int n] (s := Spec.init) (fun rest ap' => reswitch_conversion (by decide)) (by decide) fun ap' => ?_
    have h := emitConv_number (k := .u) (s := Spec.init) (getuint_int n ap')
    have hpad : padding Spec.init.width (digits (Unsigned.base .u) n.toNat).length = 0 := no_padding (by decide) (Nat.le_of_lt n.isLt)
    rw [toNat_long, hpad, List.replicate_zero, List.nil_append] at h
    exact h

def signed (n : Word) : Part where
  fmt := chr '%' :: ([] ++ [chr 'd'])
  ap := [.int n]
  out := words (decimal n)
  emits := by
    refine emit_flags [.int n] (s := Spec.init) (fun rest ap' => reswitch_conversion (by decide)) (by decide) fun ap' => ?_
    have hget : getint (.int n :: ap') Spec.init.lflag = some (n.signExtend 64, ap') := getint_int n ap'
    have hto := toNat_signExtend n
    have hlt := n.isLt
    unfold decimal
    by_cases hn : n.slt 0
    · have hge := (slt_zero_iff n).mp hn
      have h := emitConv_negative hget (by rwa [slt_signExtend])
      rw [if_pos hn] at hto
      have hneg : (-n.signExtend 64).toNat = 2 ^ 32 - n.toNat := by
        rw [BitVec.toNat_neg, hto]
        omega
      rw [hneg, no_padding (by decide) (Nat.sub_le _ _), List.replicate_zero, List.nil_append] at h
      rw [if_pos hn]
      exact h
    · have h := emitConv_natural hget (by rwa [slt_signExtend])
      rw [if_neg hn] at hto
      rw [hto, Nat.add_zero, no_padding (by decide) (Nat.le_of_lt hlt), List.replicate_zero, List.nil_append] at h
      rw [if_neg hn]
      exact h

def str (s : CStr) (hlen : s.bytes.length < 2 ^ 31) : Part where
  fmt := chr '%' :: ([] ++ [chr 's'])
  ap := [.str (some s)]
  out := s.bytes.map (shown false)
  emits := by
    refine emit_flags [.str (some s)] (s := Spec.init) (fun rest ap' => reswitch_conversion (by decide)) (by decide) fun ap' => ?_
    have hpad : (-1 - BitVec.ofNat 32 s.bytes.length : Word).toInt.toNat = 0 := (width_left_iff _).mpr (by omega)
    have h := emitConv_str Spec.init (some s) ap'
    rw [Option.getD_some, convertStr_init, hpad, List.replicate_zero, List.append_nil] at h
    exact h

theorem emits_counted {s : CStr} (hlen : s.bytes.length < 2 ^ 31) {k : Nat} (hk : k ≤ s.bytes.length) (rest : List Byte)
    (ap' : List Arg) : emit (chr '%' :: ([chr '.', chr '*'] ++ [chr 's']) ++ rest)
      ([.int (BitVec.ofNat 32 k), .str (some s)] ++ ap') = (emit rest ap').map ((s.bytes.take k).map (shown false) ++ ·) := by
  refine emit_flags [.str (some s)] (s := ⟨chr ' ', 0, BitVec.ofNat 32 k, 0, false⟩) (fun rest ap' => ?_) (by decide)
    (fun ap' => ?_) rest ap'
  · exact reswitch_dot.trans ((reswitch_star _).trans (reswitch_conversion (by decide)))
  · have h := emitConv_counted (chr ' ') (BitVec.ofNat 32 k) s (by omega) ap'
    have hk' : shownLength s.bytes (BitVec.ofNat 32 k) = k := by
      rw [shownLength, if_neg (by rw [slt_ofNat_iff (by omega)]; omega), BitVec.toNat_ofNat, Nat.mod_eq_of_lt (by omega)]
      exact Nat.min_eq_right hk
    rw [hk', if_neg (by omega), List.replicate_zero, List.append_nil] at h
    exact h

def counted (s : CStr) (hlen : s.bytes.length < 2 ^ 31) (k : Nat) (hk : k ≤ s.bytes.length) : Part where
  fmt := chr '%' :: ([chr '.', chr '*'] ++ [chr 's'])
  ap := [.int (BitVec.ofNat 32 k), .str (some s)]
  out := (s.bytes.take k).map (shown false)
  emits := emits_counted hlen hk

def pointer (p : Word) : Part where
  fmt := chr '%' :: ([] ++ [chr 'p'])
  ap := [.ptr p]
  out := words (chr '0' :: chr 'x' :: numeral 16 p.toNat)
  emits := by
    refine emit_flags [.ptr p] (s := Spec.init) (fun rest ap' => reswitch_conversion (by decide)) (by decide) fun ap' => ?_
    rw [emitConv, convert_p, List.singleton_append, vaPtr, Option.map_some, convertNum, printnum_collect, toNat_long]
    have hpad : padding Spec.init.width (digits hex p.toNat).length = 0 := no_padding (by decide) (Nat.le_of_lt p.isLt)
    rw [hpad, words, List.map_cons, List.map_cons, numeral, List.map_map, List.replicate_zero, List.append_nil]
    rfl

end Part

/-! ## What the kernel's `cprintf` puts on the console -/

theorem foldl_kernPutch (out : List Word) (b : KernOut) :
    (out.foldl (fun b ch => kernPutch ch b) b).cons = Console.puts out b.cons := by
  induction out generalizing b with
  | nil => rfl
  | cons c out ih => exact ih (kernPutch c b)

theorem cprintf_parts {fmt : CStr} {ap : List Arg} (ps : List Part) (hf : fmt.bytes = ps.flatMap (·.fmt))
    (ha : ap = ps.flatMap (·.ap)) (cons : Console) :
    Readline.cprintf fmt ap cons = .ok (Console.puts (ps.flatMap (·.out)) cons) := by
  rw [Readline.cprintf, kernVcprintf, vprintfmt_eq_emitted, emitted_parts ps hf ha, Option.map_some, Option.map_some]
  exact congrArg Except.ok (foldl_kernPutch _ _)

theorem cprintf_text {s : CStr} (hs : chr '%' ∉ s.bytes) (ap : List Arg) (cons : Console) :
    Readline.cprintf s ap cons = .ok (Console.puts (words s.bytes) cons) := by
  rw [Readline.cprintf, kernVcprintf, vprintfmt_eq_emitted, emitted_eq, emit_literal hs, Option.map_some, Option.map_some]
  exact congrArg Except.ok (foldl_kernPutch _ _)

theorem puts_append (a b : List Word) (cons : Console) : Console.puts b (Console.puts a cons) = Console.puts (a ++ b) cons :=
  List.foldl_append.symm

end Jos
