import Jos.PrintfmtMemSound
import Jos.Directive
import Jos.LiteralSound

/-!
# `%e`

The error number and its negative give the same text from the table, and all others
are printed as numbers, except for the least `int`: its negative is itself, so that it
passes for a small number and indexes the table in front of its start.
-/

namespace Jos

open Numeral

abbrev words (s : List Byte) : List Word := s.map (·.setWidth 32)

theorem vprintfmt_collect (fmt : CStr) (ap : List Arg) (d : List Word) :
    vprintfmt collect fmt ap d = (emitted fmt ap).map (d ++ ·) := emit_append fmt.bytes ap d

/-! ## The texts -/

theorem emitted_number {e : Word} (he : ¬ e.slt 0) :
    emitted (.lit "error %d") [.int e] = some (words ((CStr.lit "error ").bytes ++ numeral 10 e.toNat)) := by
  have hlit : (CStr.lit "error ").bytes = [chr 'e', chr 'r', chr 'r', chr 'o', chr 'r', chr ' '] := by decide
  have hto : (e.signExtend 64).toNat = e.toNat := by
    rw [toNat_signExtend, if_neg he]
    rfl
  have hget : getint [.int e] Spec.init.lflag = some (e.signExtend 64, []) := getint_int e []
  have hd := emitConv_natural hget (by rw [slt_signExtend]; exact he)
  have hpad : padding Spec.init.width (digits 10 e.toNat).length = 0 :=
    padding_none (Nat.lt_of_lt_of_le e.isLt (by decide)) dec
  rw [hto, hpad, List.replicate_zero, List.nil_append] at hd
  rw [emitted_eq, lit_error]
  simp only [emit_char (show chr 'e' ≠ chr '%' by decide), emit_char (show chr 'r' ≠ chr '%' by decide),
    emit_char (show chr 'o' ≠ chr '%' by decide), emit_char (show chr ' ' ≠ chr '%' by decide)]
  rw [emit_directive (reswitch_conversion (by decide)) (by decide) hd, words, List.map_append, hlit]
  rfl

theorem errorString_plain {i : Nat} {p : CStr} (h : errorString.getD i none = some p) :
    (∀ b ∈ p.bytes, b < 0x80) ∧ p.bytes.length < 2 ^ 31 := by
  have hall :
      ∀ x ∈ errorString, ∀ p, x = some p → p.bytes.all (fun b => b.toNat < 128) = true ∧ p.bytes.length < 2 ^ 31 := by
    simp only [errorString, List.forall_mem_cons, Option.some.injEq, reduceCtorEq, forall_eq', false_imp_iff,
      implies_true, true_and]
    decide +kernel
  rw [List.getD_eq_getElem?_getD] at h
  cases hx : errorString[i]? with
  | none =>
    rw [hx] at h
    cases h
  | some x =>
    rw [hx] at h
    obtain ⟨hb, hlen⟩ := hall x (List.mem_of_getElem? hx) p h
    exact ⟨fun b hm => of_decide_eq_true (List.all_eq_true.mp hb b hm), hlen⟩

theorem emitted_name {i : Nat} {p : CStr} (h : errorString.getD i none = some p) :
    emitted (.lit "%s") [.str (some p)] = some (words p.bytes) := by
  obtain ⟨hb, hlen⟩ := errorString_plain h
  have hw := (width_left_iff p.bytes.length).mpr (Or.inl (by omega))
  rw [emitted_str, hw, List.replicate_zero, List.append_nil, Option.some.injEq]
  exact List.map_inj_left.mpr fun b hm => (signExtend_eq_iff b).mpr (hb b hm)

/-! ## The conversion -/

def leastInt : Word := 0x80000000

def magnitude (err : Word) : Nat := err.toInt.natAbs

def errorText (m : Nat) : List Word :=
  match errorString.getD m none with
  | some p => words p.bytes
  | none => words ((CStr.lit "error ").bytes ++ numeral 10 m)

theorem magnitude_toNat {err : Word} (h : err ≠ leastInt) :
    (if err.slt 0 then -err else err).toNat = magnitude err ∧ magnitude err < 2 ^ 31 := by
  have hlt := err.isLt
  have hne : err.toNat ≠ 2147483648 := fun e => h (BitVec.eq_of_toNat_eq e)
  unfold magnitude
  rw [BitVec.toInt_eq_toNat_cond]
  split
  · next hs =>
    rw [slt_zero_iff] at hs
    rw [BitVec.toNat_neg, if_neg (by omega)]
    omega
  · next hs =>
    rw [slt_zero_iff] at hs
    rw [if_pos (by omega)]
    omega

theorem convertErr_text {err : Word} (h : err ≠ leastInt) (d : List Word) :
    convertErr (vprintfmt collect) err d = some (d ++ errorText (magnitude err)) := by
  obtain ⟨hm, hlt⟩ := magnitude_toNat h
  unfold convertErr
  generalize (if err.slt 0 then -err else err) = e at hm
  dsimp only
  rw [← hm] at hlt ⊢
  have hpos : ¬ e.slt 0 := fun hs => absurd ((slt_zero_iff e).mp hs) (by omega)
  have hnum : vprintfmt collect (.lit "error %d") [.int e] d =
      some (d ++ words ((CStr.lit "error ").bytes ++ numeral 10 e.toNat)) := by
    rw [vprintfmt_collect, emitted_number hpos, Option.map_some]
  split
  · next hge =>
    have hto : e.toInt = e.toNat := by rw [BitVec.toInt_eq_toNat_cond, if_pos (by omega)]
    rw [BitVec.sle, decide_eq_true_eq, show maxerror.toInt = 7 by decide, hto] at hge
    have hlen : errorString.length ≤ e.toNat := by exact_mod_cast hge
    have hout : errorString.getD e.toNat none = none := by
      rw [List.getD_eq_getElem?_getD, List.getElem?_eq_none hlen]
      rfl
    rw [hnum, errorText, hout]
  · rw [errorText]
    cases hp : errorString.getD e.toNat none with
    | none => exact hnum
    | some p =>
      dsimp only
      rw [vprintfmt_collect, emitted_name hp, Option.map_some]

theorem convertErr_least (d : List Word) : Fmt.convertErr collect leastInt d = .error .read := by
  have hneg : (if leastInt.slt 0 then -leastInt else leastInt) = leastInt := by decide
  have hat : Fmt.errorAt leastInt = .error .read := if_neg (by decide)
  unfold Fmt.convertErr
  rw [hneg]
  dsimp only
  rw [if_neg (by decide), hat, Fmt.error_bind]

def ErrorPrints (err : Word) (text : List Word) : Prop :=
  ∀ (mem : Fmt.Memory) (n : Nat) (s : Spec) (ap : List Arg) (d : List Word),
    Fmt.convert collect mem n s (chr 'e') (.int err :: ap) d = .ok (ap, d ++ text)

theorem convert_error (mem : Fmt.Memory) (n : Nat) (s : Spec) (err : Word) (ap : List Arg) (d : List Word) :
    Fmt.convert collect mem n s (chr 'e') (.int err :: ap) d =
      Fmt.convertErr collect err d >>= fun d => .ok (ap, d) := by
  rw [Fmt.convert, if_neg (by decide), if_pos rfl]
  rfl

theorem errorPrints {err : Word} (h : err ≠ leastInt) : ErrorPrints err (errorText (magnitude err)) := by
  intro mem n s ap d
  rw [convert_error, Fmt.convertErr_in (convertErr_text h d)]
  rfl

theorem not_errorPrints_least (text : List Word) : ¬ ErrorPrints leastInt text := by
  intro h
  have h := h (fun _ => none) 0 Spec.init [] []
  rw [convert_error, convertErr_least] at h
  cases h

theorem magnitude_neg {err : Word} (h : err ≠ leastInt) : -err ≠ leastInt ∧ magnitude (-err) = magnitude err := by
  have hne : err ≠ BitVec.intMin 32 := h
  refine ⟨fun he => h ?_, ?_⟩
  · rw [← BitVec.neg_neg (x := err), he]
    decide
  · rw [magnitude, magnitude, BitVec.toInt_neg_of_ne_intMin hne, Int.natAbs_neg]

theorem errorString_named {m : Nat} (h : 0 < m) (hm : m < maxerror.toNat) : ∃ p, errorString[m]? = some (some p) := by
  change m < 7 at hm
  interval_cases m <;> exact ⟨_, rfl⟩

theorem errorString_none {m : Nat} (h : ¬ (0 < m ∧ m < maxerror.toNat)) : errorString.getD m none = none := by
  change ¬ (0 < m ∧ m < 7) at h
  cases m with
  | zero => rfl
  | succ m =>
    have hlen : errorString.length ≤ m + 1 := by
      change 7 ≤ m + 1
      omega
    rw [List.getD_eq_getElem?_getD, List.getElem?_eq_none hlen]
    rfl

structure ErrorDescribed (err : Word) (text : List Word) : Prop where
  prints : ErrorPrints err text
  named : 0 < magnitude err → magnitude err < maxerror.toNat →
    (∃ p, errorString[magnitude err]? = some (some p) ∧ text = words p.bytes) ∧ ErrorPrints (-err) text
  numbered : ¬ (0 < magnitude err ∧ magnitude err < maxerror.toNat) →
    text = words ((CStr.lit "error ").bytes ++ numeral 10 (magnitude err))

theorem not_described_leastInt (text : List Word) :
    ¬ ErrorDescribed leastInt text := fun h => not_errorPrints_least text h.prints

/-- **`%e`** describes every number but the least. -/
theorem error_described_iff (err : Word) : (∃ text, ErrorDescribed err text) ↔ err ≠ leastInt := by
  constructor
  · rintro ⟨text, h⟩ rfl
    exact not_described_leastInt text h
  · intro h
    refine ⟨errorText (magnitude err), errorPrints h, fun h0 hm => ⟨?_, ?_⟩, fun hout => ?_⟩
    · obtain ⟨p, hp⟩ := errorString_named h0 hm
      refine ⟨p, hp, ?_⟩
      rw [errorText, List.getD_eq_getElem?_getD, hp]
      rfl
    · have hneg := magnitude_neg h
      rw [← hneg.2]
      exact errorPrints hneg.1
    · rw [errorText, errorString_none hout]

/-- The index of the least `int` is none of the table. -/
theorem least_undescribed : ¬ ∀ err, ∃ text, ErrorDescribed err text := by
  intro h
  obtain ⟨text, ht⟩ := h leastInt
  exact not_described_leastInt text ht

end Jos
