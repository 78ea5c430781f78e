import Jos.Printfmt

/-!
# What `vprintfmt` emits

The sink only collects: `vprintfmt` hands every sink the same characters in the
same order, those that it leaves in a list.
-/

namespace Jos

/-! ## Signed words -/

theorem slt_zero_iff (w : Word) : w.slt 0 = true ↔ 2 ^ 31 ≤ w.toNat := by
  have h := w.isLt
  rw [BitVec.slt, decide_eq_true_eq, show (0 : Word).toInt = 0 from rfl, BitVec.toInt_eq_toNat_cond]
  split <;> omega

theorem slt_ofNat_iff {n : Nat} (hn : n < 2 ^ 32) : (BitVec.ofNat 32 n).slt 0 = true ↔ 2 ^ 31 ≤ n := by
  rw [slt_zero_iff, BitVec.toNat_ofNat, Nat.mod_eq_of_lt hn]

theorem ofNat_mod (n : Nat) : BitVec.ofNat 32 (n % 2 ^ 32) = BitVec.ofNat 32 n := by
  apply BitVec.eq_of_toNat_eq
  rw [BitVec.toNat_ofNat, BitVec.toNat_ofNat, Nat.mod_mod]

theorem zero_slt_iff (w : Word) : (0 : Word).slt w = true ↔ 0 < w.toNat ∧ w.toNat < 2 ^ 31 := by
  have h := w.isLt
  rw [BitVec.slt, decide_eq_true_eq, show (0 : Word).toInt = 0 from rfl, BitVec.toInt_eq_toNat_cond]
  split <;> omega

theorem zero_sle_iff (w : Word) : (0 : Word).sle w = true ↔ w.toNat < 2 ^ 31 := by
  have h := w.isLt
  rw [BitVec.sle, decide_eq_true_eq, show (0 : Word).toInt = 0 from rfl, BitVec.toInt_eq_toNat_cond]
  split <;> omega

theorem toNat_toInt (w : Word) : w.toInt.toNat = if w.toNat < 2 ^ 31 then w.toNat else 0 := by
  have h := w.isLt
  rw [BitVec.toInt_eq_toNat_cond]
  split <;> split <;> omega

theorem toNat_sub_one {w : Word} (h : 0 < w.toNat) : (w - 1).toNat = w.toNat - 1 := by
  rw [BitVec.toNat_sub, show (1 : Word).toNat = 1 from rfl]
  omega

section
variable {σ : Type} {putch : Word → σ → σ} {printfmt : CStr → List Arg → σ → Option σ}
variable {fmt rest : List Byte} {ap ap' : List Arg} {s : Spec} {c : Byte} {d d' : σ}

/-! ## The main loop -/

theorem vprintfmtWith_nil : vprintfmtWith putch printfmt [] ap d = some d := by rw [vprintfmtWith]

theorem vprintfmtWith_char (hc : c ≠ chr '%') :
    vprintfmtWith putch printfmt (c :: fmt) ap d = vprintfmtWith putch printfmt fmt ap (putch (c.setWidth 32) d) := by
  rw [vprintfmtWith, if_pos hc]

theorem vprintfmtWith_undefined (h : reswitch Spec.init fmt ap = none) :
    vprintfmtWith putch printfmt (chr '%' :: fmt) ap d = none := by
  rw [vprintfmtWith, if_neg (not_not.mpr rfl)]
  split
  · rfl
  · next he => rw [h] at he; cases he

theorem vprintfmtWith_conv (h : reswitch Spec.init fmt ap = some (s, c, rest, ap')) (hc : isConversion c = true) :
    vprintfmtWith putch printfmt (chr '%' :: fmt) ap d =
      (convert putch printfmt s c ap' d).bind fun x => vprintfmtWith putch printfmt rest x.1 x.2 := by
  rw [vprintfmtWith, if_neg (not_not.mpr rfl)]
  split
  · next he => rw [h] at he; cases he
  · next he =>
    rw [h] at he
    cases he
    rw [if_pos hc]
    cases convert putch printfmt s c ap' d <;> rfl

theorem vprintfmtWith_default (h : reswitch Spec.init fmt ap = some (s, c, rest, ap')) (hc : isConversion c ≠ true) :
    vprintfmtWith putch printfmt (chr '%' :: fmt) ap d =
      vprintfmtWith putch printfmt fmt ap' (putch ((chr '%').setWidth 32) d) := by
  rw [vprintfmtWith, if_neg (not_not.mpr rfl)]
  split
  · next he => rw [h] at he; cases he
  · next he =>
    rw [h] at he
    cases he
    rw [if_neg hc]

/-! ## The conversions -/

theorem isConversion_cases (h : isConversion c = true) :
    c = chr 'c' ∨ c = chr 'e' ∨ c = chr 's' ∨ c = chr 'd' ∨ c = chr 'u' ∨ c = chr 'o' ∨ c = chr 'p' ∨ c = chr 'x' ∨
      c = chr '%' := by
  simpa only [isConversion, List.contains_eq_mem, decide_eq_true_eq, List.mem_cons, List.not_mem_nil, or_false] using h

theorem reswitch_conversion (hc : isConversion c = true) : reswitch s (c :: fmt) ap = some (s, c, fmt, ap) := by
  rw [reswitch]
  rcases isConversion_cases hc with rfl | rfl | rfl | rfl | rfl | rfl | rfl | rfl | rfl <;>
    rw [if_neg (by decide), if_neg (by decide), dif_neg (by decide), if_neg (by decide), if_neg (by decide),
      if_neg (by decide), if_neg (by decide)]

theorem convert_c : convert putch printfmt s (chr 'c') ap d =
    (vaInt ap).map fun x => (x.2, putch x.1 d) := by
  rw [convert, if_pos rfl]

theorem convert_e : convert putch printfmt s (chr 'e') ap d =
    (vaInt ap).bind fun x => (convertErr printfmt x.1 d).map (x.2, ·) := by
  rw [convert, if_neg (by decide), if_pos rfl]

theorem convert_s : convert putch printfmt s (chr 's') ap d =
    (vaStr ap).map fun x => (x.2, convertStr putch s (x.1.getD null) d) := by
  rw [convert, if_neg (by decide), if_neg (by decide), if_pos rfl]

theorem convert_d : convert putch printfmt s (chr 'd') ap d =
    (getint ap s.lflag).map fun x =>
      if x.1.slt 0 then (x.2, convertNum putch s (-x.1) dec (putch ((chr '-').setWidth 32) d))
      else (x.2, convertNum putch s x.1 dec d) := by
  rw [convert, if_neg (by decide), if_neg (by decide), if_neg (by decide), if_pos rfl]

def unsignedBase (c : Byte) : Base := if c = chr 'u' then dec else if c = chr 'o' then oct else hex

theorem convert_unsigned (hc : c = chr 'u' ∨ c = chr 'o' ∨ c = chr 'x') : convert putch printfmt s c ap d =
    (getuint ap s.lflag).map fun x => (x.2, convertNum putch s x.1 (unsignedBase c) d) := by
  rcases hc with rfl | rfl | rfl
  · rw [convert, if_neg (by decide), if_neg (by decide), if_neg (by decide), if_neg (by decide), if_pos rfl]
    rfl
  · rw [convert, if_neg (by decide), if_neg (by decide), if_neg (by decide), if_neg (by decide), if_neg (by decide),
      if_pos rfl]
    rfl
  · rw [convert, if_neg (by decide), if_neg (by decide), if_neg (by decide), if_neg (by decide), if_neg (by decide),
      if_neg (by decide), if_neg (by decide), if_pos rfl]
    rfl

theorem convert_p : convert putch printfmt s (chr 'p') ap d =
    (vaPtr ap).map fun x => (x.2, convertNum putch s (x.1.setWidth 64) hex
      (putch ((chr 'x').setWidth 32) (putch ((chr '0').setWidth 32) d))) := by
  rw [convert, if_neg (by decide), if_neg (by decide), if_neg (by decide), if_neg (by decide), if_neg (by decide),
    if_neg (by decide), if_pos rfl]

theorem convert_percent : convert putch printfmt s (chr '%') ap d = some (ap, putch ((chr '%').setWidth 32) d) := by
  rw [convert, if_neg (by decide), if_neg (by decide), if_neg (by decide), if_neg (by decide), if_neg (by decide),
    if_neg (by decide), if_neg (by decide), if_neg (by decide)]

theorem printnum_high {base : Base} {num : Nat} (h : base ≤ num) (width : Word) (padc : Byte) :
    printnum putch num base width padc d =
      putch ((digitChar (num % base)).setWidth 32) (printnum putch (num / base) base (width - 1) padc d) := by
  rw [printnum, if_pos h]

theorem printnum_last {base : Base} {num : Nat} (h : num < base) (width : Word) (padc : Byte) :
    printnum putch num base width padc d =
      putch ((digitChar num).setWidth 32) ((putch (padc.signExtend 32))^[(width - 1).toInt.toNat] d) := by
  rw [printnum, if_neg (Nat.not_le.mpr h), Nat.mod_eq_of_lt h]

end

/-! ## One sink through another -/

section
variable {σ τ : Type} {putch : Word → σ → σ} {putch' : Word → τ → τ} {f : σ → τ}
  (hf : ∀ c d, f (putch c d) = putch' c (f d))
include hf

theorem iterate_map (c : Word) (n : Nat) (d : σ) : f ((putch c)^[n] d) = (putch' c)^[n] (f d) := by
  induction n generalizing d with
  | zero => rfl
  | succ n ih => rw [Function.iterate_succ_apply, Function.iterate_succ_apply, ih, hf]

theorem putPads_map (c width : Word) (d : σ) : f (putPads putch c width d) = putPads putch' c width (f d) :=
  iterate_map hf c _ d

theorem printnum_map (base : Base) (padc : Byte) (num : Nat) (width : Word) (d : σ) :
    f (printnum putch num base width padc d) = printnum putch' num base width padc (f d) := by
  induction num using Nat.strong_induction_on generalizing width with
  | _ num ih =>
    rcases Nat.lt_or_ge num base with h | h
    · rw [printnum_last h, printnum_last h, hf, iterate_map hf]
    · have hb := base.2
      rw [printnum_high h, printnum_high h, hf, ih _ (Nat.div_lt_self (by omega) (by omega))]

theorem putStr_map (alt : Bool) (p : List Byte) (precision width : Word) (d : σ) :
    putStr putch' alt p precision width (f d) =
      ((putStr putch alt p precision width d).1, f (putStr putch alt p precision width d).2) := by
  induction p generalizing precision width d with
  | nil => rfl
  | cons b p ih =>
    rw [putStr, putStr]
    split
    · dsimp only
      rw [← hf, ih]
    · rfl

theorem padLeft_map (s : Spec) (p : List Byte) (d : σ) :
    padLeft putch' s p (f d) = ((padLeft putch s p d).1, f (padLeft putch s p d).2) := by
  unfold padLeft
  split
  · dsimp only
    rw [putPads_map hf]
  · rfl

theorem convertStr_map (s : Spec) (p : CStr) (d : σ) : f (convertStr putch s p d) = convertStr putch' s p (f d) := by
  rw [convertStr, convertStr, putPads_map hf, padLeft_map hf, putStr_map hf]

theorem convertNum_map (s : Spec) (num : BitVec 64) (base : Base) (d : σ) :
    f (convertNum putch s num base d) = convertNum putch' s num base (f d) := printnum_map hf base s.padc num.toNat s.width d

variable {printfmt : CStr → List Arg → σ → Option σ} {printfmt' : CStr → List Arg → τ → Option τ}

omit hf in
theorem convertErr_map (hp : ∀ fmt ap d, printfmt' fmt ap (f d) = (printfmt fmt ap d).map f) (err : Word) (d : σ) :
    convertErr printfmt' err (f d) = (convertErr printfmt err d).map f := by
  unfold convertErr
  generalize (if err.slt 0 then -err else err) = err
  dsimp only
  split
  · rw [hp]
  · split
    · rfl
    · split <;> rw [hp]

variable (hp : ∀ err d, convertErr printfmt' err (f d) = (convertErr printfmt err d).map f)
include hp

theorem convert_map (s : Spec) {c : Byte} (hc : isConversion c = true) (ap : List Arg) (d : σ) :
    convert putch' printfmt' s c ap (f d) = (convert putch printfmt s c ap d).map fun x => (x.1, f x.2) := by
  have hu : ∀ c, c = chr 'u' ∨ c = chr 'o' ∨ c = chr 'x' →
      convert putch' printfmt' s c ap (f d) = (convert putch printfmt s c ap d).map fun x => (x.1, f x.2) := by
    intro c hc
    rw [convert_unsigned hc, convert_unsigned hc, Option.map_map]
    exact congrArg (Option.map · _) (funext fun x => by rw [Function.comp_apply, convertNum_map hf])
  rcases isConversion_cases hc with rfl | rfl | rfl | rfl | rfl | rfl | rfl | rfl | rfl
  · rw [convert_c, convert_c, Option.map_map]
    exact congrArg (Option.map · _) (funext fun x => by rw [Function.comp_apply, hf])
  · rw [convert_e, convert_e, Option.map_bind]
    refine congrArg (Option.bind _) (funext fun x => ?_)
    rw [Function.comp_apply, hp, Option.map_map, Option.map_map]
    rfl
  · rw [convert_s, convert_s, Option.map_map]
    exact congrArg (Option.map · _) (funext fun x => by rw [Function.comp_apply, convertStr_map hf])
  · rw [convert_d, convert_d, Option.map_map]
    refine congrArg (Option.map · _) (funext fun x => ?_)
    rw [Function.comp_apply]
    split
    · rw [convertNum_map hf, hf]
    · rw [convertNum_map hf]
  · exact hu _ (Or.inl rfl)
  · exact hu _ (Or.inr (Or.inl rfl))
  · rw [convert_p, convert_p, Option.map_map]
    exact congrArg (Option.map · _) (funext fun x => by rw [Function.comp_apply, convertNum_map hf, hf, hf])
  · exact hu _ (Or.inr (Or.inr rfl))
  · rw [convert_percent, convert_percent, Option.map_some, hf]

theorem vprintfmtWith_map (fmt : List Byte) (ap : List Arg) (d : σ) :
    vprintfmtWith putch' printfmt' fmt ap (f d) = (vprintfmtWith putch printfmt fmt ap d).map f := by
  induction hn : fmt.length using Nat.strong_induction_on generalizing fmt ap d with
  | _ n ih =>
    subst hn
    cases fmt with
    | nil => rw [vprintfmtWith_nil, vprintfmtWith_nil, Option.map_some]
    | cons c fmt =>
      by_cases hc : c = chr '%'
      · subst hc
        cases hr : reswitch Spec.init fmt ap with
        | none => rw [vprintfmtWith_undefined hr, vprintfmtWith_undefined hr, Option.map_none]
        | some x =>
          obtain ⟨s, c, rest, ap'⟩ := x
          by_cases hcc : isConversion c = true
          · rw [vprintfmtWith_conv hr hcc, vprintfmtWith_conv hr hcc, convert_map hf hp s hcc]
            cases convert putch printfmt s c ap' d with
            | none => rfl
            | some x => exact ih rest.length (Nat.lt_succ_of_le (reswitch_length hr)) rest x.1 x.2 rfl
          · rw [vprintfmtWith_default hr hcc, vprintfmtWith_default hr hcc, ← hf]
            exact ih fmt.length (Nat.lt_succ_self _) fmt ap' _ rfl
      · rw [vprintfmtWith_char hc, vprintfmtWith_char hc, ← hf]
        exact ih fmt.length (Nat.lt_succ_self _) fmt ap _ rfl

end

theorem vprintfmt_map {σ τ : Type} {putch : Word → σ → σ} {putch' : Word → τ → τ} {f : σ → τ}
    (hf : ∀ c d, f (putch c d) = putch' c (f d)) (fmt : CStr) (ap : List Arg) (d : σ) :
    vprintfmt putch' fmt ap (f d) = (vprintfmt putch fmt ap d).map f := by
  have h0 : ∀ err d, convertErr (fun _ _ _ => none) err (f d) = (convertErr (fun _ _ _ => none) err d).map f :=
    convertErr_map fun _ _ _ => rfl
  exact vprintfmtWith_map hf (convertErr_map fun fmt ap d => vprintfmtWith_map hf h0 fmt.bytes ap d) fmt.bytes ap d

/-! ## The formats of `%e` -/

section
variable {σ : Type} {putch : Word → σ → σ} {printfmt printfmt' : CStr → List Arg → σ → Option σ}

theorem vprintfmtWith_last {c : Byte} (hc : c = chr 's' ∨ c = chr 'd') (ap : List Arg) (d : σ) :
    vprintfmtWith putch printfmt [chr '%', c] ap d = vprintfmtWith putch printfmt' [chr '%', c] ap d := by
  have hconv : isConversion c = true := by rcases hc with rfl | rfl <;> decide
  have hsame : convert putch printfmt Spec.init c ap d = convert putch printfmt' Spec.init c ap d := by
    rcases hc with rfl | rfl
    · rw [convert_s, convert_s]
    · rw [convert_d, convert_d]
  rw [vprintfmtWith_conv (reswitch_conversion hconv) hconv, vprintfmtWith_conv (reswitch_conversion hconv) hconv, hsame]
  exact congrArg (Option.bind _) (funext fun x => by rw [vprintfmtWith_nil, vprintfmtWith_nil])

theorem lit_str : (CStr.lit "%s").bytes = [chr '%', chr 's'] := by decide

theorem lit_error : (CStr.lit "error %d").bytes =
    [chr 'e', chr 'r', chr 'r', chr 'o', chr 'r', chr ' ', chr '%', chr 'd'] := by decide

theorem plain_str (ap : List Arg) (d : σ) : vprintfmtPlain putch (.lit "%s") ap d = vprintfmt putch (.lit "%s") ap d := by
  rw [vprintfmtPlain, vprintfmt, lit_str]
  exact vprintfmtWith_last (Or.inl rfl) ap d

theorem plain_error (ap : List Arg) (d : σ) :
    vprintfmtPlain putch (.lit "error %d") ap d = vprintfmt putch (.lit "error %d") ap d := by
  rw [vprintfmtPlain, vprintfmt, lit_error]
  simp only [vprintfmtWith_char (show chr 'e' ≠ chr '%' by decide), vprintfmtWith_char (show chr 'r' ≠ chr '%' by decide),
    vprintfmtWith_char (show chr 'o' ≠ chr '%' by decide), vprintfmtWith_char (show chr ' ' ≠ chr '%' by decide)]
  exact vprintfmtWith_last (Or.inr rfl) ap _

theorem convertErr_plain (err : Word) (d : σ) : convertErr (vprintfmtPlain putch) err d = convertErr (vprintfmt putch) err d := by
  unfold convertErr
  simp only [plain_str, plain_error]

theorem vprintfmtWith_congr (h : ∀ err d, convertErr printfmt err d = convertErr printfmt' err d) (fmt : List Byte)
    (ap : List Arg) (d : σ) : vprintfmtWith putch printfmt fmt ap d = vprintfmtWith putch printfmt' fmt ap d := by
  have hid : ∀ err d, convertErr printfmt err (id d) = (convertErr printfmt' err d).map id := fun err d => by
    rw [Option.map_id, id, id, h]
  have hf : ∀ c d, id (putch c d) = putch c (id d) := fun _ _ => rfl
  have he := vprintfmtWith_map hf hid fmt ap d
  rwa [Option.map_id] at he

theorem vprintfmt_eq (fmt : CStr) (ap : List Arg) (d : σ) :
    vprintfmt putch fmt ap d = vprintfmtWith putch (vprintfmt putch) fmt.bytes ap d :=
  vprintfmtWith_congr convertErr_plain fmt.bytes ap d

end

/-! ## The characters -/

def collect (ch : Word) (out : List Word) : List Word := out ++ [ch]

def emitted (fmt : CStr) (ap : List Arg) : Option (List Word) := vprintfmt collect fmt ap []

theorem vprintfmt_eq_emitted {σ : Type} (putch : Word → σ → σ) (fmt : CStr) (ap : List Arg) (d : σ) :
    vprintfmt putch fmt ap d = (emitted fmt ap).map (·.foldl (fun d ch => putch ch d) d) := by
  refine vprintfmt_map (f := fun out => out.foldl (fun d ch => putch ch d) d) (fun c out => ?_) fmt ap []
  rw [collect, List.foldl_append, List.foldl_cons, List.foldl_nil]

theorem foldl_collect (out d : List Word) : out.foldl (fun d ch => collect ch d) d = d ++ out := by
  induction out generalizing d with
  | nil => exact (List.append_nil d).symm
  | cons c out ih =>
    rw [List.foldl_cons, ih, collect, List.append_assoc, List.singleton_append]

theorem append_collect (out : List Word) (c : Word) (d : List Word) : out ++ collect c d = collect c (out ++ d) :=
  (List.append_assoc ..).symm

theorem iterate_collect (c : Word) (n : Nat) (d : List Word) : (collect c)^[n] d = d ++ List.replicate n c := by
  induction n generalizing d with
  | zero => rw [Function.iterate_zero_apply, List.replicate_zero, List.append_nil]
  | succ n ih => rw [Function.iterate_succ_apply, ih, collect, List.append_assoc, List.singleton_append, List.replicate_succ]

theorem putPads_collect (c width : Word) (d : List Word) :
    putPads collect c width d = d ++ List.replicate width.toInt.toNat c := iterate_collect c _ d

def emit (fmt : List Byte) (ap : List Arg) : Option (List Word) := vprintfmtWith collect (vprintfmtPlain collect) fmt ap []

def emitConv (s : Spec) (c : Byte) (ap : List Arg) : Option (List Arg × List Word) :=
  convert collect (vprintfmtPlain collect) s c ap []

theorem emitted_eq (fmt : CStr) (ap : List Arg) : emitted fmt ap = emit fmt.bytes ap := rfl

theorem vprintfmtPlain_append (fmt : CStr) (ap : List Arg) (out d : List Word) :
    vprintfmtPlain collect fmt ap (out ++ d) = (vprintfmtPlain collect fmt ap d).map (out ++ ·) :=
  vprintfmtWith_map (append_collect out) (convertErr_map fun _ _ _ => rfl) fmt.bytes ap d

theorem emit_append (fmt : List Byte) (ap : List Arg) (out : List Word) :
    vprintfmtWith collect (vprintfmtPlain collect) fmt ap out = (emit fmt ap).map (out ++ ·) := by
  have h := vprintfmtWith_map (append_collect out)
    (convertErr_map fun fmt ap d => vprintfmtPlain_append fmt ap out d) fmt ap []
  rwa [List.append_nil] at h

theorem emit_nil (ap : List Arg) : emit [] ap = some [] := vprintfmtWith_nil

theorem emit_char {c : Byte} (hc : c ≠ chr '%') (fmt : List Byte) (ap : List Arg) :
    emit (c :: fmt) ap = (emit fmt ap).map (c.setWidth 32 :: ·) := by
  rw [emit, vprintfmtWith_char hc, emit_append]
  rfl

theorem emit_literal {s : List Byte} (hs : chr '%' ∉ s) (ap : List Arg) : emit s ap = some (s.map (·.setWidth 32)) := by
  induction s with
  | nil => exact emit_nil ap
  | cons b s ih =>
    rw [List.mem_cons, not_or] at hs
    rw [emit_char (Ne.symm hs.1), ih hs.2, Option.map_some, List.map_cons]

theorem emit_undefined {fmt : List Byte} {ap : List Arg} (h : reswitch Spec.init fmt ap = none) :
    emit (chr '%' :: fmt) ap = none := vprintfmtWith_undefined h

theorem emit_conv {fmt rest : List Byte} {ap ap' : List Arg} {s : Spec} {c : Byte}
    (h : reswitch Spec.init fmt ap = some (s, c, rest, ap')) (hc : isConversion c = true) :
    emit (chr '%' :: fmt) ap = (emitConv s c ap').bind fun x => (emit rest x.1).map (x.2 ++ ·) := by
  rw [emit, vprintfmtWith_conv h hc]
  exact congrArg (Option.bind _) (funext fun x => emit_append rest x.1 x.2)

theorem emit_default {fmt rest : List Byte} {ap ap' : List Arg} {s : Spec} {c : Byte}
    (h : reswitch Spec.init fmt ap = some (s, c, rest, ap')) (hc : isConversion c ≠ true) :
    emit (chr '%' :: fmt) ap = (emit fmt ap').map ((chr '%').setWidth 32 :: ·) := by
  rw [emit, vprintfmtWith_default h hc, emit_append]
  rfl

/-! ## Strings -/

def shownLength (p : List Byte) (precision : Word) : Nat :=
  if precision.slt 0 then p.length else min p.length precision.toNat

def shown (altflag : Bool) (b : Byte) : Word :=
  if altflag ∧ ((b.signExtend 32).slt 0x20 ∨ (0x7E : Word).slt (b.signExtend 32)) then 0x3F else b.signExtend 32

theorem shownLength_cons (b : Byte) (p : List Byte) {precision : Word}
    (h : precision.slt 0 ∨ (0 : Word).sle (precision - 1)) :
    shownLength (b :: p) precision = shownLength p (if precision.slt 0 then precision else precision - 1) + 1 := by
  by_cases hn : precision.slt 0
  · rw [if_pos hn, shownLength, shownLength, if_pos hn, if_pos hn, List.length_cons]
  · have h1 := (zero_sle_iff _).mp (h.resolve_left hn)
    have h0 : precision ≠ 0 := by
      rintro rfl
      exact absurd h1 (by decide)
    have hpos : 0 < precision.toNat := by
      have : precision.toNat ≠ 0 := fun he => h0 (BitVec.eq_of_toNat_eq he)
      omega
    have hn' : ¬ (precision - 1).slt 0 := fun hs => absurd ((slt_zero_iff _).mp hs) (by omega)
    rw [if_neg hn, shownLength, shownLength, if_neg hn, if_neg hn', List.length_cons, toNat_sub_one hpos]
    omega

theorem shownLength_stop (p : List Byte) {precision : Word}
    (h : ¬ (precision.slt 0 ∨ (0 : Word).sle (precision - 1))) : shownLength p precision = 0 := by
  rw [not_or, slt_zero_iff, zero_sle_iff] at h
  have hz : precision.toNat = 0 := by
    by_contra hne
    have := toNat_sub_one (w := precision) (by omega)
    omega
  rw [shownLength, if_neg (by rw [slt_zero_iff]; omega), hz, Nat.min_zero]

theorem putStr_collect (alt : Bool) (p : List Byte) (precision width : Word) (d : List Word) :
    putStr collect alt p precision width d =
      (width - BitVec.ofNat 32 (shownLength p precision), d ++ (p.take (shownLength p precision)).map (shown alt)) := by
  induction p generalizing precision width d with
  | nil =>
    have h : shownLength [] precision = 0 := by
      rw [shownLength, List.length_nil, Nat.zero_min, ite_self]
    rw [putStr, h, BitVec.sub_zero, List.take_zero, List.map_nil, List.append_nil]
  | cons b p ih =>
    rw [putStr]
    split
    · next h =>
      dsimp only
      rw [ih, shownLength_cons b p h, List.take_succ_cons, List.map_cons, collect, List.append_assoc, List.singleton_append,
        BitVec.ofNat_add, BitVec.sub_sub, BitVec.add_comm 1]
      rfl
    · next h =>
      rw [shownLength_stop (b :: p) h, BitVec.sub_zero, List.take_zero, List.map_nil, List.append_nil]

theorem padLeft_narrow {σ : Type} {putch : Word → σ → σ} {s : Spec} (h : ¬ (0 : Word).slt s.width) (p : List Byte) (d : σ) :
    padLeft putch s p d = (s.width, d) := if_neg fun hc => h hc.1

theorem convertStr_collect (s : Spec) (p : CStr) (d : List Word) :
    convertStr collect s p d =
      (padLeft collect s p.bytes d).2 ++ (p.bytes.take (shownLength p.bytes s.precision)).map (shown s.altflag) ++
        List.replicate ((padLeft collect s p.bytes d).1 - BitVec.ofNat 32 (shownLength p.bytes s.precision)).toInt.toNat
          ((chr ' ').setWidth 32) := by
  rw [convertStr, putStr_collect, putPads_collect]

theorem convertStr_init (p : CStr) :
    convertStr collect Spec.init p [] = p.bytes.map (·.signExtend 32) ++
      List.replicate (-1 - BitVec.ofNat 32 p.bytes.length : Word).toInt.toNat ((chr ' ').setWidth 32) := by
  have hl : shownLength p.bytes Spec.init.precision = p.bytes.length := if_pos rfl
  rw [convertStr_collect, hl, padLeft_narrow (by decide), List.take_length]
  rfl

theorem emitConv_str (s : Spec) (p : Option CStr) (ap : List Arg) :
    emitConv s (chr 's') (.str p :: ap) = some (ap, convertStr collect s (p.getD null) []) := by
  rw [emitConv, convert_s]
  rfl

theorem emitted_str (p : CStr) (ap : List Arg) :
    emitted (.lit "%s") (.str (some p) :: ap) = some (p.bytes.map (·.signExtend 32) ++
      List.replicate (-1 - BitVec.ofNat 32 p.bytes.length : Word).toInt.toNat ((chr ' ').setWidth 32)) := by
  rw [emitted_eq, lit_str, emit_conv (reswitch_conversion (by decide)) (by decide), emitConv_str, Option.bind_some, emit_nil,
    Option.getD_some, convertStr_init, Option.map_some, List.append_nil]

end Jos
