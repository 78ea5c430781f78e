import Jos.Emit

/-!
# The count that the printing functions return

The sinks of the user library and of `vsnprintf` count every character. The
kernel's increments the pointer to its count, so that its `vcprintf` returns 0.
-/

namespace Jos

/-! ## The sinks -/

section
variable (out : List Word)

theorem kernPutch_cnt (b : KernOut) : (out.foldl (fun b ch => kernPutch ch b) b).cnt = b.cnt := by
  induction out generalizing b with
  | nil => rfl
  | cons ch out ih =>
    rw [List.foldl_cons, ih]
    rfl

theorem userPutch_cnt (ch : Word) (b : Printbuf) : (userPutch ch b).cnt = b.cnt + 1 := by
  unfold userPutch
  dsimp only
  split <;> rfl

theorem sprintputch_cnt (ch : Word) (b : Sprintbuf) : (sprintputch ch b).cnt = b.cnt + 1 := by
  unfold sprintputch
  dsimp only
  split <;> rfl

theorem foldl_count {σ : Type} {putch : Word → σ → σ} {cnt : σ → Word} (h : ∀ ch d, cnt (putch ch d) = cnt d + 1) (d : σ) :
    cnt (out.foldl (fun d ch => putch ch d) d) = cnt d + BitVec.ofNat 32 out.length := by
  induction out generalizing d with
  | nil =>
    rw [List.length_nil, BitVec.add_zero]
    rfl
  | cons ch out ih =>
    rw [List.foldl_cons, ih, h, List.length_cons, BitVec.ofNat_add, BitVec.add_assoc, BitVec.add_comm 1]
    rfl

end

/-! ## Formats that print nothing -/

/-- The conversions are `%s` of an empty string, or with the precision 0, and without a width. -/
inductive Silent : List Byte → List Arg → Prop
  | nil (ap : List Arg) : Silent [] ap
  | str {fmt rest : List Byte} {ap ap' ap'' : List Arg} {s : Spec} {p : Option CStr}
      (conv : reswitch Spec.init fmt ap = some (s, chr 's', rest, ap')) (arg : vaStr ap' = some (p, ap''))
      (width : ¬ (0 : Word).slt s.width) (empty : (p.getD null).bytes = [] ∨ s.precision = 0)
      (tail : Silent rest ap'') : Silent (chr '%' :: fmt) ap

theorem shownLength_eq_zero (p : List Byte) (precision : Word) : shownLength p precision = 0 ↔ p = [] ∨ precision = 0 := by
  have hz : precision = 0 ↔ precision.toNat = 0 := by
    rw [← BitVec.toNat_inj]
    rfl
  unfold shownLength
  rw [hz, ← List.length_eq_zero_iff]
  split
  · next h =>
    rw [slt_zero_iff] at h
    omega
  · omega

theorem strnlen_empty {p : List Byte} {precision : Word} (h : p = [] ∨ precision = 0) : strnlen p precision = 0 := by
  have hm : min p.length precision.toNat = 0 := by
    rcases h with rfl | rfl
    · exact Nat.zero_min _
    · exact Nat.min_zero _
  rw [strnlen, hm]
  rfl

theorem pads_pos {w : Word} (h : (0 : Word).slt w) : w.toInt.toNat ≠ 0 := by
  rw [zero_slt_iff] at h
  rw [toNat_toInt, if_pos h.2]
  omega

theorem pads_zero {w : Word} (h : ¬ (0 : Word).slt w) : w.toInt.toNat = 0 := by
  rw [zero_slt_iff] at h
  rw [toNat_toInt]
  split <;> omega

theorem convertStr_eq_nil_iff (s : Spec) (p : CStr) :
    convertStr collect s p [] = [] ↔ ¬ (0 : Word).slt s.width ∧ (p.bytes = [] ∨ s.precision = 0) := by
  rw [convertStr_collect, List.append_eq_nil_iff, List.append_eq_nil_iff, List.map_eq_nil_iff, List.replicate_eq_nil_iff]
  have htake : p.bytes.take (shownLength p.bytes s.precision) = [] ↔ p.bytes = [] ∨ s.precision = 0 := by
    rw [List.take_eq_nil_iff, shownLength_eq_zero]
    tauto
  rw [htake]
  constructor
  · rintro ⟨⟨hleft, hempty⟩, hright⟩
    refine ⟨fun hw => ?_, hempty⟩
    rw [(shownLength_eq_zero _ _).mpr hempty, BitVec.sub_zero] at hright
    unfold padLeft at hleft hright
    split at hleft
    · dsimp only at hleft
      rw [strnlen_empty hempty, show s.width - 0 = s.width from BitVec.sub_zero _, putPads_collect, List.nil_append,
        List.replicate_eq_nil_iff] at hleft
      exact pads_pos hw hleft
    · next hn =>
      rw [if_neg hn] at hright
      exact pads_pos hw hright
  · rintro ⟨hw, hempty⟩
    have hp : padLeft collect s p.bytes [] = (s.width, []) := if_neg fun h => hw h.1
    rw [hp, (shownLength_eq_zero _ _).mpr hempty, BitVec.sub_zero]
    exact ⟨⟨rfl, hempty⟩, pads_zero hw⟩

theorem printnum_ne_nil (num : Nat) (base : Base) (width : Word) (padc : Byte) (d : List Word) :
    printnum collect num base width padc d ≠ [] := by
  rcases Nat.lt_or_ge num base with h | h
  · rw [printnum_last h]
    exact List.concat_ne_nil _ _
  · rw [printnum_high h]
    exact List.concat_ne_nil _ _

theorem convertNum_ne_nil (s : Spec) (num : BitVec 64) (base : Base) (d : List Word) : convertNum collect s num base d ≠ [] :=
  printnum_ne_nil num.toNat base s.width s.padc d

theorem errorString_ne_nil {n : Nat} {p : CStr} (h : errorString.getD n none = some p) : p.bytes ≠ [] := by
  have hall : ∀ x ∈ errorString, ∀ p, x = some p → p.bytes ≠ [] := by
    simp only [errorString, List.forall_mem_cons, Option.some.injEq, reduceCtorEq, forall_eq', false_imp_iff,
      implies_true, true_and]
    decide +kernel
  rw [List.getD_eq_getElem?_getD] at h
  cases hx : errorString[n]? with
  | none =>
    rw [hx] at h
    cases h
  | some x =>
    rw [hx] at h
    exact hall x (List.mem_of_getElem? hx) p h

theorem emitted_str_ne_nil {p : CStr} (hp : p.bytes ≠ []) {out : List Word}
    (h : emitted (.lit "%s") [.str (some p)] = some out) : out ≠ [] := by
  rw [emitted_str] at h
  obtain rfl := Option.some.inj h
  intro hn
  exact hp (List.map_eq_nil_iff.mp (List.append_eq_nil_iff.mp hn).1)

theorem emitted_error_ne_nil {err : Word} {out : List Word}
    (h : emitted (.lit "error %d") [.int err] = some out) : out ≠ [] := by
  rw [emitted_eq, lit_error, emit_char (by decide), Option.map_eq_some_iff] at h
  obtain ⟨out', _, rfl⟩ := h
  exact List.cons_ne_nil _ _

theorem convertErr_ne_nil {err : Word} {out : List Word} (h : convertErr (vprintfmt collect) err [] = some out) :
    out ≠ [] := by
  unfold convertErr at h
  generalize (if err.slt 0 then -err else err) = e at h
  dsimp only at h
  split at h
  · exact emitted_error_ne_nil h
  split at h
  · cases h
  split at h
  · exact emitted_error_ne_nil h
  · next p he => exact emitted_str_ne_nil (errorString_ne_nil he) h

theorem emitConv_str_inv {s : Spec} {ap ap' : List Arg} {out : List Word} (h : emitConv s (chr 's') ap = some (ap', out)) :
    ∃ p, vaStr ap = some (p, ap') ∧ out = convertStr collect s (p.getD null) [] := by
  rw [emitConv, convert_s, Option.map_eq_some_iff] at h
  obtain ⟨⟨p, ap''⟩, hp, hx⟩ := h
  cases hx
  exact ⟨p, hp, rfl⟩

theorem emitConv_eq_nil_iff {s : Spec} {c : Byte} {ap ap' : List Arg} {out : List Word} (hc : isConversion c = true)
    (h : emitConv s c ap = some (ap', out)) :
    out = [] ↔ c = chr 's' ∧ ∃ p, vaStr ap = some (p, ap') ∧ ¬ (0 : Word).slt s.width ∧
      ((p.getD null).bytes = [] ∨ s.precision = 0) := by
  have other : c ≠ chr 's' → out ≠ [] → (out = [] ↔ c = chr 's' ∧ ∃ p, vaStr ap = some (p, ap') ∧
      ¬ (0 : Word).slt s.width ∧ ((p.getD null).bytes = [] ∨ s.precision = 0)) :=
    fun hcs hne => iff_of_false hne fun hn => hcs hn.1
  have unsigned : c = chr 'u' ∨ c = chr 'o' ∨ c = chr 'x' → out ≠ [] := by
    intro hu
    rw [emitConv, convert_unsigned hu, Option.map_eq_some_iff] at h
    obtain ⟨x, _, hx⟩ := h
    cases hx
    exact convertNum_ne_nil _ _ _ _
  have h0 := h
  rw [emitConv] at h
  rcases isConversion_cases hc with rfl | rfl | rfl | rfl | rfl | rfl | rfl | rfl | rfl
  · refine other (by decide) ?_
    rw [convert_c, Option.map_eq_some_iff] at h
    obtain ⟨x, _, hx⟩ := h
    cases hx
    exact List.cons_ne_nil _ _
  · refine other (by decide) ?_
    rw [convert_e, Option.bind_eq_some_iff] at h
    obtain ⟨x, _, h⟩ := h
    rw [convertErr_plain, Option.map_eq_some_iff] at h
    obtain ⟨y, hy, hx⟩ := h
    cases hx
    exact convertErr_ne_nil hy
  · obtain ⟨p, hp, rfl⟩ := emitConv_str_inv h0
    rw [convertStr_eq_nil_iff, hp]
    constructor
    · intro hs
      exact ⟨rfl, p, rfl, hs⟩
    · rintro ⟨_, q, hq, hs⟩
      cases hq
      exact hs
  · refine other (by decide) ?_
    rw [convert_d, Option.map_eq_some_iff] at h
    obtain ⟨x, _, hx⟩ := h
    split at hx <;> cases hx <;> exact convertNum_ne_nil _ _ _ _
  · exact other (by decide) (unsigned (Or.inl rfl))
  · exact other (by decide) (unsigned (Or.inr (Or.inl rfl)))
  · refine other (by decide) ?_
    rw [convert_p, Option.map_eq_some_iff] at h
    obtain ⟨x, _, hx⟩ := h
    cases hx
    exact convertNum_ne_nil _ _ _ _
  · exact other (by decide) (unsigned (Or.inr (Or.inr rfl)))
  · refine other (by decide) ?_
    rw [convert_percent, Option.some.injEq] at h
    cases h
    exact List.cons_ne_nil _ _

theorem emit_eq_nil_iff {fmt : List Byte} {ap : List Arg} {out : List Word} (h : emit fmt ap = some out) :
    out = [] ↔ Silent fmt ap := by
  induction hn : fmt.length using Nat.strong_induction_on generalizing fmt ap out with
  | _ n ih =>
    subst hn
    cases fmt with
    | nil =>
      rw [emit_nil, Option.some.injEq] at h
      exact iff_of_true h.symm (Silent.nil ap)
    | cons c fmt =>
      by_cases hc : c = chr '%'
      · subst hc
        cases hr : reswitch Spec.init fmt ap with
        | none =>
          rw [emit_undefined hr] at h
          cases h
        | some x =>
          obtain ⟨s, c, rest, ap'⟩ := x
          by_cases hcc : isConversion c = true
          · rw [emit_conv hr hcc, Option.bind_eq_some_iff] at h
            obtain ⟨⟨ap'', here⟩, hx, h⟩ := h
            rw [Option.map_eq_some_iff] at h
            obtain ⟨later, hl, rfl⟩ := h
            have hhere := emitConv_eq_nil_iff hcc hx
            have hlater := ih rest.length (Nat.lt_succ_of_le (reswitch_length hr)) hl rfl
            rw [List.append_eq_nil_iff, hhere, hlater]
            constructor
            · rintro ⟨⟨rfl, p, hp, hw, he⟩, ht⟩
              exact Silent.str hr hp hw he ht
            · intro hs
              cases hs with
              | str conv arg width empty tail =>
                rw [hr] at conv
                cases conv
                obtain ⟨q, hq, _⟩ := emitConv_str_inv hx
                rw [hq] at arg
                cases arg
                exact ⟨⟨rfl, _, hq, width, empty⟩, tail⟩
          · rw [emit_default hr hcc, Option.map_eq_some_iff] at h
            obtain ⟨later, _, rfl⟩ := h
            refine iff_of_false (List.cons_ne_nil _ _) fun hs => ?_
            cases hs with
            | str conv arg width empty tail =>
              rw [hr] at conv
              cases conv
              exact hcc (by decide)
      · rw [emit_char hc, Option.map_eq_some_iff] at h
        obtain ⟨later, _, rfl⟩ := h
        refine iff_of_false (List.cons_ne_nil _ _) fun hs => ?_
        cases hs with
        | str conv arg width empty tail => exact hc rfl

/-! ## The three functions -/

theorem kernVcprintf_eq {fmt : CStr} {ap : List Arg} {out : List Word} (h : emitted fmt ap = some out) (cons : Console) :
    ∃ cons', kernVcprintf fmt ap cons = some (0, cons') := by
  rw [kernVcprintf, vprintfmt_eq_emitted, h, Option.map_some, Option.map_some, kernPutch_cnt]
  exact ⟨_, rfl⟩

theorem userVcprintf_eq {fmt : CStr} {ap : List Arg} {out : List Word} (h : emitted fmt ap = some out) (buf : Nat → Byte) :
    ∃ cputs, userVcprintf fmt ap buf = some (BitVec.ofNat 32 out.length, cputs) := by
  rw [userVcprintf, vprintfmt_eq_emitted, h, Option.map_some, Option.map_some, foldl_count out userPutch_cnt]
  exact ⟨_, congrArg some (Prod.ext (BitVec.zero_add _) rfl)⟩

theorem vsnprintf_eq {fmt : CStr} {ap : List Arg} {out : List Word} (h : emitted fmt ap = some out) (mem : Nat → Byte)
    {buf : Nat} {n : Word} (hbuf : buf ≠ 0) (hn : (1 : Word).sle n) :
    ∃ mem', vsnprintf mem buf n fmt ap = some (BitVec.ofNat 32 out.length, mem') := by
  have hge : ¬ (buf = 0 ∨ n.slt 1) := by
    rintro (h0 | h1)
    · exact hbuf h0
    · rw [BitVec.sle_eq_not_slt, h1] at hn
      cases hn
  unfold vsnprintf
  dsimp only
  rw [if_neg hge, vprintfmt_eq_emitted, h, Option.map_some, Option.map_some, foldl_count out sprintputch_cnt]
  exact ⟨_, congrArg some (Prod.ext (BitVec.zero_add _) rfl)⟩

/-- **The printing functions**: the user library's `vcprintf` and `vsnprintf` return the number of
characters; all three do just when the format prints nothing, since the kernel's returns 0. -/
theorem printf_count (fmt : CStr) (ap : List Arg) (out : List Word) (h : emitted fmt ap = some out) (cons : Console)
    (ubuf mem : Nat → Byte) (buf : Nat) (n : Word) (hbuf : buf ≠ 0) (hn : (1 : Word).sle n) :
    ∃ kern user snp cons' cputs mem', kernVcprintf fmt ap cons = some (kern, cons') ∧
      userVcprintf fmt ap ubuf = some (user, cputs) ∧ vsnprintf mem buf n fmt ap = some (snp, mem') ∧
      user = BitVec.ofNat 32 out.length ∧ snp = user ∧ kern = 0 ∧
      ((kern.toInt = out.length ∧ user.toInt = out.length ∧ snp.toInt = out.length) ↔ Silent fmt.bytes ap) := by
  obtain ⟨cons', hk⟩ := kernVcprintf_eq h cons
  obtain ⟨cputs, hu⟩ := userVcprintf_eq h ubuf
  obtain ⟨mem', hs⟩ := vsnprintf_eq h mem hbuf hn
  refine ⟨_, _, _, cons', cputs, mem', hk, hu, hs, rfl, rfl, rfl, ?_⟩
  rw [← emit_eq_nil_iff h, ← List.length_eq_zero_iff]
  constructor
  · rintro ⟨h0, _⟩
    exact (Int.ofNat_eq_zero.mp h0.symm)
  · intro h0
    rw [h0]
    exact ⟨rfl, rfl, rfl⟩

theorem emitted_ab : emitted (.lit "ab") [] = some [0x61, 0x62] := emit_literal (by decide) []

theorem printf_count_small : ∃ cputs mem', userVcprintf (.lit "ab") [] (fun _ => 0) = some (2, cputs) ∧
    vsnprintf (fun _ => 0) 0x1000 1 (.lit "ab") [] = some (2, mem') := by
  obtain ⟨_, _, _, _, cputs, mem', _, hu, hs, rfl, rfl, _⟩ := printf_count (.lit "ab") [] [0x61, 0x62] emitted_ab
    ⟨fun _ _ => 0xFF, 0, [], false, fun _ => 0, 0⟩ (fun _ => 0) (fun _ => 0) 0x1000 1 (by decide) (by decide)
  exact ⟨cputs, mem', hu, hs⟩

/-- The kernel prints two characters and returns 0. -/
theorem kernVcprintf_uncounted : ¬ ∀ (fmt : CStr) (ap : List Arg) (out : List Word), emitted fmt ap = some out →
    ∀ (cons : Console) (ubuf mem : Nat → Byte) (buf : Nat) (n : Word), buf ≠ 0 → (1 : Word).sle n →
      ∃ r cons' cputs mem', kernVcprintf fmt ap cons = some (r, cons') ∧ userVcprintf fmt ap ubuf = some (r, cputs) ∧
        vsnprintf mem buf n fmt ap = some (r, mem') ∧ r.toInt = out.length := by
  intro h
  obtain ⟨r, cons', _, _, hr, _, _, hcount⟩ := h (.lit "ab") [] [0x61, 0x62] emitted_ab
    ⟨fun _ _ => 0xFF, 0, [], false, fun _ => 0, 0⟩ (fun _ => 0) (fun _ => 0) 0x1000 1 (by decide) (by decide)
  obtain ⟨cons'', hk⟩ := kernVcprintf_eq emitted_ab ⟨fun _ _ => 0xFF, 0, [], false, fun _ => 0, 0⟩
  rw [hk] at hr
  cases hr
  exact absurd hcount (by decide)

end Jos
