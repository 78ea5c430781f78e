import Jos.PrintfmtMem
import Jos.Emit

/-!
# The two `vprintfmt`s agree

Where the format and the strings end in a NUL, the `vprintfmt` that reads memory
settles on the result of the one on lists, without a read outside of them.
-/

namespace Jos.Fmt

variable {mem fm : Memory} {p f : Word} {b c : Byte} {str fmt rest : List Byte} {s s' : Spec} {ap ap' apL apL' : List Arg}

/-! ## Memory -/

theorem load_some (h : mem p = some b) : load mem p = .ok b := by
  unfold load
  rw [h]

theorem load_none (h : mem p = none) : load mem p = .error .read := by
  unfold load
  rw [h]

theorem ok_bind {α β : Type} (x : α) (k : α → Except Fault β) : (Except.ok x >>= k) = k x := rfl

theorem error_bind {α β : Type} (e : Fault) (k : α → Except Fault β) : (Except.error e >>= k) = .error e := rfl

theorem add_ofNat_succ (p : Word) (k : Nat) : p + BitVec.ofNat 32 (k + 1) = p + 1 + BitVec.ofNat 32 k := by
  rw [Nat.add_comm, BitVec.ofNat_add, BitVec.add_assoc]
  rfl

theorem add_ofNat_succ' (p : Word) (k : Nat) : p + BitVec.ofNat 32 (k + 1) = p + BitVec.ofNat 32 k + 1 := by
  rw [BitVec.ofNat_add, BitVec.add_assoc]
  rfl

theorem Holds.get (h : Holds mem p str) {i : Nat} (hi : i < str.length) :
    mem (p + BitVec.ofNat 32 i) = some str[i] := by
  induction str generalizing p i with
  | nil => exact absurd hi (Nat.not_lt_zero i)
  | cons b str ih =>
    cases i with
    | zero =>
      rw [BitVec.add_zero]
      exact h.1
    | succ i =>
      rw [add_ofNat_succ]
      exact ih h.2 (Nat.lt_of_succ_lt_succ hi)

theorem Holds.drop (h : Holds mem p str) {k : Nat} (hk : k ≤ str.length) :
    Holds mem (p + BitVec.ofNat 32 k) (str.drop k) := by
  induction k generalizing p str with
  | zero =>
    rw [BitVec.add_zero]
    exact h
  | succ k ih =>
    cases str with
    | nil => exact absurd hk (Nat.not_succ_le_zero k)
    | cons b str =>
      rw [add_ofNat_succ]
      exact ih h.2 (Nat.le_of_succ_le_succ hk)

theorem bytesAt_add (s : Word) (bs : List Byte) {i : Nat} (hi : i < 2 ^ 32) :
    bytesAt s bs (s + BitVec.ofNat 32 i) = bs[i]? := by
  have hto : (s + BitVec.ofNat 32 i - s).toNat = i := by
    rw [BitVec.add_comm, BitVec.add_sub_cancel, BitVec.toNat_ofNat, Nat.mod_eq_of_lt hi]
  rw [bytesAt, hto]

theorem holds_of_get (hz : mem (p + BitVec.ofNat 32 str.length) = some 0)
    (hb : ∀ i, (hi : i < str.length) → mem (p + BitVec.ofNat 32 i) = some str[i]) : Holds mem p str := by
  induction str generalizing p with
  | nil =>
    rw [List.length_nil, BitVec.add_zero] at hz
    exact hz
  | cons b str ih =>
    rw [List.length_cons, add_ofNat_succ] at hz
    have h0 := hb 0 (Nat.succ_pos _)
    rw [BitVec.add_zero] at h0
    refine ⟨h0, ih hz fun i hi => ?_⟩
    rw [← add_ofNat_succ]
    exact hb (i + 1) (Nat.succ_lt_succ hi)

theorem holds_bytesAt (s : Word) (hs : str.length < 2 ^ 32) : Holds (bytesAt s (str ++ [0])) s str := by
  apply holds_of_get
  · rw [bytesAt_add s _ hs, List.getElem?_append_right (Nat.le_refl _), Nat.sub_self]
    rfl
  · intro i hi
    rw [bytesAt_add s _ (Nat.lt_trans hi hs), List.getElem?_append_left hi, List.getElem?_eq_getElem hi]

/-! ## Strings -/

section
variable {σ : Type} {putch : Word → σ → σ}

theorem strnlen_settles (h : Holds mem p str) (hz : ∀ b ∈ str, b ≠ 0) (size cnt : Word) :
    Settles (fun n => strnlen mem n p size cnt) (.ok (cnt + Jos.strnlen str size)) := by
  induction str generalizing p size cnt with
  | nil =>
    have hlen : Jos.strnlen [] size = 0 := by
      rw [Jos.strnlen, List.length_nil, Nat.zero_min]
      rfl
    rw [hlen]
    apply (Settles.const _).step
    intro n
    simp [strnlen, load_some h, ok_bind]
  | cons b str ih =>
    by_cases h0 : size = 0
    · subst h0
      have hlen : cnt + Jos.strnlen (b :: str) 0 = cnt := by simp [Jos.strnlen]
      rw [hlen]
      apply (Settles.const _).step
      intro n
      rw [strnlen, if_pos rfl]
    · have hpos : 0 < size.toNat := by
        have : size.toNat ≠ 0 := fun e => h0 (BitVec.eq_of_toNat_eq e)
        omega
      have hlen : Jos.strnlen (b :: str) size = 1 + Jos.strnlen str (size - 1) := by
        have hmin : min (str.length + 1) size.toNat = 1 + min str.length (size.toNat - 1) := by omega
        rw [Jos.strnlen, Jos.strnlen, toNat_sub_one hpos, List.length_cons, hmin, BitVec.ofNat_add]
        rfl
      rw [hlen, ← BitVec.add_assoc]
      apply (ih h.2 (fun b hb => hz b (List.mem_cons_of_mem _ hb)) (size - 1) (cnt + 1)).step
      intro n
      rw [strnlen, if_neg h0, load_some h.1, ok_bind, if_neg (hz b List.mem_cons_self)]

theorem putStr_settles (h : Holds mem p str) (hz : ∀ b ∈ str, b ≠ 0) (alt : Bool) (precision width : Word) (d : σ) :
    Settles (fun n => putStr putch mem alt n p precision width d) (.ok (Jos.putStr putch alt str precision width d)) := by
  induction str generalizing p precision width d with
  | nil =>
    apply (Settles.const _).step
    intro n
    rw [putStr, load_some h, ok_bind, if_pos rfl]
    rfl
  | cons b str ih =>
    have hb := hz b List.mem_cons_self
    rw [Jos.putStr]
    split
    · next hc =>
      apply (ih h.2 (fun b hb => hz b (List.mem_cons_of_mem _ hb)) _ _ _).step
      intro n
      rw [putStr, load_some h.1, ok_bind, if_neg hb, if_pos hc]
    · next hc =>
      apply (Settles.const _).step
      intro n
      rw [putStr, load_some h.1, ok_bind, if_neg hb, if_neg hc]

theorem padLeft_settles (h : Holds mem p str) (hz : ∀ b ∈ str, b ≠ 0) (s : Spec) (d : σ) :
    Settles (fun n => padLeft putch mem n s p d) (.ok (Jos.padLeft putch s str d)) := by
  unfold padLeft Jos.padLeft
  split
  · have hlen := strnlen_settles h hz s.precision 0
    simp only [BitVec.ofNat_eq_ofNat, BitVec.zero_add] at hlen
    exact hlen.bind (Settles.const _)
  · exact Settles.const _

theorem convertStr_settles (hp : p ≠ 0) (str : CStr) (h : Holds mem p str.bytes) (s : Spec) (d : σ) :
    Settles (fun n => convertStr putch mem n s p d) (.ok (Jos.convertStr putch s str d)) := by
  unfold convertStr
  simp only [hp, if_false]
  exact (padLeft_settles h str.nonzero s d).bind ((putStr_settles h str.nonzero _ _ _ _).bind (Settles.const _))

end

/-! ## The arguments -/

inductive ArgIn (mem : Memory) : Arg → Arg → Prop
  | int (v : Word) : ArgIn mem (.int v) (.int v)
  | longlong (v : BitVec 64) : ArgIn mem (.longlong v) (.longlong v)
  | ptr (v : Word) : ArgIn mem (.ptr v) (.ptr v)
  | null : ArgIn mem (.str none) (.ptr 0)
  | str {p : Word} {str : CStr} (hp : p ≠ 0) (h : Holds mem p str.bytes) : ArgIn mem (.str (some str)) (.ptr p)

inductive ArgsIn (mem : Memory) : List Arg → List Arg → Prop
  | nil (ap : List Arg) : ArgsIn mem [] ap
  | cons {a a' : Arg} {apL ap : List Arg} (hd : ArgIn mem a a') (tl : ArgsIn mem apL ap) : ArgsIn mem (a :: apL) (a' :: ap)

theorem ArgsIn.same {a : Arg} (h : ArgsIn mem (a :: apL') ap) (ha : ∀ q, a ≠ .str q) :
    ∃ ap', ap = a :: ap' ∧ ArgsIn mem apL' ap' := by
  cases h with
  | cons hd tl =>
    cases hd with
    | int v => exact ⟨_, rfl, tl⟩
    | longlong v => exact ⟨_, rfl, tl⟩
    | ptr v => exact ⟨_, rfl, tl⟩
    | null => exact absurd rfl (ha none)
    | str hp hs => exact absurd rfl (ha _)

theorem vaInt_inv {v : Word} (h : vaInt ap = some (v, ap')) : ap = .int v :: ap' := by
  unfold vaInt at h
  split at h
  · cases h
    rfl
  · cases h

theorem vaPtr_inv {v : Word} (h : vaPtr ap = some (v, ap')) : ap = .ptr v :: ap' := by
  unfold vaPtr at h
  split at h
  · cases h
    rfl
  · cases h

theorem vaStr_inv {q : Option CStr} (h : vaStr ap = some (q, ap')) : ap = .str q :: ap' := by
  unfold vaStr at h
  split at h
  · cases h
    rfl
  · cases h

theorem getuint_inv {lflag : Word} {v : BitVec 64} (h : getuint ap lflag = some (v, ap')) :
    ∃ a, ap = a :: ap' ∧ (∀ q, a ≠ .str q) ∧ ∀ rest, getuint (a :: rest) lflag = some (v, rest) := by
  unfold getuint at h
  split at h
  · split at h
    · next hl =>
      cases h
      exact ⟨_, rfl, fun _ => Arg.noConfusion, fun _ => if_pos hl⟩
    · cases h
  · split at h
    · cases h
    · next hl =>
      cases h
      exact ⟨_, rfl, fun _ => Arg.noConfusion, fun _ => if_neg hl⟩
  · cases h

theorem getint_inv {lflag : Word} {v : BitVec 64} (h : getint ap lflag = some (v, ap')) :
    ∃ a, ap = a :: ap' ∧ (∀ q, a ≠ .str q) ∧ ∀ rest, getint (a :: rest) lflag = some (v, rest) := by
  unfold getint at h
  split at h
  · split at h
    · next hl =>
      cases h
      exact ⟨_, rfl, fun _ => Arg.noConfusion, fun _ => if_pos hl⟩
    · cases h
  · split at h
    · cases h
    · next hl =>
      cases h
      exact ⟨_, rfl, fun _ => Arg.noConfusion, fun _ => if_neg hl⟩
  · cases h

/-! ## One conversion -/

section
variable {σ : Type} {putch : Word → σ → σ} (ha : ArgsIn mem apL ap)
include ha

theorem vaInt_in {v : Word} (h : vaInt apL = some (v, apL')) :
    ∃ ap', vaInt ap = some (v, ap') ∧ ArgsIn mem apL' ap' := by
  cases vaInt_inv h
  obtain ⟨ap', rfl, ha'⟩ := ha.same fun _ => Arg.noConfusion
  exact ⟨ap', rfl, ha'⟩

theorem convert_in (hc : isConversion c = true) (hs : c ≠ chr 's') (he : c ≠ chr 'e')
    {printfmt : CStr → List Arg → σ → Option σ} {d d' : σ} (h : Jos.convert putch printfmt s c apL d = some (apL', d')) :
    ∃ ap', Jos.convert putch (fun _ _ _ => none) s c ap d = some (ap', d') ∧ ArgsIn mem apL' ap' := by
  have unsigned : c = chr 'u' ∨ c = chr 'o' ∨ c = chr 'x' →
      ∃ ap', Jos.convert putch (fun _ _ _ => none) s c ap d = some (ap', d') ∧ ArgsIn mem apL' ap' := by
    intro hu
    rw [convert_unsigned hu, Option.map_eq_some_iff] at h
    obtain ⟨⟨v, _⟩, hv, hx⟩ := h
    cases hx
    obtain ⟨a, rfl, hne, hget⟩ := getuint_inv hv
    obtain ⟨ap', rfl, ha'⟩ := ha.same hne
    exact ⟨ap', by rw [convert_unsigned hu, hget]; rfl, ha'⟩
  rcases isConversion_cases hc with rfl | rfl | rfl | rfl | rfl | rfl | rfl | rfl | rfl
  · rw [convert_c, Option.map_eq_some_iff] at h
    obtain ⟨⟨v, _⟩, hv, hx⟩ := h
    cases hx
    obtain ⟨ap', hv', ha'⟩ := vaInt_in ha hv
    exact ⟨ap', by rw [convert_c, hv']; rfl, ha'⟩
  · exact absurd rfl he
  · exact absurd rfl hs
  · rw [convert_d, Option.map_eq_some_iff] at h
    obtain ⟨⟨v, _⟩, hv, hx⟩ := h
    obtain ⟨a, rfl, hne, hget⟩ := getint_inv hv
    obtain ⟨ap', rfl, ha'⟩ := ha.same hne
    rw [convert_d, hget]
    split at hx
    · next hneg =>
      cases hx
      exact ⟨ap', congrArg some (if_pos hneg), ha'⟩
    · next hpos =>
      cases hx
      exact ⟨ap', congrArg some (if_neg hpos), ha'⟩
  · exact unsigned (Or.inl rfl)
  · exact unsigned (Or.inr (Or.inl rfl))
  · rw [convert_p, Option.map_eq_some_iff] at h
    obtain ⟨⟨v, _⟩, hv, hx⟩ := h
    cases hx
    cases vaPtr_inv hv
    obtain ⟨ap', rfl, ha'⟩ := ha.same fun _ => Arg.noConfusion
    exact ⟨ap', by rw [convert_p]; rfl, ha'⟩
  · exact unsigned (Or.inr (Or.inr rfl))
  · rw [convert_percent] at h
    cases h
    exact ⟨ap, convert_percent, ha⟩

omit ha in
theorem convertErr_in {err : Word} {d d' : σ} (h : Jos.convertErr (Jos.vprintfmt putch) err d = some d') :
    convertErr putch err d = .ok d' := by
  unfold Jos.convertErr at h
  unfold convertErr
  generalize (if err.slt 0 then -err else err) = e at h ⊢
  dsimp only at h ⊢
  split at h
  · next hge =>
    rw [if_pos hge, h]
    rfl
  · next hlt =>
    split at h
    · cases h
    · next hpos =>
      have hto : e.toInt = e.toNat := by
        rw [slt_zero_iff] at hpos
        rw [BitVec.toInt_eq_toNat_cond, if_pos (by omega)]
      have hin : 0 ≤ e.toInt ∧ e.toInt < maxerror.toInt := by
        rw [BitVec.sle, decide_eq_true_eq] at hlt
        omega
      rw [if_neg hlt, errorAt, if_pos hin, hto, Int.toNat_natCast, ok_bind]
      cases hq : errorString.getD e.toNat none with
      | none =>
        simp only [hq] at h ⊢
        rw [h]
        rfl
      | some q =>
        simp only [hq] at h ⊢
        rw [h]
        rfl

theorem convert_settles {d d' : σ} (hc : isConversion c = true)
    (h : Jos.convert putch (Jos.vprintfmt putch) s c apL d = some (apL', d')) :
    ∃ ap', Settles (fun n => convert putch mem n s c ap d) (.ok (ap', d')) ∧ ArgsIn mem apL' ap' := by
  unfold convert
  by_cases hs : c = chr 's'
  · subst hs
    rw [convert_s, Option.map_eq_some_iff] at h
    obtain ⟨⟨q, _⟩, hq, hx⟩ := h
    cases hx
    cases vaStr_inv hq
    cases ha with
    | cons hd tl =>
      refine ⟨_, ?_, tl⟩
      simp only [if_true]
      cases hd with
      | null => exact (Settles.const _).congr fun _ => rfl
      | str hp hh => exact (convertStr_settles hp _ hh s d).bind (Settles.const _)
  · simp only [hs, if_false]
    by_cases he : c = chr 'e'
    · subst he
      rw [convert_e, Option.bind_eq_some_iff] at h
      obtain ⟨⟨err, _⟩, hv, h⟩ := h
      rw [Option.map_eq_some_iff] at h
      obtain ⟨d₁, hd, hx⟩ := h
      cases hx
      obtain ⟨ap', hv', ha'⟩ := vaInt_in ha hv
      refine ⟨ap', ?_, ha'⟩
      simp only [if_true, hv', va, ok_bind, convertErr_in hd]
      exact Settles.const _
    · obtain ⟨ap', hv, ha'⟩ := convert_in ha hc hs he h
      refine ⟨ap', ?_, ha'⟩
      simp only [he, if_false, hv, va]
      exact Settles.const _

end

/-! ## The flags -/

theorem scanDigits_settles (hf : Holds fm f fmt) (precision : Word) (c : Byte) :
    ∃ k, k ≤ fmt.length ∧ (∀ b ∈ fmt.take k, b ≠ chr '%') ∧
      (Jos.scanDigits (precision * 10 + c.setWidth 32 - 48) fmt).2 = fmt.drop k ∧
      Settles (fun n => scanDigits fm n precision c f)
        (.ok ((Jos.scanDigits (precision * 10 + c.setWidth 32 - 48) fmt).1, f + BitVec.ofNat 32 k)) := by
  induction fmt generalizing f precision c with
  | nil =>
    refine ⟨0, Nat.le_refl 0, fun b hb => absurd hb List.not_mem_nil, rfl, ?_⟩
    apply (Settles.const _).step
    intro n
    simp [scanDigits, load_some hf, ok_bind, Jos.scanDigits, isDigit, chr]
  | cons d fmt ih =>
    rw [Jos.scanDigits]
    by_cases hd : isDigit d = true
    · obtain ⟨k, hk, htake, hdrop, hs⟩ := ih hf.2 (precision * 10 + c.setWidth 32 - 48) d
      have hne : d ≠ chr '%' := by
        rintro rfl
        exact absurd hd (by decide)
      refine ⟨k + 1, Nat.succ_le_succ hk, List.forall_mem_cons.mpr ⟨hne, htake⟩, ?_, ?_⟩
      · rw [if_pos hd]
        exact hdrop
      · rw [if_pos hd, add_ofNat_succ]
        apply hs.step
        intro n
        simp only [scanDigits, load_some hf.1, ok_bind, hd, if_true]
    · refine ⟨0, Nat.zero_le _, fun b hb => absurd hb List.not_mem_nil, ?_, ?_⟩
      · rw [if_neg hd]
        rfl
      · rw [if_neg hd, BitVec.add_zero]
        apply (Settles.const _).step
        intro n
        simp [scanDigits, load_some hf.1, ok_bind, hd]

def Scans (mem fm : Memory) (s : Spec) (f : Word) (fmt : List Byte) (ap : List Arg) (s' : Spec) (c : Byte)
    (rest : List Byte)
    (apL' : List Arg) : Prop :=
  ∃ k ap', ArgsIn mem apL' ap' ∧ k ≤ fmt.length ∧ (∀ b ∈ fmt.take k, b ≠ chr '%') ∧
    (c ≠ 0 → k < fmt.length ∧ rest = fmt.drop (k + 1)) ∧
    Settles (fun n => reswitch fm n s f ap) (.ok (s', c, f + BitVec.ofNat 32 (k + 1), ap'))

theorem Scans.after {j : Nat} {s₁ : Spec} {ap₁ : List Arg} (hj : j ≤ fmt.length) (hne : ∀ b ∈ fmt.take j, b ≠ chr '%')
    (hs : Scans mem fm s₁ (f + BitVec.ofNat 32 j) (fmt.drop j) ap₁ s' c rest apL')
    (hstep : ∀ r, Settles (fun n => reswitch fm n s₁ (f + BitVec.ofNat 32 j) ap₁) r → Settles (fun n => reswitch fm n s f ap) r) :
    Scans mem fm s f fmt ap s' c rest apL' := by
  obtain ⟨k, ap', ha, hk, htake, hrest, hset⟩ := hs
  rw [List.length_drop] at hk hrest
  refine ⟨j + k, ap', ha, by omega, ?_, fun hc => ?_, ?_⟩
  · rw [List.take_add]
    exact List.forall_mem_append.mpr ⟨hne, htake⟩
  · obtain ⟨h1, h2⟩ := hrest hc
    rw [List.drop_drop] at h2
    exact ⟨by omega, h2⟩
  · have hset := hstep _ hset
    rwa [BitVec.add_assoc, ← BitVec.ofNat_add, ← Nat.add_assoc] at hset

theorem reswitch_settles (hf : Holds fm f fmt) (ha : ArgsIn mem apL ap)
    (h : Jos.reswitch s fmt apL = some (s', c, rest, apL')) : Scans mem fm s f fmt ap s' c rest apL' := by
  have one :
      ∀ {b : Byte} {fmt : List Byte} {f : Word} {s s₁ : Spec} {ap ap₁ : List Arg}, Holds fm f (b :: fmt) → b ≠ chr '%' →
      Scans mem fm s₁ (f + 1) fmt ap₁ s' c rest apL' →
      (∀ n, reswitch fm (n + 1) s f ap = reswitch fm n s₁ (f + 1) ap₁) →
        Scans mem fm s f (b :: fmt) ap s' c rest apL' := by
    intro b fmt f s s₁ ap ap₁ hf hb hs hstep
    refine Scans.after (j := 1) ?_ ?_ hs fun r hr => hr.step hstep
    · exact Nat.succ_le_succ (Nat.zero_le _)
    · intro b' hb'
      rw [List.take_succ_cons, List.take_zero, List.mem_singleton] at hb'
      rw [hb']
      exact hb
  fun_induction Jos.reswitch s fmt apL generalizing f ap with
  | case1 s apL =>
    cases h
    refine ⟨0, ap, ha, Nat.le_refl 0, fun b hb => absurd hb List.not_mem_nil, fun hc => absurd rfl hc, ?_⟩
    apply (Settles.const _).step
    intro n
    simp [reswitch, load_some hf, ok_bind, isDigit, chr]
  | case2 s apL fmt ih =>
    exact one hf (by decide) (ih hf.2 ha h) fun n => by rw [reswitch, load_some hf.1, ok_bind, if_pos rfl]
  | case3 s apL fmt hne ih =>
    exact one hf (by decide) (ih hf.2 ha h) fun n => by rw [reswitch, load_some hf.1, ok_bind, if_neg hne, if_pos rfl]
  | case4 s apL c₁ fmt h1 h2 hd ih =>
    obtain ⟨k, hk, htake, hdrop, hset⟩ := scanDigits_settles hf.2 0 c₁
    have hscan : Jos.scanDigits 0 (c₁ :: fmt) = Jos.scanDigits (0 * 10 + c₁.setWidth 32 - 48) fmt := by
      rw [Jos.scanDigits, if_pos hd]
    have hne : c₁ ≠ chr '%' := by
      rintro rfl
      exact absurd hd (by decide)
    have hpos : f + BitVec.ofNat 32 (k + 1) = f + 1 + BitVec.ofNat 32 k := add_ofNat_succ f k
    rw [hscan, hdrop] at h ih
    refine Scans.after (j := k + 1) (Nat.succ_le_succ hk) (List.forall_mem_cons.mpr ⟨hne, htake⟩) (ih ?_ ha h) fun r hr => ?_
    · rw [hpos]
      exact hf.2.drop hk
    · rw [hpos] at hr
      apply (Settles.bind (g := fun n x => reswitch fm n (s.processPrecision x.1) x.2 ap) hset hr).step
      intro n
      rw [reswitch, load_some hf.1, ok_bind, if_neg h1, if_neg h2, if_pos hd]
  | case5 s apL fmt precision apL₁ hv h1 h2 h3 ih =>
    obtain ⟨ap₁, hv', ha'⟩ := vaInt_in ha hv
    refine one hf (by decide) (ih hf.2 ha' h) fun n => ?_
    rw [reswitch, load_some hf.1, ok_bind, if_neg h1, if_neg h2, if_neg h3, if_pos rfl, hv']
    rfl
  | case6 => cases h
  | case7 s apL fmt h1 h2 h3 h4 ih =>
    refine one hf (by decide) (ih hf.2 ha h) fun n => ?_
    rw [reswitch, load_some hf.1, ok_bind, if_neg h1, if_neg h2, if_neg h3, if_neg h4, if_pos rfl]
    rfl
  | case8 s apL fmt h1 h2 h3 h4 h5 ih =>
    refine one hf (by decide) (ih hf.2 ha h) fun n => ?_
    rw [reswitch, load_some hf.1, ok_bind, if_neg h1, if_neg h2, if_neg h3, if_neg h4, if_neg h5, if_pos rfl]
  | case9 s apL fmt h1 h2 h3 h4 h5 h6 ih =>
    refine one hf (by decide) (ih hf.2 ha h) fun n => ?_
    rw [reswitch, load_some hf.1, ok_bind, if_neg h1, if_neg h2, if_neg h3, if_neg h4, if_neg h5, if_neg h6, if_pos rfl]
  | case10 s apL c₁ fmt h1 h2 h3 h4 h5 h6 h7 =>
    cases h
    refine ⟨0, ap, ha, Nat.zero_le _, fun b hb => absurd hb List.not_mem_nil, fun _ => ⟨Nat.succ_pos _, rfl⟩, ?_⟩
    apply (Settles.const _).step
    intro n
    rw [reswitch, load_some hf.1, ok_bind, if_neg h1, if_neg h2, if_neg h3, if_neg h4, if_neg h5, if_neg h6, if_neg h7]
    rfl

/-! ## `vprintfmt` -/

theorem rewind_settles (hp : fm (f - 1) = some (chr '%')) (hf : Holds fm f fmt) {k : Nat} (hk : k ≤ fmt.length)
    (hne : ∀ b ∈ fmt.take k, b ≠ chr '%') : Settles (fun n => rewind fm n (f + BitVec.ofNat 32 k)) (.ok f) := by
  induction k with
  | zero =>
    rw [BitVec.add_zero]
    apply (Settles.const _).step
    intro n
    rw [rewind, load_some hp, ok_bind, if_pos rfl]
  | succ k ih =>
    have hback : f + BitVec.ofNat 32 (k + 1) - 1 = f + BitVec.ofNat 32 k := by
      rw [add_ofNat_succ']
      exact BitVec.add_sub_cancel _ _
    have hb := hf.get hk
    have hlast : fmt[k] ≠ chr '%' := by
      apply hne
      rw [List.take_succ_eq_append_getElem hk]
      exact List.mem_append_right _ List.mem_cons_self
    have hrest : ∀ b ∈ fmt.take k, b ≠ chr '%' := fun b hb => hne b (List.take_subset_take_left fmt (Nat.le_succ k) hb)
    apply (ih (Nat.le_of_succ_le hk) hrest).step
    intro n
    rw [rewind, hback, load_some hb, ok_bind, if_neg hlast]

section
variable {σ : Type} {putch : Word → σ → σ}

theorem vprintfmt_percent (hf : fm f = some (chr '%')) {g : Word} {d : σ} {r : Except Fault σ}
    (hset : Settles (fun n => reswitch fm n Spec.init (f + 1) ap) (.ok (s, c, g, ap')))
    (hrest : Settles (fun n => if isConversion c then
        (convert putch mem n s c ap' d >>= fun x => vprintfmt putch mem fm n g x.1 x.2)
      else (rewind fm n (g - 1) >>= fun g => vprintfmt putch mem fm n g ap' (putch ((chr '%').setWidth 32) d))) r) :
    Settles (fun n => vprintfmt putch mem fm n f ap d) r := by
  apply (Settles.bind (g := fun n x => if isConversion x.2.1 then
      (convert putch mem n x.1 x.2.1 x.2.2.2 d >>= fun y => vprintfmt putch mem fm n x.2.2.1 y.1 y.2)
    else (rewind fm n (x.2.2.1 - 1) >>= fun g => vprintfmt putch mem fm n g x.2.2.2 (putch ((chr '%').setWidth 32) d)))
    hset hrest).step
  intro n
  rw [vprintfmt, load_some hf, ok_bind, if_neg (not_not.mpr rfl)]

/-- **The two agree**: on a format and strings that end in a NUL the run over memory comes to its end, with the
result of the run on lists. -/
theorem vprintfmt_settles (hf : Holds fm f fmt) (hz : ∀ b ∈ fmt, b ≠ 0) (ha : ArgsIn mem apL ap) {d d' : σ}
    (h : vprintfmtWith putch (Jos.vprintfmt putch) fmt apL d = some d') :
    Settles (fun n => vprintfmt putch mem fm n f ap d) (.ok d') := by
  induction hn : fmt.length using Nat.strong_induction_on generalizing fmt f apL ap d with
  | _ n ih =>
    subst hn
    cases fmt with
    | nil =>
      rw [vprintfmtWith_nil] at h
      cases h
      apply (Settles.const _).step
      intro n
      rw [vprintfmt, load_some hf, ok_bind, if_pos (by decide), if_pos rfl]
    | cons c fmt =>
      obtain ⟨hc0, hzt⟩ := List.forall_mem_cons.mp hz
      by_cases hc : c = chr '%'
      · subst hc
        cases hr : Jos.reswitch Spec.init fmt apL with
        | none =>
          rw [vprintfmtWith_undefined hr] at h
          cases h
        | some x =>
          obtain ⟨s, c, rest, apL'⟩ := x
          obtain ⟨k, ap', ha', hk, htake, hrest, hset⟩ := reswitch_settles hf.2 ha hr
          by_cases hcc : isConversion c = true
          · rw [vprintfmtWith_conv hr hcc, Option.bind_eq_some_iff] at h
            obtain ⟨⟨apL₂, d₁⟩, hconv, h⟩ := h
            obtain ⟨ap₂, hcset, ha₂⟩ := convert_settles ha' hcc hconv
            obtain ⟨hlt, rfl⟩ := hrest fun h0 => by
              rw [h0] at hcc
              exact absurd hcc (by decide)
            have hend := ih _ (by rw [List.length_drop, List.length_cons]; omega) (hf.2.drop hlt)
              (fun b hb => hzt b (List.mem_of_mem_drop hb)) ha₂ h rfl
            apply vprintfmt_percent hf.1 hset
            simp only [hcc, if_true]
            exact hcset.bind hend
          · rw [vprintfmtWith_default hr hcc] at h
            have hend := ih fmt.length (Nat.lt_succ_self _) hf.2 hzt ha' h rfl
            have hback : f + 1 + BitVec.ofNat 32 (k + 1) - 1 = f + 1 + BitVec.ofNat 32 k := by
              rw [add_ofNat_succ']
              exact BitVec.add_sub_cancel _ _
            have hstart : fm (f + 1 - 1) = some (chr '%') := by
              rw [BitVec.add_sub_cancel]
              exact hf.1
            apply vprintfmt_percent hf.1 hset
            simp only [hcc, hback]
            exact (rewind_settles hstart hf.2 hk htake).bind hend
      · rw [vprintfmtWith_char hc] at h
        apply (ih fmt.length (Nat.lt_succ_self _) hf.2 hzt ha h rfl).step
        intro n
        rw [vprintfmt, load_some hf.1, ok_bind, if_pos hc, if_neg hc0]

end

/-! ## What is printed -/

def Prints (fm mem : Memory) (f : Word) (ap : List Arg) (out : List Word) : Prop :=
  ∀ (σ : Type) (putch : Word → σ → σ) (d : σ),
    Settles (fun n => vprintfmt putch mem fm n f ap d) (.ok (out.foldl (fun d ch => putch ch d) d))

theorem Prints.collected {out : List Word} (h : Prints fm mem f ap out) :
    Settles (fun n => vprintfmt collect mem fm n f ap []) (.ok out) := by
  have hc := h _ collect []
  rwa [foldl_collect] at hc

theorem Prints.unique {out out' : List Word} (h : Prints fm mem f ap out) (h' : Prints fm mem f ap out') : out = out' :=
  Except.ok.inj (h.collected.unique h'.collected)

theorem Prints.iff_eq {out out' : List Word} (h : Prints fm mem f ap out) : Prints fm mem f ap out' ↔ out = out' :=
  ⟨h.unique, fun he => he ▸ h⟩

theorem prints_of_emitted {fmt : CStr} (hf : Holds fm f fmt.bytes) (ha : ArgsIn mem apL ap) {out : List Word}
    (h : emitted fmt apL = some out) : Prints fm mem f ap out := by
  intro σ putch d
  apply vprintfmt_settles hf fmt.nonzero ha
  rw [← vprintfmt_eq, vprintfmt_eq_emitted, h, Option.map_some]

end Jos.Fmt
