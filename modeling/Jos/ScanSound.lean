import Jos.ErrorSound

/-!
# Formats of any kind

A format falls into characters and directives. Every run over a format and its
arguments comes to an end, and what is no supported conversion is printed as it
stands: `rewind` goes back to the `%`, and the flags come out as characters.
-/

namespace Jos

/-! ## The pieces of a format -/

def isFlag (c : Byte) : Bool := isDigit c || [chr '-', chr '*', chr '.', chr '#', chr 'l'].contains c

inductive Piece where
  | text (c : Byte)
  | directive (flags : List Byte) (c : Byte)
  | unfinished (flags : List Byte)

def Piece.bytes : Piece → List Byte
  | .text c => [c]
  | .directive flags c => chr '%' :: (flags ++ [c])
  | .unfinished flags => chr '%' :: flags

def Piece.supported : Piece → Bool
  | .directive _ c => isConversion c
  | _ => false

def pieces (fmt : List Byte) : List Piece :=
  match fmt with
  | [] => []
  | ch :: fmt =>
    if ch ≠ chr '%' then .text ch :: pieces fmt
    else
      match _h : fmt.dropWhile isFlag with
      | [] => [.unfinished (fmt.takeWhile isFlag)]
      | c :: rest => .directive (fmt.takeWhile isFlag) c :: pieces rest
termination_by fmt.length
decreasing_by
  · exact Nat.lt_succ_self _
  · have := (List.dropWhile_suffix (l := fmt) isFlag).length_le
    rw [_h, List.length_cons] at this
    rw [List.length_cons]
    omega

section
variable {fmt flags rest : List Byte} {c : Byte}

theorem split_flags (h : fmt.dropWhile isFlag = c :: rest) : fmt = fmt.takeWhile isFlag ++ c :: rest := by
  rw [← h, List.takeWhile_append_dropWhile]

theorem all_flags (h : fmt.dropWhile isFlag = []) : fmt = fmt.takeWhile isFlag := by
  have := List.takeWhile_append_dropWhile (p := isFlag) (l := fmt)
  rwa [h, List.append_nil, eq_comm] at this

theorem flatMap_pieces (fmt : List Byte) : (pieces fmt).flatMap Piece.bytes = fmt := by
  fun_induction pieces fmt with
  | case1 => rfl
  | case2 ch fmt hch ih => rw [List.flatMap_cons, ih]; rfl
  | case3 ch fmt hch h =>
    rw [not_not] at hch
    rw [List.flatMap_cons, List.flatMap_nil, List.append_nil, Piece.bytes, ← all_flags h, hch]
  | case4 ch fmt hch c rest h ih =>
    rw [not_not] at hch
    rw [List.flatMap_cons, ih, Piece.bytes, List.cons_append, List.append_assoc, List.singleton_append,
      ← split_flags h, hch]

/-! ## Flags -/

theorem isFlag_percent : isFlag (chr '%') = false := by decide

theorem not_percent_of_flag (h : ∀ b ∈ flags, isFlag b = true) : chr '%' ∉ flags := by
  intro hm
  have := h _ hm
  rw [isFlag_percent] at this
  cases this

theorem takeWhile_flags (fmt : List Byte) : ∀ b ∈ fmt.takeWhile isFlag, isFlag b = true := fun _ hb =>
  List.all_eq_true.mp List.all_takeWhile _ hb

theorem isFlag_digit {c : Byte} (h : isDigit c = true) : isFlag c = true := by
  rw [isFlag, h, Bool.true_or]

theorem scanDigits_flags (precision : Word) (fmt : List Byte) :
    (scanDigits precision fmt).2.dropWhile isFlag = fmt.dropWhile isFlag ∧
      ∀ c, isDigit c = false → ((scanDigits precision fmt).2.takeWhile isFlag).count c =
        (fmt.takeWhile isFlag).count c := by
  induction fmt generalizing precision with
  | nil => exact ⟨rfl, fun _ _ => rfl⟩
  | cons b fmt ih =>
    rw [scanDigits]
    split
    · next hb =>
      obtain ⟨h1, h2⟩ := ih (precision * 10 + b.setWidth 32 - 48)
      refine ⟨?_, fun c hc => ?_⟩
      · rw [h1, List.dropWhile_cons_of_pos (isFlag_digit hb)]
      · have hne : b ≠ c := by
          rintro rfl
          rw [hb] at hc
          cases hc
        rw [h2 c hc, List.takeWhile_cons_of_pos (isFlag_digit hb), List.count_cons_of_ne hne]
    · exact ⟨rfl, fun _ _ => rfl⟩

def conversionOf (fmt : List Byte) : Byte := (fmt.dropWhile isFlag).headD 0

theorem conversionOf_flag (hc : isFlag c = true) : conversionOf (c :: fmt) = conversionOf fmt := by
  rw [conversionOf, conversionOf, List.dropWhile_cons_of_pos hc]

theorem conversionOf_other (hc : ¬ isFlag c = true) : conversionOf (c :: fmt) = c := by
  rw [conversionOf, List.dropWhile_cons_of_neg hc]
  rfl

theorem count_flag {d : Byte} (hc : isFlag c = true) (hne : c ≠ d) :
    ((c :: fmt).takeWhile isFlag).count d = (fmt.takeWhile isFlag).count d := by
  rw [List.takeWhile_cons_of_pos hc, List.count_cons_of_ne hne]

theorem processPrecision_lflag (s : Spec) (precision : Word) : (s.processPrecision precision).lflag = s.lflag := by
  unfold Spec.processPrecision
  split <;> rfl

/-- The scan of the flags ends with what follows them, and has counted the `l`s. -/
def Scanned (s : Spec) (fmt : List Byte) (ap : List Arg) (r : Option (Spec × Byte × List Byte × List Arg)) : Prop :=
  ∃ s', r = some (s', conversionOf fmt, (fmt.dropWhile isFlag).tail, ap) ∧
    s'.lflag = s.lflag + BitVec.ofNat 32 ((fmt.takeWhile isFlag).count (chr 'l'))

theorem Scanned.flag {s s₁ : Spec} {ap : List Arg} {r : Option (Spec × Byte × List Byte × List Arg)}
    (hc : isFlag c = true)
    (hl : c ≠ chr 'l') (hs : s₁.lflag = s.lflag) (h : Scanned s₁ fmt ap r) : Scanned s (c :: fmt) ap r := by
  obtain ⟨s', hr, hs'⟩ := h
  refine ⟨s', ?_, ?_⟩
  · rw [conversionOf_flag hc, List.dropWhile_cons_of_pos hc]
    exact hr
  · rw [count_flag hc hl, hs', hs]

theorem reswitch_flags (s : Spec) (fmt : List Byte) (stars : List Word) (ap : List Arg)
    (hs : stars.length = (fmt.takeWhile isFlag).count (chr '*')) :
    Scanned s fmt ap (reswitch s fmt (stars.map .int ++ ap)) := by
  generalize hx : stars.map Arg.int ++ ap = apx
  fun_induction reswitch s fmt apx generalizing stars with
  | case1 s apx =>
    cases List.eq_nil_of_length_eq_zero hs
    cases hx
    exact ⟨s, rfl, (BitVec.add_zero _).symm⟩
  | case2 s apx fmt ih =>
    exact (ih stars (hs.trans (count_flag (by decide) (by decide))) hx).flag (by decide) (by decide) rfl
  | case3 s apx fmt hne ih =>
    exact (ih stars (hs.trans (count_flag (by decide) (by decide))) hx).flag (by decide) (by decide) rfl
  | case4 s apx c fmt h1 h2 hd ih =>
    obtain ⟨hdrop, hcount⟩ := scanDigits_flags 0 (c :: fmt)
    obtain ⟨s', hr, hl⟩ := ih stars (hs.trans (hcount _ (by decide)).symm) hx
    refine ⟨s', ?_, ?_⟩
    · rwa [conversionOf, hdrop] at hr
    · rwa [processPrecision_lflag, hcount _ (by decide)] at hl
  | case5 s apx fmt precision ap₁ hv h1 h2 h3 ih =>
    have hc : isFlag (chr '*') = true := by decide
    rw [List.takeWhile_cons_of_pos hc, List.count_cons_self] at hs
    obtain ⟨v, stars, rfl⟩ := List.exists_cons_of_length_eq_add_one hs
    subst hx
    cases hv
    exact (ih stars (Nat.succ.inj hs) rfl).flag hc (by decide) (processPrecision_lflag s _)
  | case6 s apx fmt hv h1 h2 h3 =>
    have hc : isFlag (chr '*') = true := by decide
    rw [List.takeWhile_cons_of_pos hc, List.count_cons_self] at hs
    obtain ⟨v, stars, rfl⟩ := List.exists_cons_of_length_eq_add_one hs
    subst hx
    cases hv
  | case7 s apx fmt h1 h2 h3 h4 ih =>
    refine (ih stars (hs.trans (count_flag (by decide) (by decide))) hx).flag (by decide) (by decide) ?_
    by_cases hw : s.width.slt 0
    · rw [dif_pos hw]
    · rw [dif_neg hw]
  | case8 s apx fmt h1 h2 h3 h4 h5 ih =>
    exact (ih stars (hs.trans (count_flag (by decide) (by decide))) hx).flag (by decide) (by decide) rfl
  | case9 s apx fmt h1 h2 h3 h4 h5 h6 ih =>
    obtain ⟨s', hr, hl⟩ := ih stars (hs.trans (count_flag (by decide) (by decide))) hx
    have hc : isFlag (chr 'l') = true := by decide
    refine ⟨s', ?_, ?_⟩
    · rw [conversionOf_flag hc, List.dropWhile_cons_of_pos hc]
      exact hr
    · rw [List.takeWhile_cons_of_pos hc, List.count_cons_self, hl, Nat.add_comm, BitVec.ofNat_add, ← BitVec.add_assoc]
      rfl
  | case10 s apx c fmt h1 h2 h3 h4 h5 h6 h7 =>
    have hc : ¬ isFlag c = true := by
      simp only [isFlag, Bool.or_eq_true, List.contains_eq_mem, decide_eq_true_eq, List.mem_cons, List.not_mem_nil]
      tauto
    rw [List.takeWhile_cons_of_neg hc] at hs
    cases List.eq_nil_of_length_eq_zero hs
    cases hx
    refine ⟨s, ?_, ?_⟩
    · rw [conversionOf_other hc, List.dropWhile_cons_of_neg hc]
      rfl
    · rw [List.takeWhile_cons_of_neg hc]
      exact (BitVec.add_zero _).symm

/-! ## The arguments of a format -/

def lflagOf (flags : List Byte) : Word := BitVec.ofNat 32 (flags.count (chr 'l'))

inductive ArgFor (mem : Fmt.Memory) (flags : List Byte) : Byte → List Arg → Prop
  | char (v : Word) : ArgFor mem flags (chr 'c') [.int v]
  | error {v : Word} (hv : v ≠ leastInt) : ArgFor mem flags (chr 'e') [.int v]
  | null : ArgFor mem flags (chr 's') [.ptr 0]
  | str {p : Word} {str : CStr} (hp : p ≠ 0) (h : Fmt.Holds mem p str.bytes) : ArgFor mem flags (chr 's') [.ptr p]
  | number {c : Byte} (hc : c = chr 'd' ∨ c = chr 'u' ∨ c = chr 'o' ∨ c = chr 'x') (hl : ¬ (2 : Word).sle (lflagOf flags))
      (v : Word) : ArgFor mem flags c [.int v]
  | longNumber {c : Byte} (hc : c = chr 'd' ∨ c = chr 'u' ∨ c = chr 'o' ∨ c = chr 'x') (hl : (2 : Word).sle (lflagOf flags))
      (v : BitVec 64) : ArgFor mem flags c [.longlong v]
  | pointer (v : Word) : ArgFor mem flags (chr 'p') [.ptr v]
  | percent : ArgFor mem flags (chr '%') []
  | unknown {c : Byte} (hc : isConversion c ≠ true) : ArgFor mem flags c []

/-- The arguments that a format reads, an `int` for every `*`, and any others behind them. -/
inductive ArgsFor (mem : Fmt.Memory) : List Piece → List Arg → Prop
  | nil (ap : List Arg) : ArgsFor mem [] ap
  | text (c : Byte) {ps : List Piece} {ap : List Arg} (h : ArgsFor mem ps ap) : ArgsFor mem (.text c :: ps) ap
  | directive {flags : List Byte} {c : Byte} {stars : List Word} {args : List Arg} {ps : List Piece} {ap : List Arg}
      (hs : stars.length = flags.count (chr '*')) (ha : ArgFor mem flags c args) (h : ArgsFor mem ps ap) :
      ArgsFor mem (.directive flags c :: ps) (stars.map .int ++ (args ++ ap))
  | unfinished {flags : List Byte} {stars : List Word} {ap : List Arg} (hs : stars.length = flags.count (chr '*')) :
      ArgsFor mem [.unfinished flags] (stars.map .int ++ ap)

/-! ## One directive -/

variable {mem : Fmt.Memory} {args : List Arg}

theorem Fmt.ArgsIn.append {a a' b b' : List Arg} (h : List.Forall₂ (Fmt.ArgIn mem) a a') (hb : Fmt.ArgsIn mem b b') :
    Fmt.ArgsIn mem (a ++ b) (a' ++ b') := by
  induction h with
  | nil => exact hb
  | cons hd _ ih => exact .cons hd ih

theorem Fmt.ArgsIn.stars (stars : List Word) {b b' : List Arg} (hb : Fmt.ArgsIn mem b b') :
    Fmt.ArgsIn mem (stars.map .int ++ b) (stars.map .int ++ b') := by
  induction stars with
  | nil => exact hb
  | cons v stars ih => exact .cons (.int v) ih

theorem emitConv_error {s : Spec} {v : Word} (hv : v ≠ leastInt) (ap : List Arg) :
    emitConv s (chr 'e') (.int v :: ap) = some (ap, errorText (magnitude v)) := by
  have h := convertErr_text hv []
  rw [← convertErr_plain, List.nil_append] at h
  rw [emitConv, convert_e, vaInt, Option.bind_some, h]
  rfl

theorem emitConv_long {s : Spec} {c : Byte} (hc : c = chr 'd' ∨ c = chr 'u' ∨ c = chr 'o' ∨ c = chr 'x') {a : Arg}
    {ap : List Arg}
    (hu : ∃ v, getuint (a :: ap) s.lflag = some (v, ap)) (hi : ∃ v, getint (a :: ap) s.lflag = some (v, ap)) :
    ∃ out, emitConv s c (a :: ap) = some (ap, out) := by
  obtain ⟨v, hu⟩ := hu
  obtain ⟨w, hi⟩ := hi
  rcases hc with rfl | hc
  · by_cases hw : w.slt 0
    · exact ⟨_, emitConv_negative hi hw⟩
    · exact ⟨_, emitConv_natural hi hw⟩
  · rw [emitConv, convert_unsigned hc, hu]
    exact ⟨_, rfl⟩

theorem ArgFor.emits (h : ArgFor mem flags c args) (hc : isConversion c = true) :
    ∃ argsL, List.Forall₂ (Fmt.ArgIn mem) argsL args ∧
      ∀ s ap, s.lflag = lflagOf flags → ∃ out, emitConv s c (argsL ++ ap) = some (ap, out) := by
  cases h with
  | char v => exact ⟨[.int v], .cons (.int v) .nil, fun s ap _ => ⟨_, by rw [emitConv, convert_c]; rfl⟩⟩
  | error hv => exact ⟨[.int _], .cons (.int _) .nil, fun s ap _ => ⟨_, emitConv_error hv ap⟩⟩
  | null => exact ⟨[.str none], .cons .null .nil, fun s ap _ => ⟨_, emitConv_str s none ap⟩⟩
  | str hp hh => exact ⟨[.str (some _)], .cons (.str hp hh) .nil, fun s ap _ => ⟨_, emitConv_str s _ ap⟩⟩
  | number hn hl v =>
    refine ⟨[.int v], .cons (.int v) .nil, fun s ap hs => emitConv_long hn ⟨v.setWidth 64, ?_⟩ ⟨v.signExtend 64, ?_⟩⟩
    · rw [hs]
      exact if_neg hl
    · rw [hs]
      exact if_neg hl
  | longNumber hn hl v =>
    refine ⟨[.longlong v], .cons (.longlong v) .nil, fun s ap hs => emitConv_long hn ⟨v, ?_⟩ ⟨v, ?_⟩⟩
    · rw [hs]
      exact if_pos hl
    · rw [hs]
      exact if_pos hl
  | pointer v => exact ⟨[.ptr v], .cons (.ptr v) .nil, fun s ap _ => ⟨_, by rw [emitConv, convert_p]; rfl⟩⟩
  | percent => exact ⟨[], .nil, fun s ap _ => ⟨_, convert_percent⟩⟩
  | unknown hn => exact absurd hc hn

theorem ArgFor.nil (h : ArgFor mem flags c args) (hc : isConversion c ≠ true) : args = [] := by
  have number : c = chr 'd' ∨ c = chr 'u' ∨ c = chr 'o' ∨ c = chr 'x' → isConversion c = true := by
    rintro (rfl | rfl | rfl | rfl) <;> decide
  cases h with
  | number hn _ _ => exact absurd (number hn) hc
  | longNumber hn _ _ => exact absurd (number hn) hc
  | percent => rfl
  | unknown _ => rfl
  | char _ => exact absurd rfl hc
  | error _ => exact absurd rfl hc
  | null => exact absurd rfl hc
  | str _ _ => exact absurd rfl hc
  | pointer _ => exact absurd rfl hc

theorem emit_literal_append {str : List Byte} (hs : chr '%' ∉ str) (fmt : List Byte) (ap : List Arg) :
    emit (str ++ fmt) ap = (emit fmt ap).map (words str ++ ·) := by
  induction str with
  | nil =>
    rw [List.nil_append]
    exact Option.map_id'.symm
  | cons b str ih =>
    rw [List.mem_cons, not_or] at hs
    rw [List.cons_append, emit_char (Ne.symm hs.1), ih hs.2, Option.map_map]
    rfl

/-! ## The whole format -/

/-- What is no supported conversion stands in the output as it does in the format. -/
def Shown (p : Piece) (out : List Word) : Prop := p.supported = false → out = words p.bytes

theorem emit_unfinished {stars : List Word} (hdrop : fmt.dropWhile isFlag = [])
    (hs : stars.length = (fmt.takeWhile isFlag).count (chr '*')) :
    emit (chr '%' :: fmt) (stars.map .int ++ []) = some (words (chr '%' :: fmt)) := by
  obtain ⟨s', hr, -⟩ := reswitch_flags Spec.init fmt stars [] hs
  have hconv : isConversion (conversionOf fmt) ≠ true := by
    rw [conversionOf, hdrop]
    decide
  have hplain : chr '%' ∉ fmt := by
    rw [all_flags hdrop]
    exact not_percent_of_flag (takeWhile_flags fmt)
  rw [emit_default hr hconv, emit_literal hplain]
  rfl

theorem conversionOf_eq (hdrop : fmt.dropWhile isFlag = c :: rest) : conversionOf fmt = c := by
  rw [conversionOf, hdrop]
  rfl

theorem emit_known {stars : List Word} (hdrop : fmt.dropWhile isFlag = c :: rest)
    (hs : stars.length = (fmt.takeWhile isFlag).count (chr '*')) (hc : isConversion c = true) (ap : List Arg) :
    ∃ s, s.lflag = lflagOf (fmt.takeWhile isFlag) ∧ emit (chr '%' :: fmt) (stars.map .int ++ ap) =
      (emitConv s c ap).bind fun x => (emit rest x.1).map (x.2 ++ ·) := by
  obtain ⟨s, hr, hl⟩ := reswitch_flags Spec.init fmt stars ap hs
  rw [conversionOf_eq hdrop, hdrop] at hr
  exact ⟨s, hl.trans (BitVec.zero_add _), emit_conv hr hc⟩

theorem emit_unknown {stars : List Word} (hdrop : fmt.dropWhile isFlag = c :: rest)
    (hs : stars.length = (fmt.takeWhile isFlag).count (chr '*')) (hc : ¬ isConversion c = true) (ap : List Arg) :
    emit (chr '%' :: fmt) (stars.map .int ++ ap) =
      (emit rest ap).map (words (chr '%' :: (fmt.takeWhile isFlag ++ [c])) ++ ·) := by
  obtain ⟨s, hr, -⟩ := reswitch_flags Spec.init fmt stars ap hs
  rw [conversionOf_eq hdrop] at hr
  have hplain : chr '%' ∉ fmt.takeWhile isFlag ++ [c] := by
    rw [List.mem_append, List.mem_singleton, not_or]
    refine ⟨not_percent_of_flag (takeWhile_flags fmt), ?_⟩
    intro he
    subst he
    exact hc rfl
  have hfmt : fmt = (fmt.takeWhile isFlag ++ [c]) ++ rest := by
    rw [List.append_assoc, List.singleton_append]
    exact split_flags hdrop
  rw [emit_default hr hc]
  conv_lhs => rw [hfmt]
  rw [emit_literal_append hplain, Option.map_map]
  rfl

theorem emit_pieces (fmt : List Byte) {ap : List Arg} (h : ArgsFor mem (pieces fmt) ap) :
    ∃ apL outs, Fmt.ArgsIn mem apL ap ∧
    emit fmt apL = some outs.flatten ∧ List.Forall₂ Shown (pieces fmt) outs := by
  fun_induction pieces fmt generalizing ap with
  | case1 => exact ⟨[], [], .nil ap, emit_nil [], .nil⟩
  | case2 ch fmt hch ih =>
    cases h with
    | text _ h =>
      obtain ⟨apL, outs, ha, ho, hs⟩ := ih h
      refine ⟨apL, [ch.setWidth 32] :: outs, ha, ?_, .cons (fun _ => rfl) hs⟩
      rw [emit_char hch, ho]
      rfl
  | case3 ch fmt hch hdrop =>
    rw [not_not] at hch
    subst hch
    cases h with
    | @unfinished _ stars ap hstar =>
      refine ⟨stars.map .int ++ [], [words (chr '%' :: fmt)], .stars stars (.nil ap), ?_, .cons (fun _ => ?_) .nil⟩
      · rw [emit_unfinished hdrop hstar, List.flatten_singleton]
      · rw [Piece.bytes, ← all_flags hdrop]
  | case4 ch fmt hch c rest hdrop ih =>
    rw [not_not] at hch
    subst hch
    cases h with
    | directive hstar harg h =>
      obtain ⟨apL, outs, ha, ho, hs⟩ := ih h
      by_cases hc : isConversion c = true
      · obtain ⟨argsL, hargs, hemits⟩ := harg.emits hc
        obtain ⟨s, hl, hemit⟩ := emit_known hdrop hstar hc (argsL ++ apL)
        obtain ⟨out, hout⟩ := hemits s apL hl
        refine ⟨_, out :: outs, (Fmt.ArgsIn.append hargs ha).stars _, ?_, .cons (fun hn => ?_) hs⟩
        · rw [hemit, hout]
          exact congrArg (Option.map (out ++ ·)) ho
        · exact absurd hn (ne_true_of_eq_false · hc)
      · cases harg.nil hc
        refine ⟨_, words (chr '%' :: (fmt.takeWhile isFlag ++ [c])) :: outs, ha.stars _, ?_, .cons (fun _ => rfl) hs⟩
        rw [emit_unknown hdrop hstar hc, ho]
        rfl

theorem flatten_shown {ps : List Piece} {outs : List (List Word)} (h : List.Forall₂ Shown ps outs)
    (hp : ∀ p ∈ ps, p.supported = false) : outs.flatten = words (ps.flatMap Piece.bytes) := by
  induction h with
  | nil => rfl
  | cons hd _ ih =>
    obtain ⟨hp, hps⟩ := List.forall_mem_cons.mp hp
    rw [List.flatten_cons, hd hp, ih hps, List.flatMap_cons, words, words, words, List.map_append]

/-- **Any format** that ends in a NUL, with its arguments: the run comes to an end and reads the format only, and
what is no supported conversion is printed as it stands. -/
theorem vprintfmt_ends (fm : Fmt.Memory) (f : Word) (fmt : CStr) (hf : Fmt.Holds fm f fmt.bytes) (mem : Fmt.Memory)
    (ap : List Arg) (ha : ArgsFor mem (pieces fmt.bytes) ap) :
    ∃ outs : List (List Word),
      Fmt.Prints fm mem f ap outs.flatten ∧ List.Forall₂ Shown (pieces fmt.bytes) outs ∧
        ((∀ p ∈ pieces fmt.bytes, p.supported = false) → outs.flatten = words fmt.bytes) := by
  obtain ⟨apL, outs, hin, ho, hs⟩ := emit_pieces fmt.bytes ha
  refine ⟨outs, Fmt.prints_of_emitted hf hin ho, hs, fun hp => ?_⟩
  rw [flatten_shown hs hp, flatMap_pieces]

theorem pieces_unknown : pieces [chr '%', chr '-', chr 'z'] = [.directive [chr '-'] (chr 'z')] := by
  rw [pieces, if_neg (by decide)]
  have hdrop : [chr '-', chr 'z'].dropWhile isFlag = [chr 'z'] := by decide
  have htake : [chr '-', chr 'z'].takeWhile isFlag = [chr '-'] := by decide
  split
  · next h =>
    rw [hdrop] at h
    cases h
  · next h =>
    rw [hdrop] at h
    cases h
    rw [htake, pieces]

theorem vprintfmt_ends_small : ∃ outs : List (List Word),
    Fmt.Prints (Fmt.bytesAt 0x1000 [chr '%', chr '-', chr 'z', 0]) (fun _ => none) 0x1000 [] outs.flatten ∧
      outs.flatten = words (CStr.lit "%-z").bytes := by
  have hb : (CStr.lit "%-z").bytes = [chr '%', chr '-', chr 'z'] := by decide
  have hf : Fmt.Holds (Fmt.bytesAt 0x1000 [chr '%', chr '-', chr 'z', 0]) 0x1000 (CStr.lit "%-z").bytes := by
    rw [hb]
    exact @Fmt.holds_bytesAt [chr '%', chr '-', chr 'z'] 0x1000 (by decide)
  have hfit : ArgsFor (fun _ => none) (pieces (CStr.lit "%-z").bytes) [] := by
    rw [hb, pieces_unknown]
    exact @ArgsFor.directive _ [chr '-'] (chr 'z') [] [] [] [] rfl (.unknown (by decide)) (.nil [])
  obtain ⟨outs, hend, -, hsame⟩ := vprintfmt_ends _ 0x1000 (.lit "%-z") hf (fun _ => none) [] hfit
  refine ⟨outs, hend, hsame ?_⟩
  rw [hb, pieces_unknown]
  decide

end

end Jos
