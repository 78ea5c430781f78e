import Jos.ScanSound
import Jos.PutcSound

/-!
# `sys_cputs`

The loop of `%s` reads a byte before it looks at the precision, so that the kernel
reads one byte behind a buffer without a NUL. A NUL inside of it ends the output, and
a length from 2^31 on is a negative precision, which is none.
-/

namespace Jos.Fmt

variable {mem fm : Memory} {s f len : Word} {bs : List Byte}

def Has (mem : Memory) (p : Word) (bs : List Byte) : Prop :=
  ∀ i, (hi : i < bs.length) → mem (p + BitVec.ofNat 32 i) = some bs[i]

theorem Has.head {b : Byte} (h : Has mem s (b :: bs)) : mem s = some b := by
  have h0 := h 0 (Nat.succ_pos _)
  rwa [BitVec.add_zero] at h0

theorem Has.tail {b : Byte} (h : Has mem s (b :: bs)) : Has mem (s + 1) bs := by
  intro i hi
  rw [← add_ofNat_succ]
  exact h (i + 1) (Nat.succ_lt_succ hi)

theorem has_bytesAt (s : Word) (hs : bs.length ≤ 2 ^ 32) : Has (bytesAt s bs) s bs := by
  intro i hi
  rw [bytesAt_add s bs (Nat.lt_of_lt_of_le hi hs), List.getElem?_eq_getElem hi]

theorem Has.holds (h : Has mem s bs) (h0 : 0 ∈ bs) : Holds mem s (bs.takeWhile (· != 0)) := by
  induction bs generalizing s with
  | nil => cases h0
  | cons b bs ih =>
    by_cases hb : b = 0
    · subst hb
      exact h.head
    · have hp : (b != 0) = true := bne_iff_ne.mpr hb
      rw [List.takeWhile_cons_of_pos (p := (· != 0)) hp]
      exact ⟨h.head, ih h.tail ((List.mem_cons.mp h0).resolve_left (Ne.symm hb))⟩

theorem Has.string (h : Has mem s (bs ++ [0])) : Holds mem s bs := by
  have hlen : (bs ++ [0]).length = bs.length + 1 := by simp
  refine holds_of_get ?_ fun i hi => ?_
  · rw [h bs.length (by omega), List.getElem_concat_length rfl]
  · rw [h i (by omega), List.getElem_append_left hi]

theorem Holds.unique {bs' : List Byte} (h : Holds mem s bs) (h' : Holds mem s bs') (hz : 0 ∉ bs) (hz' : 0 ∉ bs') :
    bs = bs' := by
  induction bs generalizing s bs' with
  | nil =>
    cases bs' with
    | nil => rfl
    | cons b bs' =>
      have hb : some 0 = some b := h.symm.trans h'.1
      cases hb
      exact absurd List.mem_cons_self hz'
  | cons b bs ih =>
    cases bs' with
    | nil =>
      have hb : some b = some 0 := h.1.symm.trans h'
      cases hb
      exact absurd List.mem_cons_self hz
    | cons b' bs' =>
      have hb : some b = some b' := h.1.symm.trans h'.1
      cases hb
      rw [ih h.2 h'.2 (mt (List.mem_cons_of_mem b) hz) (mt (List.mem_cons_of_mem b) hz')]

theorem not_mem_takeWhile (bs : List Byte) : 0 ∉ bs.takeWhile (· != 0) := fun h =>
  bne_iff_ne.mp (List.all_eq_true.mp (List.all_takeWhile (p := (· != 0))) 0 h) rfl

theorem length_takeWhile_lt (h0 : 0 ∈ bs) : (bs.takeWhile (· != 0)).length < bs.length := by
  have hp := List.takeWhile_prefix (l := bs) (· != 0)
  refine Nat.lt_of_le_of_ne hp.length_le fun he => not_mem_takeWhile bs ?_
  rwa [hp.eq_of_length he]

theorem Holds.stop (h : Holds mem s bs) : mem (s + BitVec.ofNat 32 bs.length) = some 0 := by
  have hd := h.drop (Nat.le_refl _)
  rwa [List.drop_length] at hd

theorem Holds.length_lt {str : CStr} (h : Holds mem s str.bytes) : str.bytes.length < 2 ^ 32 := by
  by_contra hge
  have hpos : str.bytes.length % 2 ^ 32 < str.bytes.length := by omega
  have hb := h.get hpos
  rw [ofNat_mod, h.stop, Option.some.injEq] at hb
  exact str.nonzero _ (List.getElem_mem hpos) hb.symm

/-! ## The loop of `%s` -/

section
variable {σ : Type} {putch : Word → σ → σ} {precision width : Word} {d : σ}

def Allows (precision : Word) (k : Nat) : Prop := precision.slt 0 ∨ k ≤ precision.toNat

theorem Allows.mono {j k : Nat} (h : Allows precision k) (hj : j ≤ k) : Allows precision j :=
  h.imp_right (Nat.le_trans hj)

theorem Allows.step {k : Nat} (h : Allows precision (k + 1)) : (precision.slt 0 ∨ (0 : Word).sle (precision - 1)) ∧
    Allows (if precision.slt 0 then precision else precision - 1) k := by
  by_cases hn : precision.slt 0
  · rw [if_pos hn]
    exact ⟨Or.inl hn, Or.inl hn⟩
  · have hk := h.resolve_left hn
    have hlt := precision.isLt
    have hsub := toNat_sub_one (w := precision) (by omega)
    rw [if_neg hn]
    rw [slt_zero_iff] at hn
    refine ⟨Or.inr ?_, Or.inr ?_⟩
    · rw [zero_sle_iff]
      omega
    · omega

def precisionAfter (precision : Word) (k : Nat) : Word :=
  if precision.slt 0 then precision else precision - BitVec.ofNat 32 k

theorem precisionAfter_succ {k : Nat} (h : Allows precision (k + 1)) :
    precisionAfter (if precision.slt 0 then precision else precision - 1) k = precisionAfter precision (k + 1) := by
  by_cases hn : precision.slt 0
  · rw [if_pos hn, precisionAfter, precisionAfter, if_pos hn, if_pos hn]
  · have hk := h.resolve_left hn
    have hsub := toNat_sub_one (w := precision) (by omega)
    have hn' : ¬ (precision - 1).slt 0 := by
      rw [slt_zero_iff] at hn ⊢
      omega
    rw [if_neg hn, precisionAfter, precisionAfter, if_neg hn, if_neg hn', Nat.add_comm, BitVec.ofNat_add,
      BitVec.sub_sub]
    rfl

theorem putStr_through (h : Has mem s bs) (hz : 0 ∉ bs) (alt : Bool) (ha : Allows precision bs.length)
    {r : Except Fault (Word × σ)} (hr : Settles (fun n => putStr putch mem alt n (s + BitVec.ofNat 32 bs.length)
      (precisionAfter precision bs.length) (width - BitVec.ofNat 32 bs.length) (bs.foldl (fun d b => putch (shown alt b) d) d)) r) :
    Settles (fun n => putStr putch mem alt n s precision width d) r := by
  induction bs generalizing s precision width d with
  | nil =>
    rw [List.length_nil, BitVec.add_zero, precisionAfter, BitVec.sub_zero, BitVec.sub_zero, ite_self] at hr
    exact hr
  | cons b bs ih =>
    rw [List.mem_cons, not_or] at hz
    obtain ⟨hcond, hallow⟩ := ha.step
    have hprec := precisionAfter_succ ha
    have hwidth : width - 1 - BitVec.ofNat 32 bs.length = width - BitVec.ofNat 32 (b :: bs).length := by
      rw [List.length_cons, Nat.add_comm, BitVec.ofNat_add, BitVec.sub_sub]
      rfl
    rw [List.length_cons, add_ofNat_succ, ← hprec, ← List.length_cons (a := b), ← hwidth] at hr
    apply (ih h.tail hz.2 hallow hr).step
    intro n
    rw [putStr, load_some h.head, ok_bind, if_neg (Ne.symm hz.1), if_pos hcond]
    rfl

theorem putStr_fault (h : mem s = none) (alt : Bool) :
    Settles (fun n => putStr putch mem alt n s precision width d) (.error .read) := by
  apply (Settles.const _).step
  intro n
  rw [putStr, load_none h, error_bind]

theorem putStr_stop {b : Byte} (h : mem s = some b) (hb : b = 0 ∨ precision = 0) (alt : Bool) :
    Settles (fun n => putStr putch mem alt n s precision width d) (.ok (width, d)) := by
  apply (Settles.const _).step
  intro n
  rw [putStr, load_some h, ok_bind]
  split
  · rfl
  · next hne =>
    have hp := hb.resolve_left hne
    rw [if_neg]
    rw [hp]
    decide

/-! ## The call -/

def cputsSpec (len : Word) : Spec := ⟨chr ' ', 0, len, 0, false⟩

theorem cputs_bytes : (CStr.lit "%.*s").bytes = [chr '%', chr '.', chr '*', chr 's'] := by decide

theorem reswitch_cputs (len : Word) (ap : List Arg) :
    Jos.reswitch Spec.init [chr '.', chr '*', chr 's'] (.int len :: ap) = some (cputsSpec len, chr 's', [], ap) := by
  rw [reswitch_dot, reswitch_star, reswitch_conversion (by decide)]
  rfl

theorem sysCputs_settles (hf : Holds fm f (CStr.lit "%.*s").bytes) {r : Except Fault σ}
    (h : Settles (fun n => convertStr putch mem n (cputsSpec len) s d) r) :
      Settles (fun n => sysCputs putch fm mem f n s len d) r := by
  rw [cputs_bytes] at hf
  have ha : ArgsIn mem [.int len, .ptr s] [.int len, .ptr s] := .cons (.int len) (.cons (.ptr s) (.nil []))
  obtain ⟨k, ap', ha', hk, -, hrest, hset⟩ := reswitch_settles hf.2 ha (reswitch_cputs len [.ptr s])
  obtain ⟨hlt, hdrop⟩ := hrest (by decide)
  have hend := hf.2.drop hlt
  rw [← hdrop] at hend
  obtain ⟨ap', rfl, -⟩ := ha'.same fun _ => Arg.noConfusion
  apply vprintfmt_percent hf.1 hset
  simp only [show isConversion (chr 's') = true by decide, if_true]
  cases r with
  | ok d' =>
    have hconv : Settles (fun n => convert putch mem n (cputsSpec len) (chr 's') (.ptr s :: ap') d) (.ok (ap', d')) :=
      h.bind (Settles.const _)
    refine hconv.bind ((Settles.const _).step fun n => ?_)
    rw [vprintfmt, load_some hend, ok_bind, if_pos (by decide), if_pos rfl]
  | error e =>
    have hconv : Settles (fun n => convert putch mem n (cputsSpec len) (chr 's') (.ptr s :: ap') d) (.error e) :=
      h.bind_error
    exact hconv.bind_error

theorem convertStr_cputs (hs : s ≠ 0) (n : Nat) : convertStr putch mem n (cputsSpec len) s d =
    (putStr putch mem false n s len 0 d >>= fun x => .ok (putPads putch ((chr ' ').setWidth 32) x.1 x.2)) := by
  unfold convertStr padLeft
  rw [if_neg hs, if_neg fun h => absurd (show (0 : Word).slt 0 from h.1) (by decide), ok_bind]
  rfl

theorem sysCputs_fault (hf : Holds fm f (CStr.lit "%.*s").bytes) (hs : s ≠ 0) {e : Fault}
    (h : Settles (fun n => putStr putch mem false n s len 0 d) (.error e)) :
    Settles (fun n => sysCputs putch fm mem f n s len d) (.error e) :=
  sysCputs_settles hf ((Settles.bind_error h).congr fun n => convertStr_cputs hs n)

theorem sysCputs_ok (hf : Holds fm f (CStr.lit "%.*s").bytes) (hs : s ≠ 0) {width : Word} {d' : σ}
    (h : Settles (fun n => putStr putch mem false n s len 0 d) (.ok (width, d'))) :
    Settles (fun n => sysCputs putch fm mem f n s len d) (.ok (putPads putch ((chr ' ').setWidth 32) width d')) :=
  sysCputs_settles hf ((Settles.bind h (Settles.const _)).congr fun n => convertStr_cputs hs n)

theorem sysCputs_null (hf : Holds fm f (CStr.lit "%.*s").bytes) :
    Settles (fun n => sysCputs putch fm mem f n 0 len d) (.ok (Jos.convertStr putch (cputsSpec len) null d)) :=
  sysCputs_settles hf ((Settles.const _).congr fun _ => if_pos rfl)

/-! ## A buffer and nothing else -/

theorem sysCputs_string (hf : Holds fm f (CStr.lit "%.*s").bytes) (hs : s ≠ 0) (h : Has mem s bs) (h0 : 0 ∈ bs) :
    Settles (fun n => sysCputs putch fm mem f n s len d)
      (.ok (putPads putch ((chr ' ').setWidth 32) (Jos.putStr putch false (bs.takeWhile (· != 0)) len 0 d).1
        (Jos.putStr putch false (bs.takeWhile (· != 0)) len 0 d).2)) := by
  have hz : ∀ b ∈ bs.takeWhile (· != 0), b ≠ 0 := fun b hb h0 => not_mem_takeWhile bs (h0 ▸ hb)
  exact sysCputs_ok hf hs (putStr_settles (h.holds h0) hz false len 0 d)

theorem allows_length (hlen : bs.length < 2 ^ 32) : Allows (BitVec.ofNat 32 bs.length) bs.length := by
  refine Or.inr (Nat.le_of_eq ?_)
  rw [BitVec.toNat_ofNat, Nat.mod_eq_of_lt hlen]

theorem sysCputs_outside (hf : Holds fm f (CStr.lit "%.*s").bytes) (hs : s ≠ 0) (h : Has mem s bs) (h0 : 0 ∉ bs)
    (hlen : bs.length < 2 ^ 32) (hend : mem (s + BitVec.ofNat 32 bs.length) = none) :
    Settles (fun n => sysCputs putch fm mem f n s (BitVec.ofNat 32 bs.length) d) (.error .read) :=
  sysCputs_fault hf hs (putStr_through h h0 false (allows_length hlen) (putStr_fault hend false))

end

/-- **What is read**: `%.*s` of a buffer with its length stays in the buffer just when it meets a NUL there,
or reads the text for NULL instead. -/
theorem sysCputs_inside_iff (hf : Holds fm f (CStr.lit "%.*s").bytes) (s : Word) (bs : List Byte)
    (hlen : bs.length < 2 ^ 32) {σ : Type} (putch : Word → σ → σ) (d : σ) :
    (∃ d', Settles (fun n => sysCputs putch fm (bytesAt s bs) f n s (BitVec.ofNat 32 bs.length) d) (.ok d')) ↔
      s = 0 ∨ 0 ∈ bs := by
  have hhas := has_bytesAt s (Nat.le_of_lt hlen)
  constructor
  · rintro ⟨d', hd⟩
    by_contra hno
    rw [not_or] at hno
    have hend : bytesAt s bs (s + BitVec.ofNat 32 bs.length) = none := by
      rw [bytesAt_add s bs hlen, List.getElem?_eq_none (Nat.le_refl _)]
    cases hd.unique (sysCputs_outside hf hno.1 hhas hno.2 hlen hend)
  · rintro (rfl | h0)
    · exact ⟨_, sysCputs_null hf⟩
    · by_cases hs : s = 0
      · subst hs
        exact ⟨_, sysCputs_null hf⟩
      · exact ⟨_, sysCputs_string hf hs hhas h0⟩

def cputsFmt : Memory := bytesAt 0x2000 ((CStr.lit "%.*s").bytes ++ [0])

theorem holds_cputsFmt : Holds cputsFmt 0x2000 (CStr.lit "%.*s").bytes := by
  apply holds_bytesAt
  rw [cputs_bytes]
  decide

theorem sysCputs_inside_small :
    ∃ d', Settles (fun n => sysCputs collect cputsFmt (bytesAt 0x1000 [chr 'a', 0]) 0x2000 n 0x1000 2 [])
    (.ok d') := (sysCputs_inside_iff holds_cputsFmt 0x1000 [chr 'a', 0] (by decide) collect []).mpr (Or.inr (by decide))

/-- One byte is enough. -/
theorem sysCputs_reads_on : ¬ ∀ (fm : Memory) (f s : Word) (bs : List Byte), Holds fm f (CStr.lit "%.*s").bytes →
    bs.length < 2 ^ 32 → 0 ∉ bs →
    ∃ d', Settles (fun n => sysCputs collect fm (bytesAt s bs) f n s (BitVec.ofNat 32 bs.length) []) (.ok d') := by
  intro h
  have hlen : [chr 'a'].length < 2 ^ 32 := by decide
  obtain ⟨d', hd⟩ := h cputsFmt 0x2000 0x1000 [chr 'a'] holds_cputsFmt hlen (by decide)
  cases hd.unique (sysCputs_outside holds_cputsFmt (by decide) (has_bytesAt 0x1000 (Nat.le_of_lt hlen)) (by decide) hlen (by decide))

/-! ## What the console gets -/

def Sends (fm mem : Memory) (f s len : Word) (cs : List Word) : Prop := ∀ (σ : Type) (putch : Word → σ → σ) (d : σ),
  Settles (fun n => sysCputs putch fm mem f n s len d) (.ok (cs.foldl (fun d ch => putch ch d) d))

theorem Sends.unique {cs cs' : List Word} (h : Sends fm mem f s len cs) (h' : Sends fm mem f s len cs') : cs = cs' := by
  have hp : Prints fm mem f [.int len, .ptr s] cs := h
  exact hp.unique h'

theorem Sends.no_fault {cs : List Word} (h : Sends fm mem f s len cs) {e : Fault} :
    ¬ Settles (fun n => sysCputs collect fm mem f n s len []) (.error e) := by
  intro he
  cases (h _ collect []).unique he

theorem Sends.console {cs : List Word} (h : Sends fm mem f s len cs) (cons : Console) (cnt : Word) :
    Settles (fun n => sysCputs kernPutch fm mem f n s len ⟨cons, cnt⟩) (.ok ⟨cons.puts cs, cnt⟩) := by
  have hcons : ∀ cons : Console, cs.foldl (fun d ch => kernPutch ch d) ⟨cons, cnt⟩ = ⟨cons.puts cs, cnt⟩ := by
    clear h
    induction cs with
    | nil => exact fun _ => rfl
    | cons c cs ih => exact fun cons => ih (cons.cputchar c)
  rw [← hcons]
  exact h _ kernPutch ⟨cons, cnt⟩

theorem low_shown (b : Byte) : Console.low (shown false b) = b := by
  have hs : shown false b = b.signExtend 32 := if_neg fun h => Bool.noConfusion h.1
  rw [hs, Console.low]
  apply BitVec.eq_of_getLsbD_eq
  intro i hi
  simp only [BitVec.getLsbD_setWidth, BitVec.getLsbD_signExtend, hi, if_true, decide_true, Bool.true_and]
  simp [show i < 32 by omega]

theorem map_low_shown (str : List Byte) : (str.map (shown false)).map Console.low = str := by
  rw [List.map_map]
  exact (List.map_congr_left fun b _ => low_shown b).trans (List.map_id str)

theorem pads_after {k : Nat} (hk : k < 2 ^ 32) :
    (0 - BitVec.ofNat 32 k : Word).toInt.toNat = if 2 ^ 31 < k then 2 ^ 32 - k else 0 := by
  rw [toNat_toInt, toNat_sub_ofNat hk, show (0 : Word).toNat = 0 from rfl]
  split <;> split <;> omega

theorem putPads_foldl {σ : Type} (putch : Word → σ → σ) (c width : Word) (d : σ) :
    putPads putch c width d = (List.replicate width.toInt.toNat c).foldl (fun d ch => putch ch d) d := by
  unfold putPads
  generalize width.toInt.toNat = n
  induction n generalizing d with
  | zero => rfl
  | succ n ih => rw [Function.iterate_succ_apply, ih, List.replicate_succ, List.foldl_cons]

def cputsChars (str : List Byte) : List Word :=
  str.map (shown false) ++ List.replicate (if 2 ^ 31 < str.length then 2 ^ 32 - str.length else 0) ((chr ' ').setWidth 32)

theorem length_cputsChars (str : List Byte) : (cputsChars str).length =
    str.length + if 2 ^ 31 < str.length then 2 ^ 32 - str.length else 0 := by
  rw [cputsChars, List.length_append, List.length_map, List.length_replicate]

theorem low_cputsChars {str : List Byte} (h : str.length ≤ 2 ^ 31) : (cputsChars str).map Console.low = str := by
  rw [cputsChars, if_neg (Nat.not_lt.mpr h), List.replicate_zero, List.append_nil, map_low_shown]

theorem sends_string {str : List Byte} (hf : Holds fm f (CStr.lit "%.*s").bytes) (hs : s ≠ 0) (h : Has mem s str)
    (h0 : 0 ∉ str)
    (hlen : str.length < 2 ^ 32) (ha : Allows len str.length) {b : Byte} (hb : mem (s + BitVec.ofNat 32 str.length) = some b)
    (hend : b = 0 ∨ precisionAfter len str.length = 0) : Sends fm mem f s len (cputsChars str) := by
  intro σ putch d
  have hrun : Settles (fun n => sysCputs putch fm mem f n s len d) (.ok (putPads putch ((chr ' ').setWidth 32)
      (0 - BitVec.ofNat 32 str.length) (str.foldl (fun d b => putch (shown false b) d) d))) :=
    sysCputs_ok hf hs (putStr_through h h0 false ha (putStr_stop hb hend false))
  rwa [putPads_foldl, pads_after hlen, ← List.foldl_map (f := shown false) (g := fun d ch => putch ch d),
    ← List.foldl_append]
    at hrun

theorem first_stop (mem : Memory) (s : Word) : (∃ str : List Byte, Has mem s str ∧ 0 ∉ str ∧ str.length < 2 ^ 32 ∧
      (mem (s + BitVec.ofNat 32 str.length) = none ∨ mem (s + BitVec.ofNat 32 str.length) = some 0)) ∨
    ∀ a, ∃ b, mem a = some b ∧ b ≠ 0 := by
  classical
  by_cases hex : ∃ k, mem (s + BitVec.ofNat 32 k) = none ∨ mem (s + BitVec.ofNat 32 k) = some 0
  · left
    have hbelow : ∀ i < Nat.find hex, ∃ b, mem (s + BitVec.ofNat 32 i) = some b ∧ b ≠ 0 := by
      intro i hi
      have hno := Nat.find_min hex hi
      rw [not_or] at hno
      obtain ⟨b, hb⟩ := Option.ne_none_iff_exists'.mp hno.1
      exact ⟨b, hb, fun h0 => hno.2 (h0 ▸ hb)⟩
    have hlt : Nat.find hex < 2 ^ 32 := by
      have hle := Nat.find_min' hex (m := Nat.find hex % 2 ^ 32) (by rw [ofNat_mod]; exact Nat.find_spec hex)
      omega
    refine ⟨(List.range (Nat.find hex)).map fun i => (mem (s + BitVec.ofNat 32 i)).getD 0, ?_, ?_, ?_, ?_⟩
    · intro i hi
      rw [List.length_map, List.length_range] at hi
      obtain ⟨b, hb, -⟩ := hbelow i hi
      rw [List.getElem_map, List.getElem_range, hb]
      rfl
    · intro hm
      obtain ⟨i, hi, he⟩ := List.mem_map.mp hm
      obtain ⟨b, hb, hne⟩ := hbelow i (List.mem_range.mp hi)
      rw [hb] at he
      exact hne he
    · rwa [List.length_map, List.length_range]
    · rw [List.length_map, List.length_range]
      exact Nat.find_spec hex
  · right
    intro a
    have ha : s + BitVec.ofNat 32 (a - s).toNat = a := by
      rw [BitVec.ofNat_toNat, BitVec.setWidth_eq, BitVec.add_comm, BitVec.sub_add_cancel]
    have hno := not_exists.mp hex (a - s).toNat
    rw [ha, not_or] at hno
    obtain ⟨b, hb⟩ := Option.ne_none_iff_exists'.mp hno.1
    exact ⟨b, hb, fun h0 => hno.2 (h0 ▸ hb)⟩

theorem putStr_forever {σ : Type} {putch : Word → σ → σ} (h : ∀ a, ∃ b, mem a = some b ∧ b ≠ 0) {precision : Word}
    (hp : precision.slt 0) (alt : Bool) (n : Nat) (p width : Word) (d : σ) :
    putStr putch mem alt n p precision width d = .error .fuel := by
  induction n generalizing p width d with
  | zero => rfl
  | succ n ih =>
    obtain ⟨b, hb, hne⟩ := h p
    rw [putStr, load_some hb, ok_bind, if_neg hne, if_pos (Or.inl hp), if_pos hp]
    exact ih _ _ _

def Sendable (mem : Memory) (s : Word) (bs : List Byte) : Prop :=
  if s = 0 then bs <+: null.bytes
  else 0 ∉ bs ∧ (bs.length < 2 ^ 31 ∧ (mem (s + BitVec.ofNat 32 bs.length)).isSome ∨
    bs.length = 2 ^ 31 ∧ mem (s + BitVec.ofNat 32 bs.length) = some 0)

theorem length_null : null.bytes.length = 6 := by decide

theorem sends_null (hf : Holds fm f (CStr.lit "%.*s").bytes) :
    Sends fm mem f 0 len ((null.bytes.take (shownLength null.bytes len)).map (shown false)) := by
  intro σ putch d
  have hfold : (Jos.convertStr collect (cputsSpec len) null []).foldl (fun d ch => putch ch d) d =
      Jos.convertStr putch (cputsSpec len) null d :=
    convertStr_map (f := fun out => out.foldl (fun d ch => putch ch d) d)
      (fun c out => by rw [collect, List.foldl_append, List.foldl_cons, List.foldl_nil]) (cputsSpec len) null []
  have hle : shownLength null.bytes len ≤ 6 := by
    rw [shownLength, length_null]
    split <;> omega
  have hleft : Jos.padLeft collect (cputsSpec len) null.bytes [] = (0, []) :=
    padLeft_narrow (show ¬ (0 : Word).slt 0 by decide) _ _
  have hprec : (cputsSpec len).precision = len := rfl
  have halt : (cputsSpec len).altflag = false := rfl
  rw [convertStr_collect, hleft, hprec, halt, pads_after (by omega), if_neg (by omega), List.replicate_zero,
    List.append_nil,
    List.nil_append] at hfold
  rw [hfold]
  exact sysCputs_null hf

theorem sends_of_sendable (hf : Holds fm f (CStr.lit "%.*s").bytes) (h : Has mem s bs) (hlen : bs.length < 2 ^ 32)
    (hok : Sendable mem s bs) : ∃ cs, Sends fm mem f s (BitVec.ofNat 32 bs.length) cs ∧ cs.map Console.low = bs := by
  unfold Sendable at hok
  by_cases hs : s = 0
  · rw [if_pos hs] at hok
    subst hs
    refine ⟨_, sends_null hf, ?_⟩
    have hle := hok.length_le
    rw [length_null] at hle
    have hpos : ¬ (BitVec.ofNat 32 bs.length).slt 0 := mt (slt_ofNat_iff hlen).mp (by omega)
    have hshown : shownLength null.bytes (BitVec.ofNat 32 bs.length) = bs.length := by
      rw [shownLength, if_neg hpos, BitVec.toNat_ofNat, Nat.mod_eq_of_lt hlen, length_null, Nat.min_eq_right hle]
    rw [hshown, ← List.prefix_iff_eq_take.mp hok, map_low_shown]
  · rw [if_neg hs] at hok
    obtain ⟨h0, hcase⟩ := hok
    have ha := allows_length hlen
    rcases hcase with ⟨hlt, hsome⟩ | ⟨heq, hz⟩
    · obtain ⟨b, hb⟩ := Option.isSome_iff_exists.mp hsome
      have hzero : precisionAfter (BitVec.ofNat 32 bs.length) bs.length = 0 := by
        rw [precisionAfter, if_neg (mt (slt_ofNat_iff hlen).mp (by omega)), BitVec.sub_self]
        rfl
      exact ⟨_, sends_string hf hs h h0 hlen ha hb (Or.inr hzero), low_cputsChars (Nat.le_of_lt hlt)⟩
    · exact ⟨_, sends_string hf hs h h0 hlen ha hz (Or.inl rfl), low_cputsChars (Nat.le_of_eq heq)⟩

section
variable (hf : Holds fm f (CStr.lit "%.*s").bytes) (hs : s ≠ 0) (hlen : bs.length < 2 ^ 32) {cs : List Word}
  (hcs : Sends fm mem f s (BitVec.ofNat 32 bs.length) cs) (hlow : cs.map Console.low = bs)
include hf hs hlen hcs hlow

theorem no_zero_of_sends (h : Has mem s bs) (hlt : bs.length < 2 ^ 31) : 0 ∉ bs := by
  intro h0
  have hstr := h.holds h0
  have hk := length_takeWhile_lt h0
  have ha : Allows (BitVec.ofNat 32 bs.length) (bs.takeWhile (· != 0)).length :=
    (allows_length hlen).mono (Nat.le_of_lt hk)
  have hsame := hcs.unique
    (sends_string hf hs (fun i hi => hstr.get hi) (not_mem_takeWhile bs) (by omega) ha hstr.stop (Or.inl rfl))
  have hl := length_cputsChars (bs.takeWhile (· != 0))
  rw [← hsame, ← List.length_map (f := Console.low), hlow, if_neg (by omega)] at hl
  omega

theorem length_of_sends (hge : 2 ^ 31 ≤ bs.length) :
    0 ∉ bs ∧ bs.length = 2 ^ 31 ∧ mem (s + BitVec.ofNat 32 bs.length) = some 0 := by
  have hneg := (slt_ofNat_iff hlen).mpr hge
  rcases first_stop mem s with ⟨str, hstr, hz, hltstr, hnone | hzero⟩ | hforever
  · exact absurd (sysCputs_fault hf hs (putStr_through hstr hz false (Or.inl hneg) (putStr_fault hnone false))) hcs.no_fault
  · have hsame := hcs.unique (sends_string hf hs hstr hz hltstr (Or.inl hneg) hzero (Or.inl rfl))
    have hl := length_cputsChars str
    rw [← hsame, ← List.length_map (f := Console.low), hlow] at hl
    have hle : str.length ≤ 2 ^ 31 := by
      by_contra hgt
      rw [if_pos (by omega)] at hl
      omega
    rw [hsame, low_cputsChars hle] at hlow
    subst hlow
    exact ⟨hz, by omega, hzero⟩
  · have hrun : Settles (fun n => putStr collect mem false n s (BitVec.ofNat 32 bs.length) 0 []) (.error .fuel) :=
      (Settles.const _).congr fun n => putStr_forever hforever hneg false n s 0 []
    exact absurd (sysCputs_fault hf hs hrun) hcs.no_fault

end

theorem sendable_of_sends (hf : Holds fm f (CStr.lit "%.*s").bytes) (h : Has mem s bs) (hlen : bs.length < 2 ^ 32)
    {cs : List Word} (hcs : Sends fm mem f s (BitVec.ofNat 32 bs.length) cs) (hlow : cs.map Console.low = bs) :
    Sendable mem s bs := by
  unfold Sendable
  by_cases hs : s = 0
  · subst hs
    rw [if_pos rfl, ← hlow, hcs.unique (sends_null hf), map_low_shown]
    exact List.take_prefix _ _
  · rw [if_neg hs]
    rcases Nat.lt_or_ge bs.length (2 ^ 31) with hlt | hge
    · have h0 := no_zero_of_sends hf hs hlen hcs hlow h hlt
      refine ⟨h0, Or.inl ⟨hlt, ?_⟩⟩
      rw [Option.isSome_iff_ne_none]
      exact fun hnone => hcs.no_fault (sysCputs_outside hf hs h h0 hlen hnone)
    · obtain ⟨h0, heq, hzero⟩ := length_of_sends hf hs hlen hcs hlow hge
      exact ⟨h0, Or.inr ⟨heq, hzero⟩⟩

/-- **`sys_cputs`** prints exactly the buffer when there is no NUL in it and the byte behind it can be read, up to
2^31 - 1 bytes; with 2^31 bytes a NUL has to follow. -/
theorem sends_iff (hf : Holds fm f (CStr.lit "%.*s").bytes) (h : Has mem s bs) (hlen : bs.length < 2 ^ 32) :
    (∃ cs, Sends fm mem f s (BitVec.ofNat 32 bs.length) cs ∧ cs.map Console.low = bs) ↔ Sendable mem s bs :=
  ⟨fun ⟨_, hcs, hlow⟩ => sendable_of_sends hf h hlen hcs hlow, sends_of_sendable hf h hlen⟩

theorem sends_small : ∃ cs, Sends cputsFmt (bytesAt 0x1000 [chr 'a', chr 'b']) 0x2000 0x1000 (BitVec.ofNat 32 1) cs ∧
    cs.map Console.low = [chr 'a'] := by
  have h : Has (bytesAt 0x1000 [chr 'a', chr 'b']) 0x1000 [chr 'a'] := by
    intro i hi
    cases Nat.lt_one_iff.mp hi
    rfl
  refine (sends_iff holds_cputsFmt h (by decide)).mpr ?_
  exact ⟨by decide, Or.inl ⟨by decide, by decide⟩⟩

/-- A byte 0 is not printed. -/
theorem sends_no_zero :
    ¬ ∀ (fm mem : Memory) (f s : Word) (bs : List Byte), Holds fm f (CStr.lit "%.*s").bytes → Has mem s bs →
    bs.length < 2 ^ 32 → ∃ cs, Sends fm mem f s (BitVec.ofNat 32 bs.length) cs ∧ cs.map Console.low = bs := by
  intro h
  have hhas : Has (bytesAt 0x1000 [0]) 0x1000 [0] := has_bytesAt 0x1000 (by decide)
  obtain ⟨cs, hcs, hlow⟩ := h cputsFmt (bytesAt 0x1000 [0]) 0x2000 0x1000 [0] holds_cputsFmt hhas (by decide)
  have hok : Sendable (bytesAt 0x1000 [0]) 0x1000 [0] := sendable_of_sends holds_cputsFmt hhas (by decide) hcs hlow
  exact hok.1 List.mem_cons_self

end Jos.Fmt
