import Jos.CountSound
import Jos.PutcSound
import Jos.NumFieldSound

/-!
# The sinks with a buffer

`vsnprintf` fills its buffer up to the last byte and goes on counting. The user
library's `vcprintf` hands its buffer to `sys_cputs` when 255 bytes are in it. Both
counts are `int`s.
-/

namespace Jos

open Console (low)

/-! ## `vsnprintf` -/

def put (mem : Nat → Byte) (buf : Nat) (bs : List Byte) : Nat → Byte := fun a =>
  if buf ≤ a ∧ a < buf + bs.length then bs.getD (a - buf) 0 else mem a

section
variable {mem : Nat → Byte} {buf : Nat} {bs : List Byte}

theorem put_nil : put mem buf [] = mem := by
  funext a
  rw [put, if_neg]
  rw [List.length_nil]
  omega

theorem put_snoc (v : Byte) : Function.update (put mem buf bs) (buf + bs.length) v = put mem buf (bs ++ [v]) := by
  funext a
  unfold put
  rw [List.length_append, List.length_singleton]
  by_cases ha : a = buf + bs.length
  · subst ha
    rw [Function.update_self, if_pos (by omega), Nat.add_sub_cancel_left, List.getD_eq_getElem?_getD,
      List.getElem?_append_right (Nat.le_refl _), Nat.sub_self]
    rfl
  · rw [Function.update_of_ne ha]
    by_cases hin : buf ≤ a ∧ a < buf + bs.length
    · rw [if_pos hin, if_pos (by omega), List.getD_eq_getElem?_getD, List.getD_eq_getElem?_getD,
        List.getElem?_append_left (by omega)]
    · rw [if_neg hin, if_neg (by omega)]

def sprinted (mem : Nat → Byte) (buf ebuf : Nat) (out : List Word) : Sprintbuf where
  buf := buf + ((out.take (ebuf - buf)).map low).length
  ebuf := ebuf
  cnt := BitVec.ofNat 32 out.length
  mem := put mem buf ((out.take (ebuf - buf)).map low)

theorem sprintputch_sprinted (ebuf : Nat) (out : List Word) (ch : Word) :
    sprintputch ch (sprinted mem buf ebuf out) = sprinted mem buf ebuf (out ++ [ch]) := by
  have hcnt : BitVec.ofNat 32 out.length + 1 = BitVec.ofNat 32 (out ++ [ch]).length := by
    rw [List.length_append, BitVec.ofNat_add]
    rfl
  rw [sprintputch, sprinted, sprinted, hcnt]
  rcases Nat.lt_or_ge out.length (ebuf - buf) with hlt | hge
  · have htake : (out ++ [ch]).take (ebuf - buf) = out ++ [ch] := List.take_of_length_le (by
      rw [List.length_append, List.length_singleton]
      omega)
    have hroom : buf + (out.map low).length < ebuf := by
      rw [List.length_map]
      omega
    rw [htake, List.take_of_length_le (Nat.le_of_lt hlt), List.map_append, List.map_singleton, ← put_snoc]
    dsimp only
    have hend : (out.map low ++ [low ch]).length = (out.map low).length + 1 := List.length_append
    rw [if_pos hroom, hend]
    rfl
  · have hfull : ¬ buf + ((out.take (ebuf - buf)).map low).length < ebuf := by
      rw [List.length_map, List.length_take]
      omega
    rw [List.take_append_of_le_length hge]
    dsimp only
    rw [if_neg hfull]

theorem foldl_sprinted (ebuf : Nat) (out : List Word) :
    out.foldl (fun b ch => sprintputch ch b) ⟨buf, ebuf, 0, mem⟩ = sprinted mem buf ebuf out := by
  induction out using List.reverseRecOn with
  | nil =>
    rw [List.foldl_nil, sprinted, List.take_nil, List.map_nil, put_nil]
    rfl
  | append_singleton out ch ih => rw [List.foldl_append, ih, List.foldl_cons, List.foldl_nil, sprintputch_sprinted]

theorem toInt_count {k : Nat} (hk : k < 2 ^ 31) : (BitVec.ofNat 32 k).toInt = k := by
  rw [BitVec.toInt_eq_toNat_cond, BitVec.toNat_ofNat]
  omega

theorem vsnprintf_refused {fmt : CStr} {ap : List Arg} {n : Word} (h : buf = 0 ∨ n.slt 1) :
    vsnprintf mem buf n fmt ap = some (-eInval, mem) := if_pos h

theorem vsnprintf_printed {fmt : CStr} {ap : List Arg} {out : List Word} (h : emitted fmt ap = some out) {n : Word}
    (hbuf : buf ≠ 0) (hn : (1 : Word).sle n) : vsnprintf mem buf n fmt ap =
      some (BitVec.ofNat 32 out.length, put mem buf ((out.take (n.toNat - 1)).map low ++ [0])) := by
  have hge : ¬ (buf = 0 ∨ n.slt 1) := by
    rintro (h0 | h1)
    · exact hbuf h0
    · rw [BitVec.sle_eq_not_slt, h1] at hn
      cases hn
  have hpos : 1 ≤ n.toNat := by
    rw [BitVec.sle, decide_eq_true_eq, show (1 : Word).toInt = 1 from rfl, BitVec.toInt_eq_toNat_cond] at hn
    split at hn <;> omega
  unfold vsnprintf
  dsimp only
  rw [if_neg hge, vprintfmt_eq_emitted, h, Option.map_some, Option.map_some, foldl_sprinted, sprinted, put_snoc,
    show buf + n.toNat - 1 - buf = n.toNat - 1 by omega]

end

/-- **`vsnprintf`** writes the first `n - 1` characters and a NUL behind them and nothing else, and returns the number
of all the characters, as an `int`. -/
theorem vsnprintf_exact {fmt : CStr} {ap : List Arg} {out : List Word} (h : emitted fmt ap = some out)
    (mem : Nat → Byte) (buf : Nat) (n : Word) :
    (buf = 0 ∨ n.slt 1 → vsnprintf mem buf n fmt ap = some (-eInval, mem)) ∧
      (buf ≠ 0 → (1 : Word).sle n → vsnprintf mem buf n fmt ap =
        some (BitVec.ofNat 32 out.length, put mem buf ((out.take (n.toNat - 1)).map low ++ [0]))) ∧
      (out.length < 2 ^ 31 → (BitVec.ofNat 32 out.length).toInt = out.length) :=
  ⟨vsnprintf_refused, vsnprintf_printed h, toInt_count⟩

theorem vsnprintf_exact_small :
    vsnprintf (fun _ => 0) 0x1000 2 (.lit "ab") [] = some (2, put (fun _ => 0) 0x1000 [0x61, 0]) :=
  (vsnprintf_exact emitted_ab (fun _ => 0) 0x1000 2).2.1 (by decide) (by decide)

theorem emitted_wide {w : Nat} (h0 : 0 < w) (hw : w < 2 ^ 31) :
    ∃ out, emitted (.lit "%*d") [.int (BitVec.ofNat 32 w), .int (-5)] = some out ∧ out.length = w + 1 := by
  have hget : getint [.int (-5)] (BitVec.ofNat 32 0) = some (-5, []) := rfl
  have hemit := @emit_negative true false w 0 [.int (-5)] [] (-5) hget (by decide)
  have hlit : (CStr.lit "%*d").bytes = [chr '%', chr '*', chr 'd'] := by decide
  have hfmt : (CStr.lit "%*d").bytes = numField [] true w 0 (chr 'd') := hlit
  have hneg : (-(-5) : BitVec 64).toNat = 5 := by decide
  have hpad : padding (widthOf true w) 1 = w - 1 := by
    rw [padding_widthOf true w (by decide)]
    split
    · omega
    · rw [if_pos (by omega)]
      omega
  rw [hneg, length_five, hpad] at hemit
  refine ⟨_, (congrArg (emit · _) hfmt).trans hemit, ?_⟩
  rw [List.length_map, List.length_cons, List.length_append, List.length_replicate, length_five]
  omega

/-- A count of 2^31 is negative. -/
theorem vsnprintf_int : ¬ ∀ (fmt : CStr) (ap : List Arg) (out : List Word), emitted fmt ap = some out →
    ∀ (mem : Nat → Byte) (buf : Nat) (n : Word), buf ≠ 0 → (1 : Word).sle n →
      ∃ r mem', vsnprintf mem buf n fmt ap = some (r, mem') ∧ r.toInt = out.length := by
  intro h
  obtain ⟨out, ho, hlen⟩ := emitted_wide (show 0 < 2 ^ 31 - 1 by decide) (by decide)
  obtain ⟨r, mem', hr, hcount⟩ := h _ _ out ho (fun _ => 0) 0x1000 1 (by decide) (by decide)
  rw [vsnprintf_printed ho (by decide) (by decide)] at hr
  cases hr
  rw [hlen] at hcount
  exact absurd hcount (by decide)

/-! ## `vcprintf` -/

def Printbuf.written (b : Printbuf) : List Byte := b.cputs.flatten ++ (List.range b.idx.toNat).map b.buf

/-- The buffer has room, the chunks were no longer than it, and behind it nothing is written. -/
structure Buffered (buf : Nat → Byte) (b : Printbuf) : Prop where
  room : b.idx.toNat < 255
  chunks : ∀ c ∈ b.cputs, c.length ≤ 255
  beyond : ∀ i ≥ 256, b.buf i = buf i

theorem written_sysCputs (b : Printbuf) : (sysCputs b).cputs.flatten = b.written := by
  rw [sysCputs, List.flatten_append, List.flatten_singleton]
  rfl

section
variable {buf : Nat → Byte} {b : Printbuf}

theorem Buffered.sysCputs (h : Buffered buf b) : ∀ c ∈ (sysCputs b).cputs, c.length ≤ 255 := by
  intro c hc
  rcases List.mem_append.mp hc with hc | hc
  · exact h.chunks c hc
  · rw [List.mem_singleton.mp hc, List.length_map, List.length_range]
    exact Nat.le_of_lt h.room

theorem map_range_update (f : Nat → Byte) (k : Nat) (v : Byte) :
    (List.range (k + 1)).map (Function.update f k v) = (List.range k).map f ++ [v] := by
  rw [List.range_succ, List.map_append, List.map_singleton, Function.update_self]
  congr 1
  apply List.map_congr_left
  intro i hi
  exact Function.update_of_ne (Nat.ne_of_lt (List.mem_range.mp hi)) v f

def Printbuf.store (b : Printbuf) (v : Byte) : Printbuf :=
  { b with
    buf := Function.update b.buf b.idx.toNat v
    idx := b.idx + 1 }

theorem userPutch_flush {ch : Word} (h : (b.store (low ch)).idx = 256 - 1) :
    userPutch ch b = ⟨0, b.cnt + 1, (b.store (low ch)).buf, (sysCputs (b.store (low ch))).cputs⟩ := by
  change b.idx + 1 = 256 - 1 at h
  unfold userPutch
  dsimp only
  rw [if_pos h]
  rfl

theorem userPutch_keep {ch : Word} (h : (b.store (low ch)).idx ≠ 256 - 1) :
    userPutch ch b = { b.store (low ch) with cnt := b.cnt + 1 } := by
  change b.idx + 1 ≠ 256 - 1 at h
  unfold userPutch
  dsimp only
  rw [if_neg h]
  rfl

theorem Buffered.store (h : Buffered buf b) (v : Byte) : (b.store v).idx.toNat = b.idx.toNat + 1 ∧
    (b.store v).written = b.written ++ [v] ∧ ∀ i ≥ 256, (b.store v).buf i = buf i := by
  have hroom := h.room
  have hidx : (b.idx + 1).toNat = b.idx.toNat + 1 := by
    rw [BitVec.toNat_add, show (1 : Word).toNat = 1 from rfl]
    omega
  refine ⟨hidx, ?_, fun i hi => ?_⟩
  · rw [Printbuf.store, Printbuf.written, Printbuf.written, hidx, map_range_update, List.append_assoc]
  · have hne : i ≠ b.idx.toNat := by omega
    rw [← h.beyond i hi, Printbuf.store]
    exact Function.update_of_ne hne v b.buf

theorem Buffered.userPutch (h : Buffered buf b) (ch : Word) :
    Buffered buf (userPutch ch b) ∧ (userPutch ch b).written = b.written ++ [low ch] := by
  have hroom := h.room
  obtain ⟨hidx, hwritten, hbeyond⟩ := h.store (low ch)
  by_cases hfull : (b.store (low ch)).idx = 256 - 1
  · have h255 : (b.store (low ch)).idx.toNat = 255 := by
      rw [hfull]
      rfl
    rw [userPutch_flush hfull]
    refine ⟨⟨Nat.succ_pos _, fun c hc => ?_, hbeyond⟩, ?_⟩
    · rcases List.mem_append.mp hc with hc | hc
      · exact h.chunks c hc
      · rw [List.mem_singleton.mp hc, List.length_map, List.length_range, h255]
    · rw [← hwritten, ← written_sysCputs (b.store (low ch))]
      exact List.append_nil _
  · have h255 : (b.store (low ch)).idx.toNat ≠ 255 := fun he => hfull (BitVec.eq_of_toNat_eq he)
    rw [userPutch_keep hfull]
    refine ⟨⟨?_, h.chunks, hbeyond⟩, hwritten⟩
    change (b.store (low ch)).idx.toNat < 255
    omega

def Printbuf.init (buf : Nat → Byte) : Printbuf := ⟨0, 0, buf, []⟩

theorem foldl_userPutch (buf : Nat → Byte) (out : List Word) :
    Buffered buf (out.foldl (fun b ch => userPutch ch b) (.init buf)) ∧
    (out.foldl (fun b ch => userPutch ch b) (.init buf)).written = out.map low := by
  induction out using List.reverseRecOn with
  | nil => exact ⟨⟨Nat.succ_pos _, fun c hc => absurd hc List.not_mem_nil, fun _ _ => rfl⟩, rfl⟩
  | append_singleton out ch ih =>
    obtain ⟨hbuf, hwritten⟩ := ih.1.userPutch ch
    rw [List.foldl_append, List.foldl_cons, List.foldl_nil, List.map_append, List.map_singleton, ← ih.2]
    exact ⟨hbuf, hwritten⟩

theorem userVcprintf_printed {fmt : CStr} {ap : List Arg} {out : List Word} (h : emitted fmt ap = some out)
    (buf : Nat → Byte) :
    userVcprintf fmt ap buf = some (BitVec.ofNat 32 out.length,
      (sysCputs (out.foldl (fun b ch => userPutch ch b) (.init buf))).cputs) := by
  rw [userVcprintf, vprintfmt_eq_emitted, h, Option.map_some, Option.map_some, foldl_count out userPutch_cnt]
  exact congrArg some (Prod.ext (BitVec.zero_add _) rfl)

end

/-- **The user library's `vcprintf`**: every character is stored inside of the buffer, the chunks are no longer than
255 bytes and are the characters, in order, and the number of them is returned, as an `int`. -/
theorem userVcprintf_chunks {fmt : CStr} {ap : List Arg} {out : List Word} (h : emitted fmt ap = some out)
    (buf : Nat → Byte) :
    ∃ cputs, userVcprintf fmt ap buf = some (BitVec.ofNat 32 out.length, cputs) ∧
      cputs.flatten = out.map low ∧ (∀ c ∈ cputs, c.length ≤ 255) ∧
      (∀ pre, pre <+: out → Buffered buf (pre.foldl (fun b ch => userPutch ch b) (.init buf))) ∧
      (out.length < 2 ^ 31 → (BitVec.ofNat 32 out.length).toInt = out.length) := by
  obtain ⟨hbuf, hwritten⟩ := foldl_userPutch buf out
  refine ⟨_, userVcprintf_printed h buf, ?_, hbuf.sysCputs, fun pre _ => (foldl_userPutch buf pre).1, toInt_count⟩
  rw [written_sysCputs, hwritten]

theorem userVcprintf_chunks_small : ∃ cputs, userVcprintf (.lit "ab") [] (fun _ => 0) = some (2, cputs) ∧
    cputs.flatten = [0x61, 0x62] := by
  obtain ⟨cputs, hrun, hflat, -⟩ := userVcprintf_chunks emitted_ab fun _ => 0
  exact ⟨cputs, hrun, hflat⟩

theorem userVcprintf_int : ¬ ∀ (fmt : CStr) (ap : List Arg) (out : List Word), emitted fmt ap = some out →
    ∀ buf : Nat → Byte, ∃ r cputs, userVcprintf fmt ap buf = some (r, cputs) ∧ r.toInt = out.length := by
  intro h
  obtain ⟨out, ho, hlen⟩ := emitted_wide (show 0 < 2 ^ 31 - 1 by decide) (by decide)
  obtain ⟨r, cputs, hr, hcount⟩ := h _ _ out ho fun _ => 0
  rw [userVcprintf_printed ho] at hr
  cases hr
  rw [hlen] at hcount
  exact absurd hcount (by decide)

end Jos
