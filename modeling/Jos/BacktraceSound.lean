import Jos.Backtrace
import Jos.LineSound
import Jos.Parts

/-!
# What `mon_backtrace` prints

The saved frame pointers are a chain of frames that ends in 0. Of each frame the console
gets its words and what the tables say of its return address, once and in order.
-/

namespace Jos.Monitor

open Access Kdebug Numeral
open Readline (cprintf)

/-! ## What is printed -/

structure Frame where
  ebp : Word
  eip : Word
  args : Fin 5 → Word

def Frame.line (f : Frame) : List Byte :=
  (CStr.lit "    ebp ").bytes ++ hexField 8 f.ebp ++ (CStr.lit " eip ").bytes ++ hexField 8 f.eip ++ (CStr.lit " args").bytes ++
    (List.ofFn f.args).flatMap (fun a => chr ' ' :: hexField 8 a) ++ (CStr.lit "\r\n").bytes

def hex8 (n : Word) : Part := .zeroHex 8 (by decide) (by decide) n

theorem cprintf_frame (f : Frame) (cons : Console) :
    cprintf (.lit "    ebp %08x eip %08x args %08x %08x %08x %08x %08x\r\n")
        [.int f.ebp, .int f.eip, .int (f.args 0), .int (f.args 1), .int (f.args 2), .int (f.args 3), .int (f.args 4)] cons =
      .ok (Console.puts (words f.line) cons) := by
  have blank : chr '%' ∉ [chr ' '] := by decide
  refine (cprintf_parts [.text (CStr.lit "    ebp ").bytes (by decide), hex8 f.ebp, .text (CStr.lit " eip ").bytes (by decide), hex8 f.eip,
    .text (CStr.lit " args").bytes (by decide), .text [chr ' '] blank, hex8 (f.args 0), .text [chr ' '] blank, hex8 (f.args 1),
    .text [chr ' '] blank, hex8 (f.args 2), .text [chr ' '] blank, hex8 (f.args 3), .text [chr ' '] blank, hex8 (f.args 4),
    .text (CStr.lit "\r\n").bytes (by decide)] rfl rfl cons).trans ?_
  refine congrArg (fun out => Except.ok (Console.puts out cons)) ?_
  simp only [Frame.line, words, List.map_append, List.flatMap_cons, List.flatMap_nil, List.append_nil, List.append_assoc,
    List.ofFn_succ, List.ofFn_zero, List.map_cons]
  rfl

/-! ## What the tables say -/

structure Report where
  tables : Tables
  missing : Bool
  result : Int
  info : Eipdebuginfo

structure Reports (dbg : DebugTables) (addr : Word) (r : Report) : Prop where
  select : dbg.select addr = .ok r.tables
  missing : Settles (fun n => lineMissing n r.tables.stabs r.tables.stabstr addr) (.ok r.missing)
  info : Settles (fun n => debuginfoEip n r.tables.stabs r.tables.stabstr addr) (.ok (r.result, r.info))

def Report.fnName (r : Report) : List Byte := (r.tables.nameText r.info.fnName).bytes.takeWhile (· ≠ chr ':')

def Report.lines (r : Report) (addr : Word) : List Word :=
  (if r.missing then words (CStr.lit "line not find\n").bytes else []) ++
    if r.result ≠ 0 then words (CStr.lit "failed\r\n").bytes
    else
      words [chr '\t'] ++ (r.tables.nameText r.info.file).bytes.map (shown false) ++
        words ([chr ':'] ++ numeral 10 r.info.line.toNat ++ [chr ':', chr ' ']) ++ r.fnName.map (shown false) ++
        words ([chr '+'] ++ numeral 10 (addr - r.info.fnAddr).toNat ++ (CStr.lit "\r\n").bytes)

theorem strfind_eq {s : List Byte} {k : Nat} (h : strfind s = .ok k) :
    k = ((s.takeWhile (· ≠ 0)).takeWhile (· ≠ chr ':')).length := by
  induction s generalizing k with
  | nil => cases h
  | cons c s ih =>
    rw [strfind] at h
    split at h
    · next hc =>
      cases h
      rcases hc with rfl | rfl <;> rfl
    · next hc =>
      rw [not_or] at hc
      cases hs : strfind s with
      | error e => rw [hs] at h; cases h
      | ok j =>
        rw [hs] at h
        cases h
        have hcolon : c ≠ chr ':' := hc.2
        rw [List.takeWhile_cons_of_pos (by simpa using hc.1), List.takeWhile_cons_of_pos (by simpa using hcolon), List.length_cons,
          ← ih hs]

theorem Tables.length_nameText (t : Tables) (name : Name) : (t.nameText name).bytes.length < 2 ^ 31 := by
  cases name with
  | unknown => exact show (CStr.lit "<unknown>").bytes.length < 2 ^ 31 by decide
  | stabstr strx =>
    have h1 := (List.takeWhile_prefix (l := t.stabstr.drop strx) (· ≠ 0)).length_le
    have h2 : (t.stabstr.drop strx).length ≤ t.stabstr.length := (List.drop_suffix strx t.stabstr).length_le
    exact Nat.lt_of_le_of_lt (Nat.le_trans h1 h2) t.short

theorem Tables.namelen_eq (t : Tables) {name : Name} {k : Nat} (h : namelen t.stabstr name = .ok k) :
    k = ((t.nameText name).bytes.takeWhile (· ≠ chr ':')).length := by
  cases name with
  | unknown =>
    cases h
    exact show 9 = ((CStr.lit "<unknown>").bytes.takeWhile (· ≠ chr ':')).length by decide
  | stabstr strx => exact strfind_eq h

theorem take_length_takeWhile {α : Type} (p : α → Bool) (l : List α) : l.take (l.takeWhile p).length = l.takeWhile p :=
  (List.prefix_iff_eq_take.mp (List.takeWhile_prefix p)).symm

theorem decimal_line (line : BitVec 16) : decimal (line.setWidth 32) = numeral 10 line.toNat := by
  have hlt := line.isLt
  have hto : (line.setWidth 32 : Word).toNat = line.toNat := BitVec.toNat_setWidth_of_le (by decide)
  rw [decimal, if_neg (by rw [slt_zero_iff, hto]; omega), hto]

theorem cprintf_info (r : Report) (hlen : namelen r.tables.stabstr r.info.fnName = .ok r.info.fnNamelen) (addr : Word)
    (cons : Console) :
    cprintf (.lit "\t%s:%d: %.*s+%u\r\n")
        [.str (some (r.tables.nameText r.info.file)), .int (r.info.line.setWidth 32), .int (BitVec.ofNat 32 r.info.fnNamelen),
          .str (some (r.tables.nameText r.info.fnName)), .int (addr - r.info.fnAddr)] cons =
      .ok (Console.puts (words [chr '\t'] ++ (r.tables.nameText r.info.file).bytes.map (shown false) ++
        words ([chr ':'] ++ numeral 10 r.info.line.toNat ++ [chr ':', chr ' ']) ++ r.fnName.map (shown false) ++
        words ([chr '+'] ++ numeral 10 (addr - r.info.fnAddr).toNat ++ (CStr.lit "\r\n").bytes)) cons) := by
  have hk := r.tables.namelen_eq hlen
  have hle : r.info.fnNamelen ≤ (r.tables.nameText r.info.fnName).bytes.length := by
    rw [hk]
    exact (List.takeWhile_prefix _).length_le
  refine (cprintf_parts [.text [chr '\t'] (by decide), .str (r.tables.nameText r.info.file) (Tables.length_nameText _ _),
    .text [chr ':'] (by decide), .signed (r.info.line.setWidth 32), .text [chr ':', chr ' '] (by decide),
    .counted (r.tables.nameText r.info.fnName) (Tables.length_nameText _ _) r.info.fnNamelen hle, .text [chr '+'] (by decide),
    .unsigned (addr - r.info.fnAddr), .text (CStr.lit "\r\n").bytes (by decide)] rfl rfl cons).trans ?_
  refine congrArg (fun out => Except.ok (Console.puts out cons)) ?_
  rw [Report.fnName, ← take_length_takeWhile, ← hk, ← decimal_line]
  simp only [words, List.map_append, List.flatMap_cons, List.flatMap_nil, List.append_nil, List.append_assoc]
  rfl

/-! ## More turns change nothing -/

section
variable {n n' : Nat} {t : List Stab} {str : List Byte} {addr : Word}

theorem stabBinsearch_le {g g' : Region} {type : Byte} (hn : n ≤ n') (h : stabBinsearch n t g type addr = .ok g') :
    stabBinsearch n' t g type addr = .ok g' := by
  unfold stabBinsearch at h ⊢
  obtain ⟨x, hx, h⟩ := of_bind_ok h
  rw [← searchLoop_readStab] at hx
  rw [← searchLoop_readStab, Stabs.searchLoop_le hn hx]
  exact h

theorem lineMissing_le {b : Bool} (hn : n ≤ n') (h : lineMissing n t str addr = .ok b) :
    lineMissing n' t str addr = .ok b := by
  unfold lineMissing at h ⊢
  split at h
  · next hs =>
    rw [if_pos hs]
    exact h
  · next hs =>
    obtain ⟨file, hfile, h⟩ := of_bind_ok h
    rw [if_neg hs, stabBinsearch_le hn hfile, bind_ok]
    split at h
    · next h0 =>
      rw [if_pos h0]
      exact h
    · next h0 =>
      obtain ⟨fn, hfn, h⟩ := of_bind_ok h
      obtain ⟨⟨name, fnAddr, rel, lines⟩, hfun, h⟩ := of_bind_ok h
      obtain ⟨line, hline, h⟩ := of_bind_ok h
      rw [if_neg h0, stabBinsearch_le hn hfn, bind_ok, hfun, bind_ok]
      dsimp only
      rw [stabBinsearch_le hn hline, bind_ok]
      exact h

theorem debuginfoEip_le {r : Int × Eipdebuginfo} (hn : n ≤ n') (h : debuginfoEip n t str addr = .ok r) :
    debuginfoEip n' t str addr = .ok r := by
  unfold debuginfoEip at h ⊢
  split at h
  · next hs =>
    rw [if_pos hs]
    exact h
  · next hs =>
    obtain ⟨file, hfile, h⟩ := of_bind_ok h
    rw [if_neg hs, stabBinsearch_le hn hfile, bind_ok]
    split at h
    · next h0 =>
      rw [if_pos h0]
      exact h
    · next h0 =>
      unfold describe at h ⊢
      obtain ⟨fn, hfn, h⟩ := of_bind_ok h
      obtain ⟨⟨name, fnAddr, rel, lines⟩, hfun, h⟩ := of_bind_ok h
      obtain ⟨len, hlen, h⟩ := of_bind_ok h
      obtain ⟨line, hline, h⟩ := of_bind_ok h
      rw [if_neg h0, stabBinsearch_le hn hfn, bind_ok, hfun, bind_ok]
      dsimp only
      rw [hlen, bind_ok, stabBinsearch_le hn hline, bind_ok]
      exact h

theorem debuginfoEip_namelen {ret : Int} {info : Eipdebuginfo} (h : debuginfoEip n t str addr = .ok (ret, info)) :
    namelen str info.fnName = .ok info.fnNamelen := by
  unfold debuginfoEip at h
  split at h
  · cases h
    rfl
  · obtain ⟨file, _, h⟩ := of_bind_ok h
    split at h
    · cases h
      rfl
    · unfold describe at h
      obtain ⟨fn, _, h⟩ := of_bind_ok h
      obtain ⟨⟨name, fnAddr, rel, lines⟩, _, h⟩ := of_bind_ok h
      obtain ⟨len, hlen, h⟩ := of_bind_ok h
      obtain ⟨line, _, h⟩ := of_bind_ok h
      obtain ⟨eipLine, _, h⟩ := of_bind_ok h
      obtain ⟨eipFile, _, h⟩ := of_bind_ok h
      obtain ⟨narg, _, h⟩ := of_bind_ok h
      cases h
      exact hlen

end

theorem inTable_inv {α : Type} {x : Except Kdebug.Fault α} {a : α} (h : inTable x = .ok a) : x = .ok a := by
  match x with
  | .ok b =>
    cases h
    rfl
  | .error .bounds => cases h
  | .error .fuel => cases h

theorem of_then_ok {α β : Type} {x : Except Access.Fault α} {f : α → Except Access.Fault β} {y : β} (h : x >>= f = .ok y) :
    ∃ a, x = .ok a ∧ f a = .ok y := by
  cases x with
  | error e => cases h
  | ok a => exact ⟨a, rfl, h⟩

/-! ## The frames -/

/-- The words of a frame are on the stack, with the saved frame pointer `next`. -/
structure OnStack (mem : Memory) (f : Frame) (next : Word) : Prop where
  pos : f.ebp ≠ 0
  saved : loadWord mem f.ebp = .ok next
  eip : loadWord mem (f.ebp + 4) = .ok f.eip
  args : ∀ i : Fin 5, loadWord mem (f.ebp + BitVec.ofNat 32 (8 + 4 * i)) = .ok (f.args i)

inductive Chain (mem : Memory) : Word → List Frame → Prop
  | done : Chain mem 0 []
  | frame {f : Frame} {next : Word} {fs : List Frame} : OnStack mem f next → Chain mem next fs → Chain mem f.ebp (f :: fs)

def frameText (f : Frame) (r : Report) : List Word := words f.line ++ r.lines f.eip

section
variable {dbg : DebugTables} {mem : Memory} {n : Nat} {f : Frame} {next ebp : Word} {r : Report} {cons cons' : Console}

theorem debuginfoEipOn_report {addr : Word} (hm : lineMissing n r.tables.stabs r.tables.stabstr addr = .ok r.missing)
    (hd : debuginfoEip n r.tables.stabs r.tables.stabstr addr = .ok (r.result, r.info)) (cons : Console) :
    debuginfoEipOn n r.tables addr cons = .ok ((r.result, r.info),
      Console.puts (if r.missing then words (CStr.lit "line not find\n").bytes else []) cons) := by
  rw [debuginfoEipOn, hm, hd]
  cases r.missing with
  | false => rfl
  | true =>
    have hc := cprintf_text (s := .lit "line not find\n") (by decide) [] cons
    simp only [inTable, ok_then, if_true, hc]

theorem debuginfoEipOn_inv {t : Tables} {addr : Word} {ret : Int} {info : Eipdebuginfo}
    (h : debuginfoEipOn n t addr cons = .ok ((ret, info), cons')) : ∃ missing,
      lineMissing n t.stabs t.stabstr addr = .ok missing ∧ debuginfoEip n t.stabs t.stabstr addr = .ok (ret, info) := by
  obtain ⟨missing, hm, h⟩ := of_then_ok h
  refine ⟨missing, inTable_inv hm, ?_⟩
  split at h <;>
    obtain ⟨_, _, h⟩ := of_then_ok h <;>
    obtain ⟨_, hd, h⟩ := of_then_ok h <;>
    cases h <;>
    exact inTable_inv hd

theorem backtraceLoop_frame (hf : OnStack mem f next) (hs : dbg.select f.eip = .ok r.tables)
    (hm : lineMissing n r.tables.stabs r.tables.stabstr f.eip = .ok r.missing)
    (hd : debuginfoEip n r.tables.stabs r.tables.stabstr f.eip = .ok (r.result, r.info)) (cons : Console) :
    backtraceLoop dbg mem (n + 1) f.ebp cons = backtraceLoop dbg mem n next (Console.puts (frameText f r) cons) := by
  have h0 : loadWord mem (f.ebp + 8) = .ok (f.args 0) := hf.args 0
  have h1 : loadWord mem (f.ebp + 12) = .ok (f.args 1) := hf.args 1
  have h2 : loadWord mem (f.ebp + 16) = .ok (f.args 2) := hf.args 2
  have h3 : loadWord mem (f.ebp + 20) = .ok (f.args 3) := hf.args 3
  have h4 : loadWord mem (f.ebp + 24) = .ok (f.args 4) := hf.args 4
  rw [backtraceLoop, if_neg hf.pos, hf.eip, ok_then, h0, ok_then, h1, ok_then, h2, ok_then, h3, ok_then, h4, ok_then, cprintf_frame,
    ok_then, hs, ok_then, debuginfoEipOn_report hm hd, ok_then]
  dsimp only
  rw [frameText, Report.lines]
  split
  · rw [cprintf_text (by decide), ok_then, hf.saved, ok_then, puts_append, puts_append]
  · rw [cprintf_info r (debuginfoEip_namelen hd), ok_then, hf.saved, ok_then, puts_append, puts_append]

theorem backtraceLoop_inv (h : backtraceLoop dbg mem (n + 1) ebp cons = .ok cons') (hne : ebp ≠ 0) : ∃ f next r,
    f.ebp = ebp ∧ OnStack mem f next ∧ Reports dbg f.eip r ∧
      backtraceLoop dbg mem n next (Console.puts (frameText f r) cons) = .ok cons' := by
  have hrun := h
  rw [backtraceLoop, if_neg hne] at h
  obtain ⟨eip, heip, h⟩ := of_then_ok h
  obtain ⟨a2, h2, h⟩ := of_then_ok h
  obtain ⟨a3, h3, h⟩ := of_then_ok h
  obtain ⟨a4, h4, h⟩ := of_then_ok h
  obtain ⟨a5, h5, h⟩ := of_then_ok h
  obtain ⟨a6, h6, h⟩ := of_then_ok h
  obtain ⟨_, _, h⟩ := of_then_ok h
  obtain ⟨t, ht, h⟩ := of_then_ok h
  obtain ⟨⟨⟨ret, info⟩, _⟩, hon, h⟩ := of_then_ok h
  obtain ⟨missing, hm, hd⟩ := debuginfoEipOn_inv hon
  obtain ⟨next, hnext⟩ : ∃ next, loadWord mem ebp = .ok next := by
    dsimp only at h
    split at h
    · obtain ⟨_, _, h⟩ := of_then_ok h
      obtain ⟨next, hnext, _⟩ := of_then_ok h
      exact ⟨next, hnext⟩
    · obtain ⟨_, _, h⟩ := of_then_ok h
      obtain ⟨next, hnext, _⟩ := of_then_ok h
      exact ⟨next, hnext⟩
  have hf : OnStack mem ⟨ebp, eip, ![a2, a3, a4, a5, a6]⟩ next := by
    refine ⟨hne, hnext, heip, fun i => ?_⟩
    fin_cases i
    · exact h2
    · exact h3
    · exact h4
    · exact h5
    · exact h6
  refine ⟨_, next, ⟨t, missing, ret, info⟩, rfl, hf, ⟨ht, .of_le lineMissing_le hm, .of_le debuginfoEip_le hd⟩, ?_⟩
  rwa [backtraceLoop_frame (r := ⟨t, missing, ret, info⟩) hf ht hm hd] at hrun

/-! ## The run -/

def framesText (fs : List Frame) (rs : List Report) : List Word := (List.zipWith frameText fs rs).flatten

theorem backtraceLoop_chain {fs : List Frame} (hc : Chain mem ebp fs) {rs : List Report}
    (hr : List.Forall₂ (fun f r => Reports dbg f.eip r) fs rs) (cons : Console) :
    Settles (fun n => backtraceLoop dbg mem n ebp cons) (.ok (Console.puts (framesText fs rs) cons)) := by
  induction hc generalizing rs cons with
  | done =>
    cases hr
    refine (Settles.const _).step fun n => ?_
    rw [backtraceLoop, if_pos rfl]
    rfl
  | @frame f next fs hf _ ih =>
    obtain ⟨r, rs, hfr, hrs, rfl⟩ := List.forall₂_cons_left_iff.mp hr
    obtain ⟨N, hN⟩ := ih hrs (Console.puts (frameText f r) cons)
    obtain ⟨M, hM⟩ := hfr.missing
    obtain ⟨I, hI⟩ := hfr.info
    refine ⟨max N (max M I) + 1, fun n hn => ?_⟩
    obtain ⟨k, rfl⟩ : ∃ k, n = k + 1 := ⟨n - 1, by omega⟩
    have hrest := hN k (by omega)
    rw [puts_append] at hrest
    exact (backtraceLoop_frame hf hfr.select (hM k (by omega)) (hI k (by omega)) cons).trans hrest

theorem backtraceLoop_run (h : backtraceLoop dbg mem n ebp cons = .ok cons') : ∃ fs rs, Chain mem ebp fs ∧
    List.Forall₂ (fun f r => Reports dbg f.eip r) fs rs ∧ cons' = Console.puts (framesText fs rs) cons := by
  induction n generalizing ebp cons with
  | zero => cases h
  | succ n ih =>
    by_cases h0 : ebp = 0
    · subst h0
      rw [backtraceLoop, if_pos rfl] at h
      cases h
      exact ⟨[], [], .done, .nil, rfl⟩
    · obtain ⟨f, next, r, rfl, hf, hr, hrest⟩ := backtraceLoop_inv h h0
      obtain ⟨fs, rs, hc, hrs, rfl⟩ := ih hrest
      exact ⟨f :: fs, r :: rs, .frame hf hc, .cons hr hrs, puts_append _ _ _⟩

end

def backtraceText (fs : List Frame) (rs : List Report) : List Word :=
  words (CStr.lit "Stack backtrace:\r\n").bytes ++ framesText fs rs

theorem monBacktrace_eq (dbg : DebugTables) (mem : Memory) (n : Nat) (ebp : Word) (cons : Console) :
    monBacktrace dbg mem n ebp cons =
      (backtraceLoop dbg mem n ebp (Console.puts (words (CStr.lit "Stack backtrace:\r\n").bytes) cons)).map ((0 : Word), ·) := by
  rw [monBacktrace, cprintf_text (by decide), ok_then]
  cases backtraceLoop dbg mem n ebp _ <;> rfl

theorem monBacktrace_settles {dbg : DebugTables} {mem : Memory} {ebp : Word} {fs : List Frame} {rs : List Report}
    (hc : Chain mem ebp fs) (hr : List.Forall₂ (fun f r => Reports dbg f.eip r) fs rs) (cons : Console) :
    Settles (fun n => monBacktrace dbg mem n ebp cons) (.ok (0, Console.puts (backtraceText fs rs) cons)) := by
  refine (backtraceLoop_chain hc hr (Console.puts (words (CStr.lit "Stack backtrace:\r\n").bytes) cons)).use fun n hn => ?_
  rw [monBacktrace_eq, hn, puts_append]
  rfl

/-- **`mon_backtrace`** comes to its end just when the saved frame pointers are a chain of frames that ends in 0 and
the tables answer for each return address. Then it has printed the frames, each with its answer, and returns 0. -/
theorem monBacktrace_iff (dbg : DebugTables) (mem : Memory) (ebp ret : Word) (cons cons' : Console) :
    Settles (fun n => monBacktrace dbg mem n ebp cons) (.ok (ret, cons')) ↔ ret = 0 ∧ ∃ fs rs, Chain mem ebp fs ∧
      List.Forall₂ (fun f r => Reports dbg f.eip r) fs rs ∧ cons' = Console.puts (backtraceText fs rs) cons := by
  constructor
  · rintro ⟨N, hN⟩
    have h := hN N (Nat.le_refl N)
    dsimp only at h
    rw [monBacktrace_eq] at h
    obtain ⟨x, hx, h⟩ := of_then_ok (f := fun x => .ok ((0 : Word), x)) h
    cases h
    obtain ⟨fs, rs, hc, hr, rfl⟩ := backtraceLoop_run hx
    exact ⟨rfl, fs, rs, hc, hr, puts_append _ _ _⟩
  · rintro ⟨rfl, fs, rs, hc, hr, rfl⟩
    exact monBacktrace_settles hc hr cons

end Jos.Monitor
