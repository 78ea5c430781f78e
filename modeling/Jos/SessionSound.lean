import Jos.BacktraceSound
import Jos.MonitorSound
import Jos.Session
import Jos.TrapSound

/-!
# What a session with the monitor prints

Each line is echoed as it is edited and answered by the command that its first word
names. The console gets this and no more, and of the memory only `readline`'s `buf` is
written to.
-/

namespace Jos

/-! ## A line and its echo -/

namespace Readline

open Access

def echoed (l : List Byte) (b : Byte) : List Word :=
  if Erases b ∧ 0 < l.length then [bs.setWidth 32]
  else if chr ' ' ≤ b ∧ l.length < buflen - 1 then [b.setWidth 32]
  else []

def echoes : List Byte → List Byte → List Word
  | _, [] => []
  | l, b :: cs => echoed l b ++ echoes (keep l b) cs

section
variable {buf : Word} {mem : Memory} {l : List Byte} {s : State}

theorem echo_cons (c : Word) (s : State) : (echo (iscons 0) c s).cons = Console.puts [c] s.cons := by
  rw [echo, if_pos (by decide)]
  rfl

theorem turn_echo (h : Line buf mem l s) {b : Byte} (hb : ¬ Ends b) :
    ∃ s', turn buf (iscons 0) (b.setWidth 32) s = .ok (.again s') ∧ Line buf mem (keep l b) s' ∧
      s'.cons = Console.puts (echoed l b) s.cons := by
  obtain ⟨s', hs, hl⟩ := turn_keep h (iscons 0) hb
  refine ⟨s', hs, hl, ?_⟩
  obtain ⟨hneg, her, hsp, hend, _⟩ := int_facts b
  rw [turn, if_neg (by rw [hneg]; decide)] at hs
  by_cases h1 : Erases b ∧ 0 < l.length
  · rw [if_pos (by rwa [her, h.pos_iff])] at hs
    cases hs
    rw [echoed, if_pos h1]
    exact echo_cons _ s
  rw [if_neg (by rwa [her, h.pos_iff])] at hs
  by_cases h2 : chr ' ' ≤ b ∧ l.length < buflen - 1
  · rw [if_pos (by rwa [hsp, h.full_iff])] at hs
    obtain ⟨mem', hst, _⟩ := (h.echo (iscons 0) (b.setWidth 32)).store b
    dsimp only at hs
    rw [setWidth_byte, hst] at hs
    cases hs
    rw [echoed, if_neg h1, if_pos h2]
    exact echo_cons _ s
  · rw [if_neg (by rwa [hsp, h.full_iff]), if_neg (by rwa [hend])] at hs
    cases hs
    rw [echoed, if_neg h1, if_neg h2]
    rfl

structure Done (buf : Word) (mem : Memory) (l : List Byte) (cons : Console) (s : State) : Prop where
  holds : Fmt.Holds s.mem buf l
  mapped : Mapped s.mem buf buflen
  frame : ∀ a, buflen ≤ (a - buf).toNat → s.mem a = mem a
  screen : s.cons = Console.puts (words [chr '\n']) cons

theorem turn_done (h : Line buf mem l s) {b : Byte} (hb : Ends b) :
    ∃ s', turn buf (iscons 0) (b.setWidth 32) s = .ok (.ret buf s') ∧ Done buf mem l s.cons s' := by
  obtain ⟨hneg, her, hsp, hend, hne⟩ := int_facts b
  rw [turn, if_neg (by rw [hneg]; decide), if_neg (fun hc => (hne hb).1 (her.mp hc.1)),
    if_neg (fun hc => (hne hb).2 (hsp.mp hc.1)), if_pos (hend.mpr hb)]
  obtain ⟨mem', hst, hhas, hmap, hframe⟩ := (h.echo (iscons 0) ((chr '\n').setWidth 32)).store 0
  dsimp only
  rw [hst]
  exact ⟨_, rfl, hhas.string, hmap, hframe, echo_cons _ s⟩

theorem turns_eq (buf echoing : Word) (s : State) (cs : List Word) :
    turns buf echoing s cs = (turnsRest buf echoing s cs).map Prod.fst := by
  induction cs generalizing s with
  | nil => rfl
  | cons c cs ih =>
    rw [turns, turnsRest]
    cases turn buf echoing c s with
    | error e => rfl
    | ok t =>
      cases t with
      | again s => exact ih s
      | ret p s => rfl

theorem readline_eq (buf : Word) (prompt : Option CStr) (calls : List Word) (mem : Memory) (cons : Console) :
    readline buf prompt calls mem cons = (readlineRest buf prompt (getchars calls) mem cons).map Prod.fst := by
  rw [readline, readlineRest]
  cases putPrompt prompt cons with
  | error e => rfl
  | ok cons => exact turns_eq _ _ _ _

theorem turnsRest_keys (h : Line buf mem l s) {keys : List Byte} (hk : ∀ b ∈ keys, ¬ Ends b) (rest : List Word) :
    ∃ s', turnsRest buf (iscons 0) s (keys.map (·.setWidth 32) ++ rest) = turnsRest buf (iscons 0) s' rest ∧
      Line buf mem (keys.foldl keep l) s' ∧ s'.cons = Console.puts (echoes l keys) s.cons := by
  induction keys generalizing l s with
  | nil => exact ⟨s, rfl, h, rfl⟩
  | cons b keys ih =>
    obtain ⟨s₁, hs₁, h₁, hc₁⟩ := turn_echo h (hk b List.mem_cons_self)
    obtain ⟨s', hs', h', hc'⟩ := ih h₁ fun c hc => hk c (List.mem_cons_of_mem b hc)
    refine ⟨s', ?_, h', ?_⟩
    · rw [List.map_cons, List.cons_append, turnsRest, hs₁, ok_then]
      exact hs'
    · rw [hc', hc₁, puts_append]
      rfl

theorem putPrompt_lit {p : CStr} (hlen : p.bytes.length < 2 ^ 31) (hp : p.bytes.map (shown false) = words p.bytes)
    (cons : Console) : putPrompt (some p) cons = .ok (Console.puts (words p.bytes) cons) := by
  have h := cprintf_parts [.str p hlen] lit_str (show [Arg.str (some p)] = [Arg.str (some p)] ++ [] from rfl) cons
  rw [List.flatMap_singleton] at h
  rw [putPrompt, ← hp]
  exact h

def prompt : List Word := words (CStr.lit "K> ").bytes

structure Typed where
  keys : List Byte
  enter : Byte
  inside : ∀ b ∈ keys, ¬ Ends b
  ends : Ends enter

def Typed.chars (t : Typed) : List Word := t.keys.map (·.setWidth 32) ++ [t.enter.setWidth 32]

def Typed.line (t : Typed) : CStr where
  bytes := t.keys.foldl keep []
  nonzero b hb := by
    have h := kept_printable t.keys b hb
    rintro rfl
    exact absurd h (by decide)

def Typed.echo (t : Typed) : List Word := prompt ++ echoes [] t.keys ++ words [chr '\n']

theorem line_start (hm : Mapped mem buf buflen) (cons : Console) : Line buf mem [] ⟨0, mem, cons⟩ :=
  ⟨rfl, by decide, fun i hi => absurd hi (Nat.not_lt_zero i), hm, fun _ _ => rfl⟩

theorem readlineRest_typed (hm : Mapped mem buf buflen) (t : Typed) (rest : List Word) (cons : Console) : ∃ s,
    readlineRest buf (some (.lit "K> ")) (t.chars ++ rest) mem cons = .ok (.returned buf s, rest) ∧
      Fmt.Holds s.mem buf t.line.bytes ∧ Mapped s.mem buf buflen ∧ (∀ a, buflen ≤ (a - buf).toNat → s.mem a = mem a) ∧
      s.cons = Console.puts t.echo cons := by
  obtain ⟨s₁, hs₁, h₁, hc₁⟩ := turnsRest_keys (line_start hm (Console.puts prompt cons)) t.inside (t.enter.setWidth 32 :: rest)
  obtain ⟨s, hs, hd⟩ := turn_done h₁ t.ends
  refine ⟨s, ?_, hd.holds, hd.mapped, hd.frame, ?_⟩
  · rw [readlineRest, putPrompt_lit (by decide) (by decide), ok_then, Typed.chars, List.append_assoc, List.singleton_append]
    refine hs₁.trans ?_
    rw [turnsRest, hs]
    rfl
  · rw [hd.screen, hc₁, puts_append, puts_append]
    rfl

theorem readlineRest_waits (hm : Mapped mem buf buflen) {keys : List Byte} (hk : ∀ b ∈ keys, ¬ Ends b) (cons : Console) : ∃ s,
    readlineRest buf (some (.lit "K> ")) (keys.map (·.setWidth 32)) mem cons = .ok (.waiting s, []) ∧
      Line buf mem (keys.foldl keep []) s ∧ s.cons = Console.puts (prompt ++ echoes [] keys) cons := by
  obtain ⟨s, hs, h, hc⟩ := turnsRest_keys (line_start hm (Console.puts prompt cons)) hk []
  rw [List.append_nil] at hs
  refine ⟨s, ?_, h, ?_⟩
  · rw [readlineRest, putPrompt_lit (by decide) (by decide), ok_then]
    exact hs
  · rw [hc, puts_append]

end

end Readline

namespace Monitor

open Access Words Numeral
open Readline (cprintf)

/-! ## The texts of the commands -/

def helpLineOf (c : Command) : List Byte := c.name.bytes ++ (CStr.lit " - ").bytes ++ c.desc.bytes ++ [chr '\n']

def helpText : List Byte := commands.flatMap helpLineOf

theorem commands_plain : ∀ c ∈ commands, (c.name.bytes.length < 2 ^ 31 ∧ c.desc.bytes.length < 2 ^ 31) ∧
    c.name.bytes.map (shown false) = words c.name.bytes ∧ c.desc.bytes.map (shown false) = words c.desc.bytes := by
  decide +kernel

theorem printCommands_eq {cs : List Command} (h : ∀ c ∈ cs, c ∈ commands) (cons : Console) :
    printCommands cs cons = .ok (Console.puts (words (cs.flatMap helpLineOf)) cons) := by
  induction cs generalizing cons with
  | nil => rfl
  | cons c cs ih =>
    obtain ⟨hc, hcs⟩ := List.forall_mem_cons.mp h
    obtain ⟨⟨hn, hd⟩, hn', hd'⟩ := commands_plain c hc
    have hline := cprintf_parts [.str c.name hn, .text (CStr.lit " - ").bytes (by decide), .str c.desc hd, .text [chr '\n'] (by decide)]
      (show (CStr.lit "%s - %s\n").bytes = _ from rfl) rfl cons
    have hout : [Part.str c.name hn, .text (CStr.lit " - ").bytes (by decide), .str c.desc hd, .text [chr '\n'] (by decide)].flatMap
        (·.out) = words (helpLineOf c) := by
      simp only [helpLineOf, words, List.map_append, List.flatMap_cons, List.flatMap_nil, List.append_nil, List.append_assoc] at hn' hd' ⊢
      rw [← hn', ← hd']
      rfl
    rw [hout] at hline
    have hcall : cprintf (.lit "%s - %s\n") [.str (some c.name), .str (some c.desc)] cons =
      .ok (Console.puts (words (helpLineOf c)) cons) := hline
    rw [printCommands, hcall, ok_then, ih hcs, puts_append, List.flatMap_cons, words, words, words, List.map_append]

theorem monHelp_eq (cons : Console) : monHelp cons = .ok (0, Console.puts (words helpText) cons) := by
  rw [monHelp, printCommands_eq fun _ h => h, ok_then]
  rfl

def symLine (name : CStr) (v : Word) : List Byte :=
  name.bytes ++ hexField 8 v ++ (CStr.lit " (virt)  ").bytes ++ hexField 8 (v - kernbase) ++ (CStr.lit " (phys)\n").bytes

def kerninfoText (syms : Symbols) : List Byte :=
  (CStr.lit "Special kernel symbols:\n").bytes ++
    ((CStr.lit "  _start                  ").bytes ++ hexField 8 syms.start ++ (CStr.lit " (phys)\n").bytes) ++
    symLine (.lit "  entry  ") syms.entry ++ symLine (.lit "  etext  ") syms.etext ++ symLine (.lit "  edata  ") syms.edata ++
    symLine (.lit "  end    ") syms.kend ++
    ((CStr.lit "Kernel executable memory footprint: ").bytes ++ decimal syms.footprint ++ (CStr.lit "KB\n").bytes)

theorem cprintf_sym {fmt : CStr} (name : CStr) (hname : chr '%' ∉ name.bytes)
    (hf : fmt.bytes = name.bytes ++ ([chr '%', chr '0', digitChar 8, chr 'x'] ++ ((CStr.lit " (virt)  ").bytes ++
      ([chr '%', chr '0', digitChar 8, chr 'x'] ++ (CStr.lit " (phys)\n").bytes)))) (v : Word) (cons : Console) :
    cprintf fmt [.int v, .int (v - kernbase)] cons = .ok (Console.puts (words (symLine name v)) cons) := by
  have h := cprintf_parts [.text name.bytes hname, hex8 v, .text (CStr.lit " (virt)  ").bytes (by decide), hex8 (v - kernbase),
    .text (CStr.lit " (phys)\n").bytes (by decide)] hf
    (show [Arg.int v, .int (v - kernbase)] = [] ++ ([.int v] ++ ([] ++ ([.int (v - kernbase)] ++ ([] ++ [])))) from rfl) cons
  simp only [symLine, words, List.map_append, List.append_assoc]
  exact h

theorem cprintf_footprint (n : Word) (cons : Console) :
    cprintf (.lit "Kernel executable memory footprint: %dKB\n") [.int n] cons =
      .ok (Console.puts (words ((CStr.lit "Kernel executable memory footprint: ").bytes ++ decimal n ++ (CStr.lit "KB\n").bytes)) cons) := by
  have h := cprintf_parts [.text (CStr.lit "Kernel executable memory footprint: ").bytes (by decide), .signed n,
    .text (CStr.lit "KB\n").bytes (by decide)] (show (CStr.lit "Kernel executable memory footprint: %dKB\n").bytes = _ from rfl)
    (show [Arg.int n] = [] ++ ([.int n] ++ ([] ++ [])) from rfl) cons
  simp only [words, List.map_append, List.append_assoc]
  exact h

theorem cprintf_start (v : Word) (cons : Console) :
    cprintf (.lit "  _start                  %08x (phys)\n") [.int v] cons =
      .ok (Console.puts (words ((CStr.lit "  _start                  ").bytes ++ hexField 8 v ++ (CStr.lit " (phys)\n").bytes)) cons) := by
  have h := cprintf_parts [.text (CStr.lit "  _start                  ").bytes (by decide), hex8 v,
    .text (CStr.lit " (phys)\n").bytes (by decide)] (show (CStr.lit "  _start                  %08x (phys)\n").bytes = _ from rfl)
    (show [Arg.int v] = [] ++ ([.int v] ++ ([] ++ [])) from rfl) cons
  simp only [words, List.map_append, List.append_assoc]
  exact h

theorem monKerninfo_eq (syms : Symbols) (cons : Console) :
    monKerninfo syms cons = .ok (0, Console.puts (words (kerninfoText syms)) cons) := by
  rw [monKerninfo, cprintf_text (by decide), ok_then, cprintf_start, ok_then, cprintf_sym (.lit "  entry  ") (by decide) rfl, ok_then,
    cprintf_sym (.lit "  etext  ") (by decide) rfl, ok_then, cprintf_sym (.lit "  edata  ") (by decide) rfl, ok_then,
    cprintf_sym (.lit "  end    ") (by decide) rfl, ok_then, cprintf_footprint, ok_then]
  simp only [puts_append, kerninfoText, words, List.map_append, List.append_assoc]

/-! ## `runcmd` -/

section
variable {mem mem' : Memory} {p : Word} {line : CStr} {argv : Argv}

theorem mapped_clear {a : Word} (q : Word) (l : List Byte) (h : mem a ≠ none) : clear mem q l a ≠ none := by
  rw [clear]
  split
  · exact Option.some_ne_none 0
  · exact h

structure Names (line w : List Byte) : Prop where
  first : (wordsOf white line).head? = some w
  fit : (wordsOf white line).length ≤ maxargs - 1

/-- What `runcmd` comes to for a line at `p`, in the memory it leaves. -/
inductive Decides (p : Word) (line : List Byte) (mem : Memory) : Does → Prop
  | tooMany (h : maxargs - 1 < (wordsOf white line).length) :
      Decides p line mem (.prints (.lit "Too many arguments (max %d)\n") [.int (BitVec.ofNat 32 maxargs)])
  | blank (h : wordsOf white line = []) : Decides p line mem .nothing
  | command {c : Command} (h : Names line c.name.bytes) (hc : c ∈ commands) (argc : Nat) (argv : Argv) :
      Decides p line mem (.calls c.func argc argv)
  | unknown {w : List Byte} (h : Names line w) (hw : ∀ c ∈ commands, c.name.bytes ≠ w) {i : Nat} (hi : i < line.length)
      (hold : Fmt.Holds mem (p + BitVec.ofNat 32 i) w) :
      Decides p line mem (.prints (.lit "Unknown command '%s'\n") [.ptr (p + BitVec.ofNat 32 i)])

theorem lookup_decides {i : Nat} {is : List Nat} {argc : Nat} (hargs : Args p line.bytes mem argc argv)
    (hst : starts white line.bytes = i :: is) (hfit : (wordsOf white line.bytes).length ≤ maxargs - 1) :
    ∃ does, lookup mem argc argv commands = .ok does ∧ Decides p line.bytes mem does := by
  obtain ⟨hat, hword⟩ := hargs.arg 0 i (by rw [hst]; rfl)
  have hw : 0 ∉ word white line.bytes i := fun h0 =>
    line.nonzero 0 (List.mem_of_mem_drop ((List.takeWhile_prefix _).mem h0)) rfl
  have hi : i < line.bytes.length :=
    List.mem_range.mp (List.mem_filter.mp (show i ∈ starts white line.bytes by rw [hst]; exact List.mem_cons_self)).1
  have hnames : Names line.bytes (word white line.bytes i) := ⟨by rw [wordsOf, hst]; rfl, hfit⟩
  refine ⟨_, lookup_eq hword hw commands, ?_⟩
  split
  · next c hc =>
    have hcw : c.name.bytes = word white line.bytes i := by simpa using List.find?_some hc
    rw [← hcw] at hnames
    exact .command hnames (List.mem_of_find?_eq_some hc) argc argv
  · next hn =>
    rw [hat] at hword ⊢
    exact .unknown hnames (fun c hc => by simpa using List.find?_eq_none.mp hn c hc) hi hword

theorem runcmd_decides (h : Fmt.Holds mem p line.bytes) (argv : Argv) : ∃ mem' does,
    Settles (fun n => runcmd n p mem argv) (.ok (does, mem')) ∧ Decides p line.bytes mem' does ∧
      (∀ a, line.bytes.length ≤ (a - p).toNat → mem' a = mem a) ∧ ∀ a, mem a ≠ none → mem' a ≠ none := by
  rcases Nat.lt_or_ge (maxargs - 1) (wordsOf white line.bytes).length with hmany | hfew
  · obtain ⟨k, hparse⟩ := parse_many h argv hmany
    refine ⟨clear mem p (line.bytes.take k), _, hparse.use fun n hn => ?_, .tooMany hmany, fun a ha => clear_out ?_,
      fun a ha => mapped_clear p _ ha⟩
    · rw [runcmd, hn, ok_then]
    · exact Nat.le_trans (List.length_take_le' _ _) ha
  · obtain ⟨argc, argv', hparse, hargs⟩ := parse_few h argv hfew
    have hcount : argc = (starts white line.bytes).length := by rw [hargs.count, wordsOf, List.length_map]
    cases hst : starts white line.bytes with
    | nil =>
      rw [hst] at hcount
      refine ⟨clear mem p line.bytes, .nothing, hparse.use fun n hn => ?_, .blank (by rw [wordsOf, hst]; rfl), fun a ha => clear_out ha,
        fun a ha => mapped_clear p _ ha⟩
      rw [runcmd, hn, ok_then]
      exact if_pos hcount
    | cons i is =>
      rw [hst] at hcount
      obtain ⟨does, hdoes, hdec⟩ := lookup_decides hargs hst hfew
      refine ⟨clear mem p line.bytes, does, hparse.use fun n hn => ?_, hdec, fun a ha => clear_out ha,
        fun a ha => mapped_clear p _ ha⟩
      rw [runcmd, hn, ok_then]
      dsimp only
      rw [if_neg (by rw [hcount]; exact Nat.succ_ne_zero _), hdoes]
      rfl

end

/-! ## The answers -/

inductive Runs (x : Setting) (k : Nat) : Func → List Word → Prop
  | help : Runs x k .monHelp (words helpText)
  | kerninfo : Runs x k .monKerninfo (words (kerninfoText x.syms))
  | backtrace {fs : List Frame} {rs : List Report} (hc : Chain (x.stack k).1 (x.stack k).2 fs)
      (hr : List.Forall₂ (fun f r => Reports x.dbg f.eip r) fs rs) : Runs x k .monBacktrace (backtraceText fs rs)

inductive Answers (x : Setting) (k : Nat) (line : List Byte) : List Word → Prop
  | tooMany (h : maxargs - 1 < (wordsOf white line).length) :
      Answers x k line (words (CStr.lit "Too many arguments (max 16)\n").bytes)
  | blank (h : wordsOf white line = []) : Answers x k line []
  | command {c : Command} {out : List Word} (h : Names line c.name.bytes) (hc : c ∈ commands) (hr : Runs x k c.func out) :
      Answers x k line out
  | unknown {w : List Byte} (h : Names line w) (hw : ∀ c ∈ commands, c.name.bytes ≠ w) :
      Answers x k line (words (CStr.lit "Unknown command '").bytes ++ w.map (shown false) ++ words (CStr.lit "'\n").bytes)

section
variable {x : Setting} {k : Nat} {mem : Memory} {p : Word} {line w : List Byte} {out : List Word} {cons : Console}

theorem Names.unique {w' : List Byte} (h : Names line w) (h' : Names line w') : w = w' :=
  Option.some.inj (h.first.symm.trans h'.first)

theorem Names.not_blank (h : Names line w) : wordsOf white line ≠ [] := fun hn => by
  have := h.first
  rw [hn] at this
  cases this

theorem Names.within (h : Names line w) : (∀ b ∈ w, b ∈ line) ∧ w.length ≤ line.length := by
  have hmem : w ∈ wordsOf white line := List.mem_of_mem_head? h.first
  obtain ⟨i, _, rfl⟩ := List.mem_map.mp hmem
  have hpre : word white line i <+: line.drop i := List.takeWhile_prefix _
  exact ⟨fun b hb => List.mem_of_mem_drop (hpre.mem hb), Nat.le_trans hpre.length_le (List.drop_suffix i line).length_le⟩

theorem call_settles {func : Func} (h : Runs x k func out) (cons : Console) :
    Settles (fun n => call x n k func cons) (.ok (0, Console.puts out cons)) := by
  cases h with
  | help => exact (Settles.const _).congr fun n => monHelp_eq cons
  | kerninfo => exact (Settles.const _).congr fun n => monKerninfo_eq x.syms cons
  | backtrace hc hr => exact monBacktrace_settles hc hr cons

theorem cprintfMem_settles {fmt : CStr} (hlen : fmt.bytes.length < 2 ^ 32) {ap apL : List Arg} (ha : Fmt.ArgsIn mem apL ap)
    (h : emitted fmt apL = some out) (cons : Console) :
    Settles (fun n => cprintfMem n mem fmt ap cons) (.ok (Console.puts out cons)) := by
  have hp := Fmt.prints_of_emitted (Fmt.holds_bytesAt 0 hlen) ha h KernOut kernPutch ⟨cons, 0⟩
  refine hp.use fun n hn => ?_
  rw [cprintfMem, hn]
  exact congrArg Except.ok (foldl_kernPutch _ _)

theorem emitted_tooMany : emitted (.lit "Too many arguments (max %d)\n") [.int (BitVec.ofNat 32 maxargs)] =
    some (words (CStr.lit "Too many arguments (max 16)\n").bytes) := by
  have hdec : decimal (BitVec.ofNat 32 maxargs) = [chr '1', chr '6'] := by
    rw [decimal, if_neg (by decide), show (BitVec.ofNat 32 maxargs).toNat = 16 by decide, numeral,
      digits_of_le (by decide) (by decide), digits_of_lt (by decide)]
    decide
  have h := emitted_parts [.text (CStr.lit "Too many arguments (max ").bytes (by decide), .signed (BitVec.ofNat 32 maxargs),
    .text (CStr.lit ")\n").bytes (by decide)] (show (CStr.lit "Too many arguments (max %d)\n").bytes = _ from rfl) rfl
  refine h.trans (congrArg some ?_)
  simp only [List.flatMap_cons, List.flatMap_nil, Part.text, Part.signed, hdec]
  decide

theorem emitted_unknown {w : CStr} (hlen : w.bytes.length < 2 ^ 31) : emitted (.lit "Unknown command '%s'\n") [.str (some w)] =
    some (words (CStr.lit "Unknown command '").bytes ++ w.bytes.map (shown false) ++ words (CStr.lit "'\n").bytes) := by
  have h := emitted_parts [.text (CStr.lit "Unknown command '").bytes (by decide), .str w hlen, .text (CStr.lit "'\n").bytes (by decide)]
    (show (CStr.lit "Unknown command '%s'\n").bytes = _ from rfl) rfl
  refine h.trans (congrArg some ?_)
  simp only [List.flatMap_cons, List.flatMap_nil, List.append_nil, List.append_assoc]
  rfl

theorem perform_settles {does : Does} (ha : Answers x k line out) (hd : Decides p line mem does) (hz : 0 ∉ line)
    (hlen : line.length < 2 ^ 31) (hp : ∀ i < line.length, p + BitVec.ofNat 32 i ≠ 0) (cons : Console) :
    Settles (fun n => perform x n k does mem cons) (.ok (0, Console.puts out cons)) := by
  cases ha with
  | tooMany h =>
    cases hd with
    | tooMany => exact (cprintfMem_settles (by decide) (.cons (.int _) (.nil [])) emitted_tooMany cons).bind (.const _)
    | blank h' => rw [h'] at h; exact absurd h (by decide)
    | command h' => exact absurd h'.fit (Nat.not_le_of_lt h)
    | unknown h' => exact absurd h'.fit (Nat.not_le_of_lt h)
  | blank h =>
    cases hd with
    | tooMany h' => rw [h] at h'; exact absurd h' (by decide)
    | blank => exact .const _
    | command h' => exact absurd h h'.not_blank
    | unknown h' => exact absurd h h'.not_blank
  | @command c out h hc hr =>
    cases hd with
    | tooMany h' => exact absurd h.fit (Nat.not_le_of_lt h')
    | blank h' => exact absurd h' h.not_blank
    | @command c' h' hc' argc argv =>
      have hf : c.func = c'.func := (commands_inj c hc c' hc').mp (h.unique h')
      rw [hf] at hr
      exact call_settles hr cons
    | unknown h' hw => exact absurd (h.unique h') (hw c hc)
  | @unknown w h hw =>
    cases hd with
    | tooMany h' => exact absurd h.fit (Nat.not_le_of_lt h')
    | blank h' => exact absurd h' h.not_blank
    | @command c' h' hc' => exact absurd (h'.unique h) (hw c' hc')
    | @unknown w' h' _ i hi hold =>
      obtain rfl := h.unique h'
      obtain ⟨hin, hle⟩ := h.within
      have hnz : ∀ b ∈ w, b ≠ 0 := fun b hb h0 => hz (h0 ▸ hin b hb)
      have harg : Fmt.ArgsIn mem [.str (some ⟨w, hnz⟩)] [.ptr (p + BitVec.ofNat 32 i)] := .cons (.str (hp i hi) hold) (.nil [])
      exact (cprintfMem_settles (by decide) harg (emitted_unknown (w := ⟨w, hnz⟩) (by dsimp only; omega)) cons).bind (.const _)

end

/-! ## The session -/

open Readline (Typed Line keep buflen prompt echoes readlineRest readlineRest_typed readlineRest_waits)

theorem length_line (t : Typed) : t.line.bytes.length < buflen := by
  have h0 : ([] : List Byte).length < buflen := by decide
  refine List.foldlRecOn t.keys keep (motive := fun l => l.length < buflen) h0 fun l h b _ => ?_
  rw [Readline.length_keep]
  split
  · omega
  split
  · omega
  · exact h

/-- The lines from turn `k` on and the answers to them. -/
inductive Session (x : Setting) : Nat → List Typed → List (List Word) → Prop
  | nil (k : Nat) : Session x k [] []
  | cons {k : Nat} {t : Typed} {ts : List Typed} {out : List Word} {outs : List (List Word)} (hd : Answers x k t.line.bytes out)
      (tl : Session x (k + 1) ts outs) : Session x k (t :: ts) (out :: outs)

def exchanges (ts : List Typed) (outs : List (List Word)) : List Word :=
  (List.zipWith (fun t out => t.echo ++ out) ts outs).flatten

/-- `buf` does not reach around the end of memory. -/
structure Setting.BufFits (x : Setting) : Prop where
  pos : x.buf ≠ 0
  fits : x.buf.toNat + buflen ≤ 2 ^ 32

section
variable {x : Setting} {k : Nat} {mem : Memory} {ts : List Typed} {outs : List (List Word)} {keys : List Byte}

theorem Setting.BufFits.add_ne_zero (hb : x.BufFits) {i : Nat} (hi : i < buflen) : x.buf + BitVec.ofNat 32 i ≠ 0 := by
  intro h
  have hpos : x.buf.toNat ≠ 0 := fun h0 => hb.pos (BitVec.eq_of_toNat_eq h0)
  have hfits := hb.fits
  have hto := congrArg BitVec.toNat h
  rw [BitVec.toNat_add, BitVec.toNat_ofNat, show (0 : Word).toNat = 0 from rfl] at hto
  rw [show buflen = 1024 from rfl] at hi hfits
  omega

theorem monitorLoop_line (hb : x.BufFits) {t : Typed} {out : List Word} (ha : Answers x k t.line.bytes out)
    (hm : Mapped mem x.buf buflen) (rest : List Word) (cons : Console) : ∃ mem', Mapped mem' x.buf buflen ∧
      (∀ a, buflen ≤ (a - x.buf).toNat → mem' a = mem a) ∧ ∀ r : Except Fault Stops,
        Settles (fun n => monitorLoop x n (k + 1) rest mem' (Console.puts (t.echo ++ out) cons)) r →
        Settles (fun n => monitorLoop x n k (t.chars ++ rest) mem cons) r := by
  have hlen : t.line.bytes.length < 1024 := length_line t
  have hz : 0 ∉ t.line.bytes := fun h0 => t.line.nonzero 0 h0 rfl
  obtain ⟨s, hs, hheld, hmap, hframe, hcons⟩ := readlineRest_typed hm t rest cons
  obtain ⟨mem', does, hrun, hdec, hout, hkeep⟩ := runcmd_decides hheld (x.argv k)
  refine ⟨mem', hmap.mono hkeep, fun a ha => ?_, fun r hr => ?_⟩
  · rw [hout a (Nat.le_trans (Nat.le_of_lt hlen) ha), hframe a ha]
  · have hperf := perform_settles ha hdec hz (by omega) (fun i hi => hb.add_ne_zero (Nat.lt_trans hi hlen)) s.cons
    rw [hcons, puts_append] at hperf
    obtain ⟨N, hN⟩ := hrun
    obtain ⟨M, hM⟩ := hperf
    obtain ⟨I, hI⟩ := hr
    refine ⟨max N (max M I) + 1, fun n hn => ?_⟩
    obtain ⟨n, rfl⟩ : ∃ j, n = j + 1 := ⟨n - 1, by omega⟩
    have hrun := hN n (by omega)
    have hperf := hM n (by omega)
    have hrest := hI n (by omega)
    dsimp only at hrun hperf hrest ⊢
    rw [monitorLoop, hs, ok_then]
    dsimp only
    rw [if_pos hb.pos, hrun, ok_then]
    dsimp only
    rw [hcons, hperf, ok_then]
    dsimp only
    rw [if_neg (by decide), hrest]

theorem monitorLoop_session (hb : x.BufFits) (hs : Session x k ts outs) (hk : ∀ b ∈ keys, ¬ Readline.Ends b)
    (hm : Mapped mem x.buf buflen) (cons : Console) : ∃ s,
      Settles (fun n => monitorLoop x n k (ts.flatMap Typed.chars ++ keys.map (·.setWidth 32)) mem cons) (.ok (.waiting s)) ∧
      s.cons = Console.puts (exchanges ts outs ++ (prompt ++ echoes [] keys)) cons ∧ Line x.buf mem (keys.foldl keep []) s := by
  induction hs generalizing mem cons with
  | nil k =>
    obtain ⟨s, hs, hl, hc⟩ := readlineRest_waits hm hk cons
    refine ⟨s, (Settles.const _).step fun n => ?_, hc, hl⟩
    rw [List.flatMap_nil, List.nil_append, monitorLoop, hs]
    rfl
  | @cons k t ts out outs ha _ ih =>
    obtain ⟨mem', hm', hframe, hstep⟩ := monitorLoop_line hb ha hm (ts.flatMap Typed.chars ++ keys.map (·.setWidth 32)) cons
    obtain ⟨s, hs, hc, hl⟩ := ih hm' (Console.puts (t.echo ++ out) cons)
    refine ⟨s, ?_, ?_, hl.pos, hl.room, hl.has, hl.mapped, fun a ha => (hl.frame a ha).trans (hframe a ha)⟩
    · rw [List.flatMap_cons, List.append_assoc]
      exact hstep _ hs
    · rw [hc, puts_append, ← List.append_assoc]
      rfl

def greeting (trapped : Option Trapped) : List Word :=
  words ((CStr.lit "Welcome to the JOS kernel monitor!\n").bytes ++ (CStr.lit "Type 'help' for a list of commands.\n").bytes) ++
    match trapped with
    | some t => words (trapframeText t.tfp t.lastTf t.cr2 t.tf)
    | none => []

theorem monitor_eq (x : Setting) (n : Nat) (trapped : Option Trapped) (calls : List Word) (mem : Memory) (cons : Console) :
    monitor x n trapped calls mem cons =
      monitorLoop x n 0 (Readline.getchars calls) mem (Console.puts (greeting trapped) cons) := by
  rw [monitor, cprintf_text (by decide), ok_then, cprintf_text (by decide), ok_then, puts_append, ← List.map_append]
  unfold greeting
  cases trapped with
  | none =>
    rw [List.append_nil]
    rfl
  | some t =>
    dsimp only
    rw [printTrapframe_eq, ok_then, puts_append]

end

/-- **`monitor`**: whatever lines are typed, the console gets the greeting and, of each line in turn, the prompt, its echo
and its answer, and then the prompt and the echo of what is typed since. The monitor waits for the rest of that line, and
only `readline`'s `buf` has been written to. -/
theorem monitor_session (x : Setting) (hb : x.BufFits) {mem : Memory} (hm : Mapped mem x.buf buflen) (trapped : Option Trapped)
    {ts : List Typed} {outs : List (List Word)} (hs : Session x 0 ts outs) {keys : List Byte}
    (hk : ∀ b ∈ keys, ¬ Readline.Ends b) {calls : List Word}
    (hcalls : Readline.getchars calls = ts.flatMap Typed.chars ++ keys.map (·.setWidth 32)) (cons : Console) : ∃ s,
      Settles (fun n => monitor x n trapped calls mem cons) (.ok (.waiting s)) ∧
      s.cons = Console.puts (greeting trapped ++ exchanges ts outs ++ prompt ++ echoes [] keys) cons ∧
      Line x.buf mem (keys.foldl keep []) s := by
  obtain ⟨s, hrun, hc, hl⟩ := monitorLoop_session hb hs hk hm (Console.puts (greeting trapped) cons)
  refine ⟨s, hrun.congr fun n => ?_, ?_, hl⟩
  · rw [monitor_eq, hcalls]
  · rw [hc, puts_append, List.append_assoc, List.append_assoc]

def plainSetting : Setting where
  syms := ⟨0x0010000C, 0xF010000C, 0xF0101000, 0xF0102000, 0xF0103000⟩
  dbg := ⟨⟨[], [], by decide⟩, none⟩
  buf := 0x1000
  argv _ _ := 0
  stack _ := (fun _ => none, 0)

theorem plainSetting_fits : plainSetting.BufFits := ⟨by decide, by decide⟩

def typedHelp : Typed where
  keys := [chr 'h', chr 'e', chr 'l', chr 'o', Readline.bs, chr 'p']
  enter := chr '\r'
  inside := by decide
  ends := by decide

def typedBacktrace : Typed where
  keys := (CStr.lit " backtrace ").bytes
  enter := chr '\n'
  inside := by decide
  ends := by decide

theorem session_small : Session plainSetting 0 [typedHelp, typedBacktrace] [words helpText, backtraceText [] []] :=
  .cons (.command (c := ⟨.lit "help", .monHelp⟩) ⟨by decide, by decide⟩ (.head _) .help)
    (.cons (.command (c := ⟨.lit "backtrace", .monBacktrace⟩) ⟨by decide, by decide⟩ (.tail _ (.tail _ (.head _)))
      (.backtrace .done .nil)) (.nil 2))

def smallCalls : List Word := 0 :: (typedHelp.chars ++ 0 :: (typedBacktrace.chars ++ [(chr 'x').setWidth 32]))

theorem monitor_session_small : ∃ s,
    Settles (fun n => monitor plainSetting n none smallCalls (Readline.bufOnly 0x1000) Readline.blankScreen) (.ok (.waiting s)) ∧
    s.cons = Console.puts (greeting none ++ exchanges [typedHelp, typedBacktrace] [words helpText, backtraceText [] []] ++ prompt ++
      echoes [] [chr 'x']) Readline.blankScreen ∧ Line 0x1000 (Readline.bufOnly 0x1000) [chr 'x'] s :=
  monitor_session plainSetting plainSetting_fits (Readline.mapped_bufOnly 0x1000) none session_small
    (show ∀ b ∈ [chr 'x'], ¬ Readline.Ends b by decide) (by decide) Readline.blankScreen

/-! ## It never returns -/

section
variable {x : Setting} {n k : Nat} {cons cons' : Console} {ret : Word}

theorem call_zero {func : Func} (h : call x n k func cons = .ok (ret, cons')) : ret = 0 := by
  cases func with
  | monHelp =>
    obtain ⟨_, _, h⟩ := of_then_ok h
    cases h
    rfl
  | monKerninfo =>
    rw [call, monKerninfo_eq] at h
    cases h
    rfl
  | monBacktrace =>
    rw [call, monBacktrace_eq] at h
    obtain ⟨_, _, h⟩ := of_then_ok (f := fun x => .ok ((0 : Word), x)) h
    cases h
    rfl

theorem perform_zero {does : Does} {mem : Memory} (h : perform x n k does mem cons = .ok (ret, cons')) : ret = 0 := by
  cases does with
  | nothing =>
    cases h
    rfl
  | prints fmt ap =>
    obtain ⟨_, _, h⟩ := of_then_ok h
    cases h
    rfl
  | calls func argc argv => exact call_zero h

theorem monitorLoop_stays {chars chars' : List Word} {mem mem' : Memory} :
    monitorLoop x n k chars mem cons ≠ .ok (.exited chars' mem' cons') := by
  induction n generalizing k chars mem cons with
  | zero => exact nofun
  | succ n ih =>
    rw [monitorLoop]
    intro h
    obtain ⟨⟨out, rest⟩, _, h⟩ := of_then_ok h
    cases out with
    | waiting s => cases h
    | returned p s =>
      dsimp only at h
      split at h
      · obtain ⟨⟨does, mem₁⟩, _, h⟩ := of_then_ok h
        obtain ⟨⟨ret, cons₁⟩, hperf, h⟩ := of_then_ok h
        obtain rfl := perform_zero hperf
        rw [if_neg (show ¬ (0 : Word).slt 0 = true by decide)] at h
        exact ih h
      · exact ih h

end

/-- **`monitor`** never returns, whatever `cons_getc` gives it. -/
theorem monitor_never_returns (x : Setting) (n : Nat) (trapped : Option Trapped) (calls : List Word) (mem : Memory)
    (cons : Console) (chars : List Word) (mem' : Memory) (cons' : Console) :
    monitor x n trapped calls mem cons ≠ .ok (.exited chars mem' cons') := by
  rw [monitor_eq]
  exact monitorLoop_stays

/-! ## `_panic` -/

def panicText (panicstr : Option CStr) (file : CStr) (line : Word) (out : List Word) : List Word :=
  match panicstr with
  | some _ => []
  | none =>
    words (CStr.lit "kernel panic at ").bytes ++ file.bytes.map (shown false) ++
      words ([chr ':'] ++ decimal line ++ [chr ':', chr ' ']) ++ out ++ words [chr '\n']

theorem cprintf_emitted {fmt : CStr} {ap : List Arg} {out : List Word} (h : emitted fmt ap = some out) (cons : Console) :
    cprintf fmt ap cons = .ok (Console.puts out cons) := by
  rw [cprintf, kernVcprintf, vprintfmt_eq_emitted, h, Option.map_some, Option.map_some]
  exact congrArg Except.ok (foldl_kernPutch _ _)

theorem cprintf_panic {file : CStr} (hfile : file.bytes.length < 2 ^ 31) (line : Word) (cons : Console) :
    cprintf (.lit "kernel panic at %s:%d: ") [.str (some file), .int line] cons = .ok (Console.puts
      (words (CStr.lit "kernel panic at ").bytes ++ file.bytes.map (shown false) ++
        words ([chr ':'] ++ decimal line ++ [chr ':', chr ' '])) cons) := by
  refine (cprintf_parts [.text (CStr.lit "kernel panic at ").bytes (by decide), .str file hfile, .text [chr ':'] (by decide),
    .signed line, .text [chr ':', chr ' '] (by decide)] rfl rfl cons).trans ?_
  refine congrArg (fun out => Except.ok (Console.puts out cons)) ?_
  simp only [words, List.map_append, List.flatMap_cons, List.flatMap_nil, List.append_nil, List.append_assoc]
  rfl

theorem panic_eq (x : Setting) (n : Nat) (panicstr : Option CStr) {file : CStr} (hfile : file.bytes.length < 2 ^ 31) (line : Word)
    {fmt : CStr} {ap : List Arg} {out : List Word} (hout : emitted fmt ap = some out) (calls : List Word) (mem : Memory)
    (cons : Console) : panic x n panicstr file line fmt ap calls mem cons =
      (deadLoop x n calls mem (Console.puts (panicText panicstr file line out) cons)).map (some (panicstr.getD fmt), ·) := by
  unfold panic
  cases panicstr with
  | some s =>
    change (deadLoop x n calls mem cons >>= fun s' => .ok (some s, s')) = (deadLoop x n calls mem cons).map (some s, ·)
    cases deadLoop x n calls mem cons <;> rfl
  | none =>
    have htext : panicText none file line out = words (CStr.lit "kernel panic at ").bytes ++ file.bytes.map (shown false) ++
        words ([chr ':'] ++ decimal line ++ [chr ':', chr ' ']) ++ (out ++ words (CStr.lit "\n").bytes) := List.append_assoc ..
    dsimp only
    rw [htext, cprintf_panic hfile, ok_then, cprintf_emitted hout, ok_then, cprintf_text (by decide), ok_then, puts_append, puts_append,
      ok_then]
    cases deadLoop x n calls mem _ <;> rfl

/-- **`_panic`**: the first one prints its message, once; whether it is the first or one from within another, what follows
is a session with the monitor that never ends. -/
theorem panic_session (x : Setting) (hb : x.BufFits) {mem : Memory} (hm : Mapped mem x.buf buflen) (panicstr : Option CStr)
    {file : CStr} (hfile : file.bytes.length < 2 ^ 31) (line : Word) {fmt : CStr} {ap : List Arg} {out : List Word}
    (hout : emitted fmt ap = some out) {ts : List Typed} {outs : List (List Word)} (hs : Session x 0 ts outs) {keys : List Byte}
    (hk : ∀ b ∈ keys, ¬ Readline.Ends b) {calls : List Word}
    (hcalls : Readline.getchars calls = ts.flatMap Typed.chars ++ keys.map (·.setWidth 32)) (cons : Console) : ∃ s,
      Settles (fun n => panic x n panicstr file line fmt ap calls mem cons) (.ok (some (panicstr.getD fmt), s)) ∧
      s.cons = Console.puts (panicText panicstr file line out ++ greeting none ++ exchanges ts outs ++ prompt ++ echoes [] keys) cons ∧
      Line x.buf mem (keys.foldl keep []) s := by
  obtain ⟨s, hrun, hc, hl⟩ :=
    monitorLoop_session hb hs hk hm (Console.puts (greeting none) (Console.puts (panicText panicstr file line out) cons))
  refine ⟨s, ?_, ?_, hl⟩
  · have hdead : Settles (fun n => deadLoop x n calls mem (Console.puts (panicText panicstr file line out) cons)) (.ok s) := by
      obtain ⟨N, hN⟩ := hrun
      refine ⟨N + 1, fun n hn => ?_⟩
      obtain ⟨n, rfl⟩ : ∃ j, n = j + 1 := ⟨n - 1, by omega⟩
      have hn := hN n (by omega)
      dsimp only at hn ⊢
      rw [deadLoop, monitor_eq, hcalls, hn]
      rfl
    refine hdead.use fun n hn => ?_
    rw [panic_eq x n panicstr hfile line hout, hn]
    rfl
  · rw [hc, puts_append, puts_append]
    simp only [List.append_assoc]

theorem panic_session_small : ∃ s,
    Settles (fun n => panic plainSetting n none (.lit "kern/pmap.c") 7 (.lit "out of memory") [] smallCalls (Readline.bufOnly 0x1000)
      Readline.blankScreen) (.ok (some (.lit "out of memory"), s)) ∧
    s.cons = Console.puts (panicText none (.lit "kern/pmap.c") 7 (words (CStr.lit "out of memory").bytes) ++ greeting none ++
      exchanges [typedHelp, typedBacktrace] [words helpText, backtraceText [] []] ++ prompt ++ echoes [] [chr 'x'])
      Readline.blankScreen ∧ Line 0x1000 (Readline.bufOnly 0x1000) [chr 'x'] s :=
  panic_session plainSetting plainSetting_fits (Readline.mapped_bufOnly 0x1000) none (by decide) 7
    (emit_literal (show chr '%' ∉ (CStr.lit "out of memory").bytes by decide) []) session_small
    (show ∀ b ∈ [chr 'x'], ¬ Readline.Ends b by decide) (by decide) Readline.blankScreen

end Monitor

end Jos
