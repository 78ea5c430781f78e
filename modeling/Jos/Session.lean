import Jos.Backtrace
import Jos.Monitor
import Jos.PrintfmtMem
import Jos.Trap

/-!
# `monitor`

The kernel monitor: it reads a line and runs the command in it, for ever. What the calls
of `cons_getc` return is a parameter, and so is what lies on the stack when the line of
each turn is run. Each loop takes a bound on its turns.
-/

namespace Jos

/-! ## The lines -/

namespace Readline

open Access

def turnsRest (buf echoing : Word) (s : State) : List Word → Except Fault (Outcome × List Word)
  | [] => .ok (.waiting s, [])
  | c :: cs => do
    match ← turn buf echoing c s with
    | .again s => turnsRest buf echoing s cs
    | .ret p s => .ok (.returned p s, cs)

def readlineRest (buf : Word) (prompt : Option CStr) (chars : List Word) (mem : Memory) (cons : Console) :
    Except Fault (Outcome × List Word) := do
  let cons ← putPrompt prompt cons
  turnsRest buf (iscons 0) ⟨0, mem, cons⟩ chars

end Readline

namespace Monitor

open Access
open Readline (cprintf)

/-! ## The commands -/

def Command.desc (c : Command) : CStr :=
  match c.func with
  | .monHelp => .lit "Display this list of commands"
  | .monKerninfo => .lit "Display information about the kernel"
  | .monBacktrace => .lit "Display a backtrace of the function stack"

def printCommands : List Command → Console → Except Fault Console
  | [], cons => .ok cons
  | c :: cs, cons => do
    let cons ← cprintf (.lit "%s - %s\n") [.str (some c.name), .str (some c.desc)] cons
    printCommands cs cons

def monHelp (cons : Console) : Except Fault (Word × Console) := do
  let cons ← printCommands commands cons
  .ok (0, cons)

structure Symbols where
  start : Word
  entry : Word
  etext : Word
  edata : Word
  kend : Word

/-- `ROUNDUP(end - entry, 1024) / 1024` of the `int` that the difference is. -/
def Symbols.footprint (syms : Symbols) : Word := (roundup (syms.kend - syms.entry) 1024).sdiv 1024

def monKerninfo (syms : Symbols) (cons : Console) : Except Fault (Word × Console) := do
  let cons ← cprintf (.lit "Special kernel symbols:\n") [] cons
  let cons ← cprintf (.lit "  _start                  %08x (phys)\n") [.int syms.start] cons
  let cons ← cprintf (.lit "  entry  %08x (virt)  %08x (phys)\n") [.int syms.entry, .int (syms.entry - kernbase)] cons
  let cons ← cprintf (.lit "  etext  %08x (virt)  %08x (phys)\n") [.int syms.etext, .int (syms.etext - kernbase)] cons
  let cons ← cprintf (.lit "  edata  %08x (virt)  %08x (phys)\n") [.int syms.edata, .int (syms.edata - kernbase)] cons
  let cons ← cprintf (.lit "  end    %08x (virt)  %08x (phys)\n") [.int syms.kend, .int (syms.kend - kernbase)] cons
  let cons ← cprintf (.lit "Kernel executable memory footprint: %dKB\n") [.int syms.footprint] cons
  .ok (0, cons)

/-! ## `runcmd` with its output -/

def fromFmt {α : Type} : Except Fmt.Fault α → Except Fault α
  | .ok a => .ok a
  | .error .read => .error .read
  | .error .arg => .error .arg
  | .error .fuel => .error .fuel

def cprintfMem (n : Nat) (mem : Memory) (fmt : CStr) (ap : List Arg) (cons : Console) : Except Fault Console := do
  let b ← fromFmt (Fmt.vprintfmt kernPutch mem (Fmt.bytesAt 0 (fmt.bytes ++ [0])) n 0 ap ⟨cons, 0⟩)
  .ok b.cons

/-- What the monitor finds: the symbols, the debugging tables, `readline`'s `buf`, and for the line of each turn what
is in `argv` before and which stack and frame pointer `mon_backtrace` has. -/
structure Setting where
  syms : Symbols
  dbg : DebugTables
  buf : Word
  argv : Nat → Argv
  stack : Nat → Memory × Word

section
variable (x : Setting)

def call (n k : Nat) (func : Func) (cons : Console) : Except Fault (Word × Console) :=
  match func with
  | .monHelp => monHelp cons
  | .monKerninfo => monKerninfo x.syms cons
  | .monBacktrace => monBacktrace x.dbg (x.stack k).1 n (x.stack k).2 cons

def perform (n k : Nat) (does : Does) (mem : Memory) (cons : Console) : Except Fault (Word × Console) :=
  match does with
  | .nothing => .ok (0, cons)
  | .prints fmt ap => do
    let cons ← cprintfMem n mem fmt ap cons
    .ok (0, cons)
  | .calls func _ _ => call x n k func cons

/-! ## The loop -/

inductive Stops where
  | exited (chars : List Word) (mem : Memory) (cons : Console)
  | waiting (s : Readline.State)

def monitorLoop : Nat → Nat → List Word → Memory → Console → Except Fault Stops
  | 0, _, _, _, _ => .error .fuel
  | n + 1, k, chars, mem, cons => do
    match ← Readline.readlineRest x.buf (some (.lit "K> ")) chars mem cons with
    | (.waiting s, _) => .ok (.waiting s)
    | (.returned p s, chars) =>
      if p ≠ 0 then do
        let (does, mem) ← runcmd n p s.mem (x.argv k)
        let (ret, cons) ← perform x n k does mem s.cons
        if ret.slt 0 then .ok (.exited chars mem cons) else monitorLoop n (k + 1) chars mem cons
      else monitorLoop n (k + 1) chars s.mem s.cons

structure Trapped where
  tfp : Word
  lastTf : Word
  cr2 : Word
  tf : Trapframe

def monitor (n : Nat) (trapped : Option Trapped) (calls : List Word) (mem : Memory) (cons : Console) : Except Fault Stops := do
  let cons ← cprintf (.lit "Welcome to the JOS kernel monitor!\n") [] cons
  let cons ← cprintf (.lit "Type 'help' for a list of commands.\n") [] cons
  let cons ←
    match trapped with
    | some t => printTrapframe t.tfp t.lastTf t.cr2 t.tf cons
    | none => .ok cons
  monitorLoop x n 0 (Readline.getchars calls) mem cons

/-! ## `_panic` -/

def deadLoop : Nat → List Word → Memory → Console → Except Fault Readline.State
  | 0, _, _, _ => .error .fuel
  | n + 1, calls, mem, cons => do
    match ← monitor x n none calls mem cons with
    | .exited chars mem cons => deadLoop n chars mem cons
    | .waiting s => .ok s

/-- `_panic`, with what it leaves in `panicstr`. -/
def panic (n : Nat) (panicstr : Option CStr) (file : CStr) (line : Word) (fmt : CStr) (ap : List Arg) (calls : List Word)
    (mem : Memory) (cons : Console) : Except Fault (Option CStr × Readline.State) := do
  let (panicstr, cons) ←
    match panicstr with
    | some s => .ok (some s, cons)
    | none => do
      let cons ← cprintf (.lit "kernel panic at %s:%d: ") [.str (some file), .int line] cons
      let cons ← cprintf fmt ap cons
      let cons ← cprintf (.lit "\n") [] cons
      .ok (some fmt, cons)
  let s ← deadLoop x n calls mem cons
  .ok (panicstr, s)

end

end Monitor

end Jos
