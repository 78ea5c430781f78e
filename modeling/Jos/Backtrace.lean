import Jos.Kdebug
import Jos.Readline

/-!
# `mon_backtrace`

The stack is read from memory. The tables of `debuginfo_eip` are the kernel's from `ULIM`
on and the user program's below, where there is one. `debuginfo_eip` says on the
console when it finds no line.
-/

namespace Jos.Monitor

open Access Kdebug
open Readline (cprintf)

def loadWord (mem : Memory) (p : Word) : Except Access.Fault Word := do
  let b0 ← load mem p
  let b1 ← load mem (p + 1)
  let b2 ← load mem (p + 2)
  let b3 ← load mem (p + 3)
  .ok (b3 ++ b2 ++ b1 ++ b0)

/-! ## `debuginfo_eip` with its tables and its output -/

/-- The stabs and their strings. No object has `2^31` bytes. -/
structure Tables where
  stabs : List Stab
  stabstr : List Byte
  short : stabstr.length < 2 ^ 31

structure DebugTables where
  kern : Tables
  user : Option Tables

def DebugTables.select (dbg : DebugTables) (addr : Word) : Except Access.Fault Tables :=
  if addr ≥ ulim then .ok dbg.kern
  else
    match dbg.user with
    | some t => .ok t
    | none => .error .read

def inTable {α : Type} : Except Kdebug.Fault α → Except Access.Fault α
  | .ok a => .ok a
  | .error .bounds => .error .bound
  | .error .fuel => .error .fuel

def lineMissing (n : Nat) (t : List Stab) (str : List Byte) (addr : Word) : Except Kdebug.Fault Bool :=
  if str.getLast? ≠ some 0 then .ok false
  else do
    let file ← stabBinsearch n t ⟨0, t.length - 1⟩ nSo addr
    if file.left = 0 then .ok false
    else do
      let fn ← stabBinsearch n t file nFun addr
      let (_, _, addr, line) ← findFun t str file fn addr
      let line ← stabBinsearch n t line nSline addr
      .ok (decide (line.right < line.left))

def Tables.nameText (t : Tables) : Name → CStr
  | .unknown => .lit "<unknown>"
  | .stabstr strx => ⟨(t.stabstr.drop strx).takeWhile (· ≠ 0),
      fun b hb => of_decide_eq_true (List.all_eq_true.mp List.all_takeWhile b hb)⟩

def debuginfoEipOn (n : Nat) (t : Tables) (addr : Word) (cons : Console) :
    Except Access.Fault ((Int × Eipdebuginfo) × Console) := do
  let missing ← inTable (lineMissing n t.stabs t.stabstr addr)
  let cons ← if missing then cprintf (.lit "line not find\n") [] cons else .ok cons
  let r ← inTable (debuginfoEip n t.stabs t.stabstr addr)
  .ok (r, cons)

/-! ## The frames -/

section
variable (dbg : DebugTables) (mem : Memory)

def backtraceLoop : Nat → Word → Console → Except Access.Fault Console
  | 0, _, _ => .error .fuel
  | n + 1, ebp, cons =>
    if ebp = 0 then .ok cons
    else do
      let eip ← loadWord mem (ebp + 4)
      let a2 ← loadWord mem (ebp + 8)
      let a3 ← loadWord mem (ebp + 12)
      let a4 ← loadWord mem (ebp + 16)
      let a5 ← loadWord mem (ebp + 20)
      let a6 ← loadWord mem (ebp + 24)
      let cons ← cprintf (.lit "    ebp %08x eip %08x args %08x %08x %08x %08x %08x\r\n")
        [.int ebp, .int eip, .int a2, .int a3, .int a4, .int a5, .int a6] cons
      let t ← dbg.select eip
      let ((result, info), cons) ← debuginfoEipOn n t eip cons
      let cons ←
        if result ≠ 0 then cprintf (.lit "failed\r\n") [.int eip] cons
        else
          cprintf (.lit "\t%s:%d: %.*s+%u\r\n")
            [.str (some (t.nameText info.file)), .int (info.line.setWidth 32), .int (BitVec.ofNat 32 info.fnNamelen),
              .str (some (t.nameText info.fnName)), .int (eip - info.fnAddr)] cons
      let ebp ← loadWord mem ebp
      backtraceLoop n ebp cons

def monBacktrace (n : Nat) (ebp : Word) (cons : Console) : Except Access.Fault (Word × Console) := do
  let cons ← cprintf (.lit "Stack backtrace:\r\n") [] cons
  let cons ← backtraceLoop dbg mem n ebp cons
  .ok (0, cons)

end

end Jos.Monitor
