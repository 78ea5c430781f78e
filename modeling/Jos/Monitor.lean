import Jos.Access
import Jos.Printfmt

/-!
# The command line of `kern/monitor.c`

`runcmd` over memory, with `strchr` and `strcmp` of `lib/string.c`. A string literal is
the list of its bytes. Each loop over memory takes a bound on its turns.
-/

namespace Jos.Monitor

open Access

def strchr (c : Byte) : List Byte → Option (List Byte)
  | [] => none
  | b :: s => if b = c then some (b :: s) else strchr c s

def strcmp (mem : Memory) (p : Word) : List Byte → Except Fault Word
  | [] => do
    let b ← load mem p
    .ok (b.setWidth 32 - 0)
  | c :: q => do
    let b ← load mem p
    if b ≠ 0 ∧ b = c then strcmp mem (p + 1) q else .ok (b.setWidth 32 - c.setWidth 32)

def whitespace : CStr := .lit "\t\r\n "

def maxargs : Nat := 16

inductive Func where
  | monHelp
  | monKerninfo
  | monBacktrace
  deriving DecidableEq

structure Command where
  name : CStr
  func : Func

def commands : List Command :=
  [⟨.lit "help", .monHelp⟩, ⟨.lit "kerninfo", .monKerninfo⟩, ⟨.lit "backtrace", .monBacktrace⟩]

/-! ## The arguments -/

abbrev Argv := Nat → Word

def setArg (argv : Argv) (i : Nat) (p : Word) : Except Fault Argv :=
  if i < maxargs then .ok (Function.update argv i p) else .error .bound

def isSpace (b : Byte) : Bool := (strchr b whitespace.bytes).isSome

/-- `while (*buf && strchr(WHITESPACE, *buf)) *buf++ = 0;`. -/
def gobble : Nat → Word → Memory → Except Fault (Word × Memory)
  | 0, _, _ => .error .fuel
  | n + 1, buf, mem => do
    let c ← load mem buf
    if c ≠ 0 ∧ isSpace c then do
      let mem ← store mem buf 0
      gobble n (buf + 1) mem
    else .ok (buf, mem)

def scanArg (mem : Memory) : Nat → Word → Except Fault Word
  | 0, _ => .error .fuel
  | n + 1, buf => do
    let c ← load mem buf
    if c ≠ 0 ∧ ¬ isSpace c then scanArg mem n (buf + 1) else .ok buf

/-- The loop that fills `argv`; `none` is its return for too many arguments. -/
def parseArgs : Nat → Word → Memory → Nat → Argv → Except Fault (Memory × Option (Nat × Argv))
  | 0, _, _, _, _ => .error .fuel
  | n + 1, buf, mem, argc, argv => do
    let (buf, mem) ← gobble n buf mem
    let c ← load mem buf
    if c = 0 then .ok (mem, some (argc, argv))
    else if argc = maxargs - 1 then .ok (mem, none)
    else do
      let argv ← setArg argv argc buf
      let buf ← scanArg mem n buf
      parseArgs n buf mem (argc + 1) argv

/-- `runcmd` up to the lookup; `argv` is what the stack has there. -/
def parse (n : Nat) (buf : Word) (mem : Memory) (argv : Argv) : Except Fault (Memory × Option (Nat × Argv)) := do
  let argc := 0
  let argv ← setArg argv argc 0
  match ← parseArgs n buf mem argc argv with
  | (mem, none) => .ok (mem, none)
  | (mem, some (argc, argv)) => do
    let argv ← setArg argv argc 0
    .ok (mem, some (argc, argv))

/-! ## The command -/

inductive Does where
  | nothing
  | prints (fmt : CStr) (ap : List Arg)
  | calls (func : Func) (argc : Nat) (argv : Argv)

def lookup (mem : Memory) (argc : Nat) (argv : Argv) : List Command → Except Fault Does
  | [] => .ok (.prints (.lit "Unknown command '%s'\n") [.ptr (argv 0)])
  | c :: cs => do
    if (← strcmp mem (argv 0) c.name.bytes) = 0 then .ok (.calls c.func argc argv)
    else lookup mem argc argv cs

def runcmd (n : Nat) (buf : Word) (mem : Memory) (argv : Argv) : Except Fault (Does × Memory) := do
  match ← parse n buf mem argv with
  | (mem, none) => .ok (.prints (.lit "Too many arguments (max %d)\n") [.int (BitVec.ofNat 32 maxargs)], mem)
  | (mem, some (argc, argv)) =>
    if argc = 0 then .ok (.nothing, mem)
    else do
      let does ← lookup mem argc argv commands
      .ok (does, mem)

end Jos.Monitor
