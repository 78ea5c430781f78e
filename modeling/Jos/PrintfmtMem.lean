import Jos.Printfmt
import Jos.Lib.Settle

/-!
# `vprintfmt` over memory

`vprintfmt` once more, with the format and the strings read through pointers: where
the memory has no byte the read is the fault `read`. The arguments of `%s` are pointers,
and `arg` is a `va_arg` that does not find what it reads. Each loop takes a bound on its
turns.
-/

namespace Jos.Fmt

inductive Fault where
  | read
  | arg
  | fuel

abbrev Memory := Word → Option Byte

def load (mem : Memory) (p : Word) : Except Fault Byte :=
  match mem p with
  | some b => .ok b
  | none => .error .read

def va {α : Type} : Option α → Except Fault α
  | some a => .ok a
  | none => .error .arg

/-! ## The format -/

section
variable (fm : Memory)

def scanDigits : Nat → Word → Byte → Word → Except Fault (Word × Word)
  | 0, _, _, _ => .error .fuel
  | n + 1, precision, ch, fmt => do
    let precision := precision * 10 + ch.setWidth 32 - 48
    let ch ← load fm fmt
    if isDigit ch then scanDigits n precision ch (fmt + 1) else .ok (precision, fmt)

def reswitch : Nat → Spec → Word → List Arg → Except Fault (Spec × Byte × Word × List Arg)
  | 0, _, _, _ => .error .fuel
  | n + 1, s, fmt, ap => do
    let ch ← load fm fmt
    let fmt := fmt + 1
    if ch = chr '-' then reswitch n { s with padc := chr '-' } fmt ap
    else if ch = chr '0' then reswitch n { s with padc := chr '0' } fmt ap
    else if isDigit ch then do
      let (precision, fmt) ← scanDigits fm n 0 ch fmt
      reswitch n (s.processPrecision precision) fmt ap
    else if ch = chr '*' then do
      let (precision, ap) ← va (vaInt ap)
      reswitch n (s.processPrecision precision) fmt ap
    else if ch = chr '.' then reswitch n (if s.width.slt 0 then { s with width := 0 } else s) fmt ap
    else if ch = chr '#' then reswitch n { s with altflag := true } fmt ap
    else if ch = chr 'l' then reswitch n { s with lflag := s.lflag + 1 } fmt ap
    else .ok (s, ch, fmt, ap)

def rewind : Nat → Word → Except Fault Word
  | 0, _ => .error .fuel
  | n + 1, fmt => do
    let ch ← load fm (fmt - 1)
    if ch = chr '%' then .ok fmt else rewind n (fmt - 1)

end

/-! ## The conversions that read memory -/

section
variable {σ : Type} (putch : Word → σ → σ) (mem : Memory)

def strnlen : Nat → Word → Word → Word → Except Fault Word
  | 0, _, _, _ => .error .fuel
  | n + 1, s, size, cnt =>
    if size = 0 then .ok cnt
    else do
      let ch ← load mem s
      if ch = 0 then .ok cnt else strnlen n (s + 1) (size - 1) (cnt + 1)

/-- The second loop of `%s`, whose condition reads the byte before it looks at the precision. -/
def putStr (altflag : Bool) : Nat → Word → Word → Word → σ → Except Fault (Word × σ)
  | 0, _, _, _, _ => .error .fuel
  | n + 1, p, precision, width, d => do
    let b ← load mem p
    if b = 0 then .ok (width, d)
    else if precision.slt 0 ∨ (0 : Word).sle (precision - 1) then
      let ch := b.signExtend 32
      let ch := if altflag ∧ (ch.slt 0x20 ∨ (0x7E : Word).slt ch) then 0x3F else ch
      putStr altflag n (p + 1) (if precision.slt 0 then precision else precision - 1) (width - 1) (putch ch d)
    else .ok (width, d)

def padLeft (n : Nat) (s : Spec) (p : Word) (d : σ) : Except Fault (Word × σ) :=
  if (0 : Word).slt s.width ∧ s.padc ≠ chr '-' then do
    let len ← strnlen mem n p s.precision 0
    let width := s.width - len
    .ok (if (0 : Word).slt width then 0 else width, putPads putch (s.padc.signExtend 32) width d)
  else .ok (s.width, d)

/-- `%s`. The text for NULL is a constant of the kernel or of the program. -/
def convertStr (n : Nat) (s : Spec) (p : Word) (d : σ) : Except Fault σ :=
  if p = 0 then .ok (Jos.convertStr putch s null d)
  else do
    let (width, d) ← padLeft putch mem n s p d
    let (width, d) ← putStr putch mem s.altflag n p s.precision width d
    .ok (putPads putch ((chr ' ').setWidth 32) width d)

/-- `error_string[err]`. An index that is none of the table is a fault, wherever its address may wrap to. -/
def errorAt (err : Word) : Except Fault (Option CStr) :=
  if 0 ≤ err.toInt ∧ err.toInt < maxerror.toInt then .ok (errorString.getD err.toInt.toNat none) else .error .read

def convertErr (err : Word) (d : σ) : Except Fault σ :=
  let err := if err.slt 0 then -err else err
  if maxerror.sle err then va (Jos.vprintfmt putch (.lit "error %d") [.int err] d)
  else do
    match ← errorAt err with
    | none => va (Jos.vprintfmt putch (.lit "error %d") [.int err] d)
    | some p => va (Jos.vprintfmt putch (.lit "%s") [.str (some p)] d)

def convert (n : Nat) (s : Spec) (c : Byte) (ap : List Arg) (d : σ) : Except Fault (List Arg × σ) :=
  if c = chr 's' then do
    let (p, ap) ← va (vaPtr ap)
    let d ← convertStr putch mem n s p d
    .ok (ap, d)
  else if c = chr 'e' then do
    let (err, ap) ← va (vaInt ap)
    let d ← convertErr putch err d
    .ok (ap, d)
  else va (Jos.convert putch (fun _ _ _ => none) s c ap d)

/-! ## `vprintfmt` -/

def vprintfmt (fm : Memory) : Nat → Word → List Arg → σ → Except Fault σ
  | 0, _, _, _ => .error .fuel
  | n + 1, fmt, ap, d => do
    let ch ← load fm fmt
    let fmt := fmt + 1
    if ch ≠ chr '%' then
      if ch = 0 then .ok d else vprintfmt fm n fmt ap (putch (ch.setWidth 32) d)
    else do
      let (s, ch, fmt, ap) ← reswitch fm n Spec.init fmt ap
      if isConversion ch then do
        let (ap, d) ← convert putch mem n s ch ap d
        vprintfmt fm n fmt ap d
      else do
        let d := putch ((chr '%').setWidth 32) d
        let fmt ← rewind fm n (fmt - 1)
        vprintfmt fm n fmt ap d

end

/-- `sys_cputs`: the kernel's `cprintf("%.*s", len, s)`, with its format at `fmt`. -/
def sysCputs {σ : Type} (putch : Word → σ → σ) (fm mem : Memory) (fmt : Word) (n : Nat) (s len : Word) (d : σ) :
    Except Fault σ :=
  vprintfmt putch mem fm n fmt [.int len, .ptr s] d

/-! ## Strings in memory -/

/-- The bytes from `p` on are the string and its NUL. -/
def Holds (mem : Memory) : Word → List Byte → Prop
  | p, [] => mem p = some 0
  | p, b :: s => mem p = some b ∧ Holds mem (p + 1) s

def bytesAt (s : Word) (bs : List Byte) : Memory := fun a => bs[(a - s).toNat]?

end Jos.Fmt
