import Jos.Console
import Mathlib.Logic.Function.Iterate

/-!
# `lib/printfmt.c`, `kern/printf.c`, `lib/printf.c`

`vprintfmt` with its sink `putch` as a parameter, and the three sinks. The result
is `none` where a conversion does not find the argument it reads. `int`s wrap.
-/

namespace Jos

def chr (c : Char) : Byte := BitVec.ofNat 8 c.toNat

structure CStr where
  bytes : List Byte
  nonzero : ∀ b ∈ bytes, b ≠ 0

def CStr.lit (s : String) : CStr where
  bytes := (s.toList.map chr).takeWhile (· ≠ 0)
  nonzero b hb := of_decide_eq_true (List.all_eq_true.mp List.all_takeWhile b hb)

inductive Arg where
  | int (v : Word)
  | longlong (v : BitVec 64)
  | str (p : Option CStr)
  | ptr (v : Word)

/-- A base that `printnum` comes to an end with. -/
abbrev Base := { b : Nat // 2 ≤ b }

section
variable {σ : Type} (putch : Word → σ → σ)

def digitChar (n : Nat) : Byte := (CStr.lit "0123456789abcdef").bytes.getD n 0

def printnum (num : Nat) (base : Base) (width : Word) (padc : Byte) (d : σ) : σ :=
  if num ≥ base then
    let d := printnum (num / base) base (width - 1) padc d
    putch ((digitChar (num % base)).setWidth 32) d
  else
    let d := (putch (padc.signExtend 32))^[(width - 1).toInt.toNat] d
    putch ((digitChar (num % base)).setWidth 32) d
termination_by num
decreasing_by
  have := base.2
  exact Nat.div_lt_self (by omega) (by omega)

/-! ## The arguments -/

def vaInt : List Arg → Option (Word × List Arg)
  | .int v :: ap => some (v, ap)
  | _ => none

def vaStr : List Arg → Option (Option CStr × List Arg)
  | .str p :: ap => some (p, ap)
  | _ => none

def vaPtr : List Arg → Option (Word × List Arg)
  | .ptr v :: ap => some (v, ap)
  | _ => none

def getuint (ap : List Arg) (lflag : Word) : Option (BitVec 64 × List Arg) :=
  match ap with
  | .longlong v :: ap => if (2 : Word).sle lflag then some (v, ap) else none
  | .int v :: ap => if (2 : Word).sle lflag then none else some (v.setWidth 64, ap)
  | _ => none

def getint (ap : List Arg) (lflag : Word) : Option (BitVec 64 × List Arg) :=
  match ap with
  | .longlong v :: ap => if (2 : Word).sle lflag then some (v, ap) else none
  | .int v :: ap => if (2 : Word).sle lflag then none else some (v.signExtend 64, ap)
  | _ => none

/-! ## The flags of a conversion -/

structure Spec where
  padc : Byte
  width : Word
  precision : Word
  lflag : Word
  altflag : Bool

def Spec.init : Spec := ⟨chr ' ', -1, -1, 0, false⟩

def Spec.processPrecision (s : Spec) (precision : Word) : Spec :=
  if s.width.slt 0 then { s with width := precision, precision := -1 } else { s with precision := precision }

def isDigit (c : Byte) : Bool := chr '0' ≤ c && c ≤ chr '9'

def scanDigits (precision : Word) : List Byte → Word × List Byte
  | [] => (precision, [])
  | c :: fmt => if isDigit c then scanDigits (precision * 10 + c.setWidth 32 - 48) fmt else (precision, c :: fmt)

theorem scanDigits_length (precision : Word) (fmt : List Byte) : (scanDigits precision fmt).2.length ≤ fmt.length := by
  induction fmt generalizing precision with
  | nil => exact Nat.le_refl _
  | cons c fmt ih =>
    rw [scanDigits]
    split
    · exact Nat.le_succ_of_le (ih _)
    · exact Nat.le_refl _

theorem scanDigits_cons_length {c : Byte} (hc : isDigit c = true) (precision : Word) (fmt : List Byte) :
    (scanDigits precision (c :: fmt)).2.length ≤ fmt.length := by
  rw [scanDigits, if_pos hc]
  exact scanDigits_length _ fmt

def reswitch (s : Spec) (fmt : List Byte) (ap : List Arg) : Option (Spec × Byte × List Byte × List Arg) :=
  match fmt with
  | [] => some (s, 0, [], ap)
  | c :: fmt =>
    if c = chr '-' then reswitch { s with padc := chr '-' } fmt ap
    else if c = chr '0' then reswitch { s with padc := chr '0' } fmt ap
    else if _h : isDigit c = true then
      reswitch (s.processPrecision (scanDigits 0 (c :: fmt)).1) (scanDigits 0 (c :: fmt)).2 ap
    else if c = chr '*' then
      match vaInt ap with
      | some (precision, ap) => reswitch (s.processPrecision precision) fmt ap
      | none => none
    else if c = chr '.' then reswitch (if s.width.slt 0 then { s with width := 0 } else s) fmt ap
    else if c = chr '#' then reswitch { s with altflag := true } fmt ap
    else if c = chr 'l' then reswitch { s with lflag := s.lflag + 1 } fmt ap
    else some (s, c, fmt, ap)
termination_by fmt.length
decreasing_by
  all_goals simp only [List.length_cons]
  all_goals first
    | exact Nat.lt_succ_of_le (scanDigits_cons_length ‹_› 0 fmt)
    | exact Nat.lt_succ_self _

theorem reswitch_length {s s' : Spec} {fmt rest : List Byte} {ap ap' : List Arg} {c : Byte}
    (h : reswitch s fmt ap = some (s', c, rest, ap')) : rest.length ≤ fmt.length := by
  fun_induction reswitch s fmt ap with
  | case1 s ap =>
    obtain ⟨rfl, rfl, rfl, rfl⟩ := by simpa only [Option.some.injEq, Prod.mk.injEq] using h
    exact Nat.le_refl _
  | case2 _ _ _ ih => exact Nat.le_succ_of_le (ih h)
  | case3 _ _ _ _ ih => exact Nat.le_succ_of_le (ih h)
  | case4 _ _ _ fmt _ _ hc ih => exact Nat.le_succ_of_le (Nat.le_trans (ih h) (scanDigits_cons_length hc 0 fmt))
  | case5 _ _ _ _ _ _ _ _ _ ih => exact Nat.le_succ_of_le (ih h)
  | case6 => cases h
  | case7 _ _ _ _ _ _ _ ih => exact Nat.le_succ_of_le (ih h)
  | case8 _ _ _ _ _ _ _ _ ih => exact Nat.le_succ_of_le (ih h)
  | case9 _ _ _ _ _ _ _ _ _ ih => exact Nat.le_succ_of_le (ih h)
  | case10 =>
    obtain ⟨rfl, rfl, rfl, rfl⟩ := by simpa only [Option.some.injEq, Prod.mk.injEq] using h
    exact Nat.le_succ _

/-! ## The conversions -/

def strnlen (p : List Byte) (size : Word) : Word := BitVec.ofNat 32 (min p.length size.toNat)

def putStr (altflag : Bool) : List Byte → Word → Word → σ → Word × σ
  | [], _, width, d => (width, d)
  | b :: p, precision, width, d =>
    if precision.slt 0 ∨ (0 : Word).sle (precision - 1) then
      let ch := b.signExtend 32
      let ch := if altflag ∧ (ch.slt 0x20 ∨ (0x7E : Word).slt ch) then 0x3F else ch
      putStr altflag p (if precision.slt 0 then precision else precision - 1) (width - 1) (putch ch d)
    else (width, d)

def putPads (c : Word) (width : Word) (d : σ) : σ := (putch c)^[width.toInt.toNat] d

def null : CStr := .lit "(null)"

def padLeft (s : Spec) (p : List Byte) (d : σ) : Word × σ :=
  if (0 : Word).slt s.width ∧ s.padc ≠ chr '-' then
    let width := s.width - strnlen p s.precision
    (if (0 : Word).slt width then 0 else width, putPads putch (s.padc.signExtend 32) width d)
  else (s.width, d)

def convertStr (s : Spec) (p : CStr) (d : σ) : σ :=
  let r := padLeft putch s p.bytes d
  let r := putStr putch s.altflag p.bytes s.precision r.1 r.2
  putPads putch (chr ' ' |>.setWidth 32) r.1 r.2

def convertNum (s : Spec) (num : BitVec 64) (base : Base) (d : σ) : σ := printnum putch num.toNat base s.width s.padc d

def maxerror : Word := 7

def errorString : List (Option CStr) :=
  [none, some (.lit "unspecified error"), some (.lit "bad environment"), some (.lit "invalid parameter"),
    some (.lit "out of memory"), some (.lit "out of environments"), some (.lit "segmentation fault")]

def dec : Base := ⟨10, by decide⟩
def oct : Base := ⟨8, by decide⟩
def hex : Base := ⟨16, by decide⟩

def isConversion (c : Byte) : Bool := [chr 'c', chr 'e', chr 's', chr 'd', chr 'u', chr 'o', chr 'p', chr 'x', chr '%'].contains c

variable (printfmt : CStr → List Arg → σ → Option σ)

/-- `%e`; `err` is out of the table when it is the least `int`, which has no negative. -/
def convertErr (err : Word) (d : σ) : Option σ :=
  let err := if err.slt 0 then -err else err
  if maxerror.sle err then printfmt (.lit "error %d") [.int err] d
  else if err.slt 0 then none
  else
    match errorString.getD err.toNat none with
    | none => printfmt (.lit "error %d") [.int err] d
    | some p => printfmt (.lit "%s") [.str p] d

def convert (s : Spec) (c : Byte) (ap : List Arg) (d : σ) : Option (List Arg × σ) :=
  if c = chr 'c' then (vaInt ap).map fun (v, ap) => (ap, putch v d)
  else if c = chr 'e' then (vaInt ap).bind fun (err, ap) => (convertErr printfmt err d).map (ap, ·)
  else if c = chr 's' then (vaStr ap).map fun (p, ap) => (ap, convertStr putch s (p.getD null) d)
  else if c = chr 'd' then
    (getint ap s.lflag).map fun (num, ap) =>
      if num.slt 0 then (ap, convertNum putch s (-num) dec (putch (chr '-' |>.setWidth 32) d))
      else (ap, convertNum putch s num dec d)
  else if c = chr 'u' then (getuint ap s.lflag).map fun (num, ap) => (ap, convertNum putch s num dec d)
  else if c = chr 'o' then (getuint ap s.lflag).map fun (num, ap) => (ap, convertNum putch s num oct d)
  else if c = chr 'p' then
    (vaPtr ap).map fun (v, ap) =>
      (ap, convertNum putch s (v.setWidth 64) hex (putch (chr 'x' |>.setWidth 32) (putch (chr '0' |>.setWidth 32) d)))
  else if c = chr 'x' then (getuint ap s.lflag).map fun (num, ap) => (ap, convertNum putch s num hex d)
  else some (ap, putch (c.setWidth 32) d)

/-! ## `vprintfmt` -/

/-- `vprintfmt`, where `printfmt` is the one that it calls for `%e`. -/
def vprintfmtWith (fmt : List Byte) (ap : List Arg) (d : σ) : Option σ :=
  match fmt with
  | [] => some d
  | ch :: fmt =>
    if ch ≠ chr '%' then vprintfmtWith fmt ap (putch (ch.setWidth 32) d)
    else
      match _h : reswitch Spec.init fmt ap with
      | none => none
      | some (s, c, rest, ap) =>
        if isConversion c then
          match convert putch printfmt s c ap d with
          | none => none
          | some (ap, d) => vprintfmtWith rest ap d
        else vprintfmtWith fmt ap (putch (chr '%' |>.setWidth 32) d)
termination_by fmt.length
decreasing_by
  · exact Nat.lt_succ_self _
  · exact Nat.lt_succ_of_le (reswitch_length _h)
  · exact Nat.lt_succ_self _

def vprintfmtPlain (fmt : CStr) (ap : List Arg) (d : σ) : Option σ := vprintfmtWith putch (fun _ _ _ => none) fmt.bytes ap d

def vprintfmt (fmt : CStr) (ap : List Arg) (d : σ) : Option σ := vprintfmtWith putch (vprintfmtPlain putch) fmt.bytes ap d

end

/-! ## The kernel's sink -/

structure KernOut where
  cons : Console
  cnt : Word

/-- `*cnt++` moves the pointer `cnt`, which is a parameter; the `int` stays as it is. -/
def kernPutch (ch : Word) (b : KernOut) : KernOut := { b with cons := b.cons.cputchar ch }

def kernVcprintf (fmt : CStr) (ap : List Arg) (cons : Console) : Option (Word × Console) :=
  (vprintfmt kernPutch fmt ap ⟨cons, 0⟩).map fun b => (b.cnt, b.cons)

/-! ## The user library's sink -/

structure Printbuf where
  idx : Word
  cnt : Word
  buf : Nat → Byte
  cputs : List (List Byte)

def sysCputs (b : Printbuf) : Printbuf := { b with cputs := b.cputs ++ [(List.range b.idx.toNat).map b.buf] }

def userPutch (ch : Word) (b : Printbuf) : Printbuf :=
  let b := { b with
    buf := Function.update b.buf b.idx.toNat (ch.setWidth 8)
    idx := b.idx + 1 }
  let b := if b.idx = 256 - 1 then { sysCputs b with idx := 0 } else b
  { b with cnt := b.cnt + 1 }

/-- `buf` is what the array holds before it is written. -/
def userVcprintf (fmt : CStr) (ap : List Arg) (buf : Nat → Byte) : Option (Word × List (List Byte)) :=
  (vprintfmt userPutch fmt ap ⟨0, 0, buf, []⟩).map fun b => (b.cnt, (sysCputs b).cputs)

/-! ## `vsnprintf` -/

structure Sprintbuf where
  buf : Nat
  ebuf : Nat
  cnt : Word
  mem : Nat → Byte

def sprintputch (ch : Word) (b : Sprintbuf) : Sprintbuf :=
  let b := { b with cnt := b.cnt + 1 }
  if b.buf < b.ebuf then
    { b with
      mem := Function.update b.mem b.buf (ch.setWidth 8)
      buf := b.buf + 1 }
  else b

def eInval : Word := 3

def vsnprintf (mem : Nat → Byte) (buf : Nat) (n : Word) (fmt : CStr) (ap : List Arg) : Option (Word × (Nat → Byte)) :=
  let b : Sprintbuf := ⟨buf, buf + n.toNat - 1, 0, mem⟩
  if buf = 0 ∨ n.slt 1 then some (-eInval, mem)
  else (vprintfmt sprintputch fmt ap b).map fun b => (b.cnt, Function.update b.mem b.buf 0)

end Jos
