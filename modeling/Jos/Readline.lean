import Jos.Access
import Jos.Printfmt

/-!
# `lib/readline.c`

`readline` with the kernel's `getchar` and `cputchar`. What the calls of `cons_getc`
return is a parameter.
-/

namespace Jos.Readline

open Access

def buflen : Nat := 1024

def bs : Byte := 0x08
def del : Byte := 0x7F

def getchars : List Word → List Word
  | [] => []
  | c :: calls => if c = 0 then getchars calls else c :: getchars calls

def iscons (_fdnum : Word) : Word := 1

def cprintf (fmt : CStr) (ap : List Arg) (cons : Console) : Except Fault Console :=
  match kernVcprintf fmt ap cons with
  | some (_, cons) => .ok cons
  | none => .error .arg

structure State where
  i : Word
  mem : Memory
  cons : Console

inductive Turn where
  | again (s : State)
  | ret (p : Word) (s : State)

/-- What a run comes to: it returns, or it waits for the next character. -/
inductive Outcome where
  | returned (p : Word) (s : State)
  | waiting (s : State)

section
variable (buf echoing : Word)

def echo (c : Word) (s : State) : State := if echoing ≠ 0 then { s with cons := s.cons.cputchar c } else s

def turn (c : Word) (s : State) : Except Fault Turn :=
  if c.slt 0 then do
    let cons ← cprintf (.lit "read error: %e\n") [.int c] s.cons
    .ok (.ret 0 { s with cons })
  else if (c = bs.setWidth 32 ∨ c = del.setWidth 32) ∧ (0 : Word).slt s.i then
    let s := echo echoing (bs.setWidth 32) s
    .ok (.again { s with i := s.i - 1 })
  else if ((chr ' ').setWidth 32).sle c ∧ s.i.slt (BitVec.ofNat 32 (buflen - 1)) then do
    let s := echo echoing c s
    let mem ← store s.mem (buf + s.i) (c.setWidth 8)
    .ok (.again { s with i := s.i + 1, mem })
  else if c = (chr '\n').setWidth 32 ∨ c = (chr '\r').setWidth 32 then do
    let s := echo echoing ((chr '\n').setWidth 32) s
    let mem ← store s.mem (buf + s.i) 0
    .ok (.ret buf { s with mem })
  else .ok (.again s)

def turns (s : State) : List Word → Except Fault Outcome
  | [] => .ok (.waiting s)
  | c :: cs => do
    match ← turn buf echoing c s with
    | .again s => turns s cs
    | .ret p s => .ok (.returned p s)

end

def putPrompt (prompt : Option CStr) (cons : Console) : Except Fault Console :=
  match prompt with
  | some p => cprintf (.lit "%s") [.str (some p)] cons
  | none => .ok cons

def readline (buf : Word) (prompt : Option CStr) (calls : List Word) (mem : Memory) (cons : Console) :
    Except Fault Outcome := do
  let cons ← putPrompt prompt cons
  turns buf (iscons 0) ⟨0, mem, cons⟩ (getchars calls)

end Jos.Readline
