import Jos.Access

/-!
# `memmove` of `lib/string.c`

The version with string instructions, which the kernel is built with, and the one
in C. The processor's direction flag is `df`.
-/

namespace Jos

open Access

structure Cpu where
  df : Bool
  mem : Memory

namespace Cpu

def std (s : Cpu) : Cpu := { s with df := true }

def cld (s : Cpu) : Cpu := { s with df := false }

/-- `movsb` or `movsl`, for an element of `w` bytes: it is read whole before it is written. -/
def movs (w : Nat) (edi esi : Word) (s : Cpu) : Except Fault Cpu := do
  let bs ← loads s.mem esi w
  let mem ← stores s.mem edi bs
  .ok { s with mem }

def next (s : Cpu) (w : Nat) (p : Word) : Word := if s.df then p - BitVec.ofNat 32 w else p + BitVec.ofNat 32 w

def repMovs (w : Nat) : Nat → Word → Word → Cpu → Except Fault Cpu
  | 0, _, _, s => .ok s
  | ecx + 1, edi, esi, s => do
    let s ← movs w edi esi s
    repMovs w ecx (s.next w edi) (s.next w esi) s

end Cpu

open Cpu

def memmove (dst src n : Word) (cpu : Cpu) : Except Fault (Word × Cpu) := do
  let s := src
  let d := dst
  if s < d ∧ s + n > d then
    let s := s + n
    let d := d + n
    let cpu ← if s.srem 4 = 0 ∧ d.srem 4 = 0 ∧ n % 4 = 0 then repMovs 4 (n / 4).toNat (d - 4) (s - 4) cpu.std
      else repMovs 1 n.toNat (d - 1) (s - 1) cpu.std
    .ok (dst, cpu.cld)
  else
    let cpu ← if s.srem 4 = 0 ∧ d.srem 4 = 0 ∧ n % 4 = 0 then repMovs 4 (n / 4).toNat d s cpu.cld
      else repMovs 1 n.toNat d s cpu.cld
    .ok (dst, cpu)

/-! ## The version in C -/

namespace C

/-- `while (n-- > 0) *--d = *--s;` -/
def copyDown : Nat → Word → Word → Memory → Except Fault Memory
  | 0, _, _, mem => .ok mem
  | n + 1, d, s, mem => do
    let s := s - 1
    let d := d - 1
    let b ← load mem s
    let mem ← store mem d b
    copyDown n d s mem

/-- `while (n-- > 0) *d++ = *s++;` -/
def copyUp : Nat → Word → Word → Memory → Except Fault Memory
  | 0, _, _, mem => .ok mem
  | n + 1, d, s, mem => do
    let b ← load mem s
    let mem ← store mem d b
    copyUp n (d + 1) (s + 1) mem

def memmove (dst src n : Word) (mem : Memory) : Except Fault (Word × Memory) := do
  let s := src
  let d := dst
  let mem ← if s < d ∧ s + n > d then copyDown n.toNat (d + n) (s + n) mem else copyUp n.toNat d s mem
  .ok (dst, mem)

end C

end Jos
