import Jos.Console
import Jos.Memmove

/-!
# The text-mode display of `kern/console.c`

`cga_putc` once more, over the memory that the display shows and without the port
output. Where the memory has no byte an access is a fault, so a run that ends has
stayed inside of what is there.
-/

namespace Jos

open Access

def cgaBuf : Word := 0xB8000
def monoBuf : Word := 0xB0000

structure Cga where
  mem : Memory
  crtBuf : Word
  crtPos : BitVec 16

namespace Cga

def le16 (v : BitVec 16) : List Byte := [v.setWidth 8, (v >>> 8).setWidth 8]

/-! ## `cga_init` -/

def probe (mem : Memory) (p : Word) : BitVec 16 := (mem (p + 1)).getD 0xFF ++ (mem p).getD 0xFF

def poke (mem : Memory) (p : Word) (v : BitVec 16) : Memory := fun a =>
  if a = p then (mem a).map fun _ => v.setWidth 8
  else if a = p + 1 then (mem a).map fun _ => (v >>> 8).setWidth 8
  else mem a

/-- `cga_init`; `hi` and `lo` are the registers 14 and 15 of the display, with the cursor's location. -/
def cgaInit (hi lo : Byte) (mem : Memory) : Cga :=
  let cp := kernbase + cgaBuf
  let was := probe mem cp
  let mem := poke mem cp 0xA55A
  let (cp, mem) := if probe mem cp ≠ 0xA55A then (kernbase + monoBuf, mem) else (cp, poke mem cp was)
  let pos := hi.setWidth 32 <<< 8 ||| (lo.setWidth 32 : Word)
  ⟨mem, cp, pos.setWidth 16⟩

/-! ## `cga_putc` -/

def writeCrt (i : Nat) (v : BitVec 16) (s : Cga) : Except Fault Cga := do
  let mem ← stores s.mem (s.crtBuf + BitVec.ofNat 32 (2 * i)) (le16 v)
  .ok { s with mem }

def scroll (s : Cga) : Except Fault Cga :=
  if s.crtPos ≥ crtSize then do
    let size := (crtSize.setWidth 32 - crtCols.setWidth 32) * 2
    let (_, cpu) ← memmove s.crtBuf (s.crtBuf + crtCols.setWidth 32 * 2) size ⟨false, s.mem⟩
    let s := { s with mem := cpu.mem }
    let keep := crtSize.toNat - crtCols.toNat
    let s ← (List.range crtCols.toNat).foldlM (fun s j => writeCrt (keep + j) (0x0700 ||| 0x20) s) s
    .ok { s with crtPos := s.crtPos - crtCols }
  else .ok s

def cgaPutcWith (cons : Word → Cga → Except Fault Cga) (c : Word) (s : Cga) : Except Fault Cga := do
  let c := if c &&& ~~~0xFF = 0 then c ||| 0x0700 else c
  let ch := c &&& 0xFF
  let s ←
    if ch = 0x08 then
      if s.crtPos > 0 then
        let s := { s with crtPos := s.crtPos - 1 }
        writeCrt s.crtPos.toNat (((c &&& ~~~0xFF) ||| 0x20).setWidth 16) s
      else .ok s
    else if ch = 0x0A then
      let s := { s with crtPos := s.crtPos + crtCols }
      .ok { s with crtPos := s.crtPos - s.crtPos % crtCols }
    else if ch = 0x0D then .ok { s with crtPos := s.crtPos - s.crtPos % crtCols }
    else if ch = 0x09 then do
      let s ← cons 0x20 s
      let s ← cons 0x20 s
      let s ← cons 0x20 s
      let s ← cons 0x20 s
      cons 0x20 s
    else do
      let s ← writeCrt s.crtPos.toNat (c.setWidth 16) s
      .ok { s with crtPos := s.crtPos + 1 }
  scroll s

def consPutcBlank (c : Word) (s : Cga) : Except Fault Cga := cgaPutcWith (fun _ s => .ok s) c s

def cgaPutc (c : Word) (s : Cga) : Except Fault Cga := cgaPutcWith consPutcBlank c s

def puts (cs : List Word) (s : Cga) : Except Fault Cga := cs.foldlM (fun s c => cgaPutc c s) s

end Cga

end Jos
