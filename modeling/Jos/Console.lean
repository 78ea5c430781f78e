import Jos.Mmu
import Mathlib.Logic.Function.Basic

/-!
# `kern/console.c`

The console's input buffer, filled by `cons_intr` and emptied by `cons_getc`,
and its three output devices. Port input is a parameter: `dev p n` is what the
`n`-th `inb` reads if it reads port `p`. Port output is recorded in `out`.
-/

namespace Jos

/-! ## The input buffer -/

def consbufsize : Nat := 512

structure Cons where
  buf : Nat → Byte
  rpos : Nat
  wpos : Nat

def Cons.init : Cons := ⟨fun _ => 0, 0, 0⟩

namespace Cons

def store (s : Cons) (c : Byte) : Cons :=
  let s := { s with
    buf := Function.update s.buf s.wpos c
    wpos := s.wpos + 1 }
  if s.wpos = consbufsize then { s with wpos := 0 } else s

/-- `cons_intr`; `burst` is what `proc` returns before it returns -1. -/
def consIntr : Cons → List Byte → Cons
  | s, [] => s
  | s, c :: burst => if c = 0 then consIntr s burst else consIntr (s.store c) burst

def consGetc (serialExists : Bool) (s : Cons) (serial kbd : List Byte) : Byte × Cons :=
  let s := if serialExists then consIntr s serial else s
  let s := consIntr s kbd
  if s.rpos ≠ s.wpos then
    let c := s.buf s.rpos
    let s := { s with rpos := s.rpos + 1 }
    (c, if s.rpos = consbufsize then { s with rpos := 0 } else s)
  else (0, s)

end Cons

/-! ## The output devices -/

def comTx : BitVec 16 := 0x3F8
def comLsr : BitVec 16 := 0x3F8 + 5
def comLsrTxrdy : Byte := 0x20

def lptData : BitVec 16 := 0x378

def crtCols : BitVec 16 := 80
def crtSize : BitVec 16 := 25 * crtCols

structure Console where
  dev : BitVec 16 → Nat → Byte
  reads : Nat
  out : List (BitVec 16 × Byte)
  mono : Bool
  crtBuf : Nat → BitVec 16
  crtPos : BitVec 16

namespace Console

def addr6845 (s : Console) : BitVec 16 := if s.mono then 0x3B4 else 0x3D4

def inb (port : BitVec 16) (s : Console) : Byte × Console := (s.dev port s.reads, { s with reads := s.reads + 1 })

def outb (port : BitVec 16) (c : Word) (s : Console) : Console := { s with out := s.out ++ [(port, c.setWidth 8)] }

def delay (s : Console) : Console := (inb 0x84 (inb 0x84 (inb 0x84 (inb 0x84 s).2).2).2).2

/-- `for (i = 0; !(inb(port) & mask) && i < 12800; i++) delay();`, with `n` turns left. -/
def waitFor (port : BitVec 16) (mask : Byte) : Nat → Console → Console
  | 0, s => (inb port s).2
  | n + 1, s =>
    let (v, s) := inb port s
    if v &&& mask ≠ 0 then s else waitFor port mask n (delay s)

def serialPutc (c : Word) (s : Console) : Console := outb comTx c (waitFor comLsr comLsrTxrdy 12800 s)

def lptPutc (c : Word) (s : Console) : Console :=
  let s := waitFor (lptData + 1) 0x80 12800 s
  let s := outb lptData c s
  let s := outb (lptData + 2) (0x08 ||| 0x04 ||| 0x01) s
  outb (lptData + 2) 0x08 s

def putCrt (c : Word) (s : Console) : Console :=
  { s with crtBuf := Function.update s.crtBuf s.crtPos.toNat (c.setWidth 16) }

def scroll (s : Console) : Console :=
  if s.crtPos ≥ crtSize then
    let keep := crtSize.toNat - crtCols.toNat
    { s with
      crtBuf := fun i =>
        if i < keep then s.crtBuf (i + crtCols.toNat)
        else if i < crtSize.toNat then 0x0700 ||| 0x20
        else s.crtBuf i
      crtPos := s.crtPos - crtCols }
  else s

def setCursor (s : Console) : Console :=
  let s := outb s.addr6845 14 s
  let s := outb (s.addr6845 + 1) ((s.crtPos >>> 8).setWidth 32) s
  let s := outb s.addr6845 15 s
  outb (s.addr6845 + 1) (s.crtPos.setWidth 32) s

/-- `cga_putc`, where `cons` is the `cons_putc` that it calls for the blanks of a tab. -/
def cgaPutcWith (cons : Word → Console → Console) (c : Word) (s : Console) : Console :=
  let c := if c &&& ~~~0xFF = 0 then c ||| 0x0700 else c
  let ch := c &&& 0xFF
  let s :=
    if ch = 0x08 then
      if s.crtPos > 0 then putCrt ((c &&& ~~~0xFF) ||| 0x20) { s with crtPos := s.crtPos - 1 } else s
    else if ch = 0x0A then
      let s := { s with crtPos := s.crtPos + crtCols }
      { s with crtPos := s.crtPos - s.crtPos % crtCols }
    else if ch = 0x0D then { s with crtPos := s.crtPos - s.crtPos % crtCols }
    else if ch = 0x09 then cons 0x20 (cons 0x20 (cons 0x20 (cons 0x20 (cons 0x20 s))))
    else
      let s := putCrt c s
      { s with crtPos := s.crtPos + 1 }
  setCursor (scroll s)

def consPutcBlank (c : Word) (s : Console) : Console := cgaPutcWith (fun _ s => s) c (lptPutc c (serialPutc c s))

def cgaPutc (c : Word) (s : Console) : Console := cgaPutcWith consPutcBlank c s

def consPutc (c : Word) (s : Console) : Console := cgaPutc c (lptPutc c (serialPutc c s))

def cputchar (c : Word) (s : Console) : Console := consPutc c s

theorem cgaPutcWith_congr {f g : Word → Console → Console} (h : ∀ s, f 0x20 s = g 0x20 s) (c : Word) (s : Console) :
    cgaPutcWith f c s = cgaPutcWith g c s := by
  unfold cgaPutcWith
  simp only [h]

theorem cgaPutc_eq (c : Word) (s : Console) : cgaPutc c s = cgaPutcWith consPutc c s := by
  refine cgaPutcWith_congr (fun t => ?_) c s
  rw [consPutcBlank, consPutc, cgaPutc]
  have h : ∀ (f : Word → Console → Console) (u : Console), cgaPutcWith f 0x20 u =
      setCursor (scroll (let u := putCrt 0x0720 u; { u with crtPos := u.crtPos + 1 })) := fun f u => rfl
  rw [h, h]

end Console

end Jos
