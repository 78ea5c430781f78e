import Jos.BootMain
import Jos.Access

/-!
# The disk driver of `boot/main.c`

`readseg` down to the ports of the drive. After a command the drive is busy for some
reads of its status, and what is written to it then is lost.
-/

namespace Jos.Boot.Ide

open Access

structure Drive where
  disk : Disk
  lag : Nat → Nat
  commands : Nat
  busy : Nat
  count : Byte
  lba0 : Byte
  lba1 : Byte
  lba2 : Byte
  device : Byte
  data : List Byte

namespace Drive

def lba (d : Drive) : Nat :=
  d.lba0.toNat + 2 ^ 8 * d.lba1.toNat + 2 ^ 16 * d.lba2.toNat + 2 ^ 24 * (d.device &&& 0x0F).toNat

def sectors (d : Drive) : List Byte :=
  (List.range (512 * if d.count = 0 then 256 else d.count.toNat)).map fun k => d.disk (512 * d.lba + k)

/-- Command 0x20 reads sectors; the first drive takes it, with the sector's number as a whole. -/
def command (v : Byte) (d : Drive) : Drive :=
  if v = 0x20 ∧ d.device &&& 0xF0 = 0xE0 then
    { d with
      data := d.sectors
      busy := d.lag d.commands
      commands := d.commands + 1 }
  else d

end Drive

def outb (port : BitVec 16) (v : Byte) (d : Drive) : Drive :=
  if 0 < d.busy then d
  else if port = 0x1F2 then { d with count := v }
  else if port = 0x1F3 then { d with lba0 := v }
  else if port = 0x1F4 then { d with lba1 := v }
  else if port = 0x1F5 then { d with lba2 := v }
  else if port = 0x1F6 then { d with device := v }
  else if port = 0x1F7 then d.command v
  else d

def inb (port : BitVec 16) (d : Drive) : Byte × Drive :=
  if port = 0x1F7 then
    if 0 < d.busy then (0x80, { d with busy := d.busy - 1 })
    else (if d.data.isEmpty then 0x40 else 0x48, d)
  else (0xFF, d)

def inl (port : BitVec 16) (d : Drive) : List Byte × Drive :=
  if port = 0x1F0 ∧ d.busy = 0 ∧ 4 ≤ d.data.length then (d.data.take 4, { d with data := d.data.drop 4 })
  else (List.replicate 4 0xFF, d)

def insl (port : BitVec 16) : Nat → Word → Drive → Ram → Drive × Ram
  | 0, _, d, ram => (d, ram)
  | cnt + 1, addr, d, ram =>
    let (bs, d) := inl port d
    insl port cnt (addr + 4) d fun a => if (a - addr).toNat < 4 then bs.getD (a - addr).toNat 0xFF else ram a

/-! ## The driver -/

def waitdisk : Nat → Drive → Except Fault Drive
  | 0, _ => .error .fuel
  | n + 1, d =>
    let (v, d) := inb 0x1F7 d
    if v &&& 0xC0 ≠ 0x40 then waitdisk n d else .ok d

def readsect (n : Nat) (dst offset : Word) (d : Drive) (ram : Ram) : Except Fault (Drive × Ram) := do
  let d ← waitdisk n d
  let d := outb 0x1F2 1 d
  let d := outb 0x1F3 (offset.setWidth 8) d
  let d := outb 0x1F4 ((offset >>> 8).setWidth 8) d
  let d := outb 0x1F5 ((offset >>> 16).setWidth 8) d
  let d := outb 0x1F6 ((offset >>> 24 ||| 0xE0).setWidth 8) d
  let d := outb 0x1F7 0x20 d
  let d ← waitdisk n d
  .ok (insl 0x1F0 (sectsize / 4).toNat dst d ram)

def readsegLoop : Nat → Word → Word → Word → Drive → Ram → Except Fault (Drive × Ram)
  | 0, _, _, _, _, _ => .error .fuel
  | n + 1, pa, endPa, offset, d, ram =>
    if pa < endPa then do
      let (d, ram) ← readsect n pa offset d ram
      readsegLoop n (pa + sectsize) endPa (offset + 1) d ram
    else .ok (d, ram)

def readseg (n : Nat) (pa count offset : Word) (d : Drive) (ram : Ram) : Except Fault (Drive × Ram) :=
  let endPa := pa + count
  let pa := pa &&& ~~~(sectsize - 1)
  let offset := offset / sectsize + 1
  readsegLoop n pa endPa offset d ram

end Jos.Boot.Ide
