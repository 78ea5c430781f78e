import Jos.Mmu

/-!
# `boot/main.c`

The disk is an array of bytes that `readsect` copies by sectors; the kernel
image is the file that starts at sector 1. The loops take a bound on their turns
and are `none` when it does not suffice.
-/

namespace Jos.Boot

abbrev Disk := Nat → Byte

abbrev Ram := Word → Byte

def sectsize : Word := 512

def elfhdr : Word := 0x10000

/-! ## Reading the disk -/

def readsect (disk : Disk) (dst offset : Word) (ram : Ram) : Ram := fun a =>
  if (a - dst).toNat < 512 then disk (512 * offset.toNat + (a - dst).toNat) else ram a

def readsegLoop (disk : Disk) : Nat → Word → Word → Word → Ram → Option Ram
  | 0, _, _, _, _ => none
  | n + 1, pa, endPa, offset, ram =>
    if pa < endPa then readsegLoop disk n (pa + sectsize) endPa (offset + 1) (readsect disk pa offset ram)
    else some ram

def readseg (disk : Disk) (n : Nat) (pa count offset : Word) (ram : Ram) : Option Ram :=
  let endPa := pa + count
  let pa := pa &&& ~~~(sectsize - 1)
  let offset := offset / sectsize + 1
  readsegLoop disk n pa endPa offset ram

/-! ## The headers -/

def ld16 (ram : Ram) (a : Word) : BitVec 16 := ram (a + 1) ++ ram a

def ld32 (ram : Ram) (a : Word) : Word := ram (a + 3) ++ ram (a + 2) ++ ram (a + 1) ++ ram a

def elfMagic : Word := 0x464C457F

structure Elf where
  magic : Word
  entry : Word
  phoff : Word
  phnum : BitVec 16

def elf (ram : Ram) (a : Word) : Elf := ⟨ld32 ram a, ld32 ram (a + 24), ld32 ram (a + 28), ld16 ram (a + 44)⟩

structure Proghdr where
  offset : Word
  pa : Word
  filesz : Word
  memsz : Word

def proghdr (ram : Ram) (ph : Word) : Proghdr :=
  ⟨ld32 ram (ph + 4), ld32 ram (ph + 12), ld32 ram (ph + 16), ld32 ram (ph + 20)⟩

/-! ## `bootmain` -/

/-- The loop over the program headers, which are read where `ELFHDR` was loaded. -/
def loadLoop (disk : Disk) (n : Nat) : Nat → Word → Word → Ram → Option Ram
  | 0, _, _, _ => none
  | k + 1, ph, eph, ram =>
    if ph < eph then
      let p := proghdr ram ph
      (readseg disk n p.pa p.memsz p.offset ram).bind (loadLoop disk n k (ph + 32) eph)
    else some ram

inductive Outcome where
  | jump (entry : Word) (ram : Ram)
  | bad

def bootmain (disk : Disk) (n : Nat) (ram : Ram) : Option Outcome :=
  (readseg disk n elfhdr (sectsize * 8) 0 ram).bind fun ram =>
    if (elf ram elfhdr).magic ≠ elfMagic then some .bad
    else
      let ph := elfhdr + (elf ram elfhdr).phoff
      let eph := ph + (elf ram elfhdr).phnum.setWidth 32 * 32
      (loadLoop disk n n ph eph ram).map fun ram => .jump (elf ram elfhdr).entry ram

end Jos.Boot
