import Jos.Printfmt

/-!
# The keyboard of `kern/console.c`

`kbd_proc_data` with its tables. What the two ports read when it reads them are its
arguments.
-/

namespace Jos.Kbd

def kbsDib : Byte := 0x01
def kbsTerr : Byte := 0x20

def keyHome : Byte := 0xE0
def keyEnd : Byte := 0xE1
def keyUp : Byte := 0xE2
def keyDn : Byte := 0xE3
def keyLf : Byte := 0xE4
def keyRt : Byte := 0xE5
def keyPgup : Byte := 0xE6
def keyPgdn : Byte := 0xE7
def keyIns : Byte := 0xE8
def keyDel : Byte := 0xE9

def no : Byte := 0

def SHIFT : Word := 1 <<< 0
def CTL : Word := 1 <<< 1
def ALT : Word := 1 <<< 2
def CAPSLOCK : Word := 1 <<< 3
def NUMLOCK : Word := 1 <<< 4
def SCROLLLOCK : Word := 1 <<< 5
def E0ESC : Word := 1 <<< 6

/-! ## The tables -/

/-- An array with its first elements in order and the designated ones; the others are 0. -/
def table {α : Type} [OfNat α 0] (elems : List α) (designated : List (Byte × α)) (i : Byte) : α :=
  (designated.lookup i).getD (elems.getD i.toNat 0)

def shiftcode : Byte → Word :=
  table [] [(0x1D, CTL), (0x2A, SHIFT), (0x36, SHIFT), (0x38, ALT), (0x9D, CTL), (0xB8, ALT)]

def togglecode : Byte → Word := table [] [(0x3A, CAPSLOCK), (0x45, NUMLOCK), (0x46, SCROLLLOCK)]

def keys (s : String) : List Byte := s.toList.map chr

def normalmap : Byte → Byte :=
  table ([no, 0x1B] ++ keys "1234567890-=\x08\tqwertyuiop[]\n" ++ [no] ++ keys "asdfghjkl;'\x60" ++ [no] ++
      keys "\\zxcvbnm,./" ++ [no] ++ keys "*" ++ [no] ++ keys " " ++ List.replicate 13 no ++ keys "789-456+1230." ++ List.replicate 4 no)
    [(0xC7, keyHome), (0x9C, chr '\n'), (0xB5, chr '/'), (0xC8, keyUp), (0xC9, keyPgup), (0xCB, keyLf), (0xCD, keyRt),
      (0xCF, keyEnd), (0xD0, keyDn), (0xD1, keyPgdn), (0xD2, keyIns), (0xD3, keyDel)]

def shiftmap : Byte → Byte :=
  table ([no, 0x1B] ++ keys "!@#$%^&*()_+\x08\tQWERTYUIOP\x7b\x7d\n" ++ [no] ++ keys "ASDFGHJKL:\"~" ++ [no] ++
      keys "|ZXCVBNM<>?" ++ [no] ++ keys "*" ++ [no] ++ keys " " ++ List.replicate 13 no ++ keys "789-456+1230." ++
      List.replicate 4 no)
    [(0xC7, keyHome), (0x9C, chr '\n'), (0xB5, chr '/'), (0xC8, keyUp), (0xC9, keyPgup), (0xCB, keyLf), (0xCD, keyRt),
      (0xCF, keyEnd), (0xD0, keyDn), (0xD1, keyPgdn), (0xD2, keyIns), (0xD3, keyDel)]

def ctl (x : Char) : Byte := chr x - chr '@'

def ctls (s : String) : List Byte := s.toList.map ctl

def ctlmap : Byte → Byte :=
  table (List.replicate 16 no ++ ctls "QWERTYUIOP" ++ [no, no, chr '\r', no] ++ ctls "ASDFGHJKL" ++ [no, no, no, no] ++
      ctls "\\ZXCVBNM" ++ [no, no] ++ ctls "/" ++ [no, no])
    [(0x97, keyHome), (0xB5, ctl '/'), (0xC8, keyUp), (0xC9, keyPgup), (0xCB, keyLf), (0xCD, keyRt), (0xCF, keyEnd),
      (0xD0, keyDn), (0xD1, keyPgdn), (0xD2, keyIns), (0xD3, keyDel)]

def charcode (i : Word) : Byte → Byte := if i = 0 then normalmap else if i = 1 then shiftmap else ctlmap

/-! ## `kbd_proc_data` -/

structure Proc where
  ret : Word
  shift : Word
  /-- It printed "Rebooting!" and reset the machine. -/
  reboot : Bool

def swapCase (c : Word) : Word :=
  if (0x61 : Word).sle c ∧ c.sle 0x7A then c + (0x41 - 0x61)
  else if (0x41 : Word).sle c ∧ c.sle 0x5A then c + (0x61 - 0x41)
  else c

def pressed (data : Byte) (shift : Word) : Proc :=
  let shift := shift ||| shiftcode data
  let shift := shift ^^^ togglecode data
  let c := (charcode (shift &&& (CTL ||| SHIFT)) data).setWidth 32
  let c := if shift &&& CAPSLOCK ≠ 0 then swapCase c else c
  ⟨c, shift, ~~~shift &&& (CTL ||| ALT) = 0 ∧ c = keyDel.setWidth 32⟩

def kbdProcData (stat data : Byte) (shift : Word) : Proc :=
  if stat &&& kbsDib = 0 then ⟨-1, shift, false⟩
  else if stat &&& kbsTerr ≠ 0 then ⟨-1, shift, false⟩
  else if data = 0xE0 then ⟨0, shift ||| E0ESC, false⟩
  else if data &&& 0x80 ≠ 0 then
    let data := if shift &&& E0ESC ≠ 0 then data else data &&& 0x7F
    ⟨0, shift &&& ~~~(shiftcode data ||| E0ESC), false⟩
  else if shift &&& E0ESC ≠ 0 then pressed (data ||| 0x80) (shift &&& ~~~E0ESC)
  else pressed data shift

end Jos.Kbd
