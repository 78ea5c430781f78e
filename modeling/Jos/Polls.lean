import Jos.ConsSound
import Jos.Kbd

/-!
# Polling the devices

What `cons_getc` gets when it polls: the serial port has its bytes, and the keyboard
what `kbd_proc_data` makes of the codes, with the `shift` that it keeps between the
calls. A poll comes with what the ports have to read in it.
-/

namespace Jos

/-- What `kbd_proc_data` returns until it has no data, and `shift` after that. `none` is the reset of the machine. -/
def Kbd.burst : List Byte → Word → Option (List Byte × Word)
  | [], shift => some ([], shift)
  | b :: bs, shift =>
    let p := kbdProcData kbsDib b shift
    if p.reboot then none
    else do
      let (chars, shift) ← burst bs p.shift
      some (p.ret.setWidth 8 :: chars, shift)

structure Port where
  cons : Cons
  shift : Word

def Port.init : Port := ⟨Cons.init, 0⟩

structure Poll where
  serial : List Byte
  codes : List Byte

namespace Port

variable (serialExists : Bool)

def consGetc (x : Port) (p : Poll) : Option (Byte × Port) := do
  let (chars, shift) ← Kbd.burst p.codes x.shift
  let (c, cons) := x.cons.consGetc serialExists p.serial chars
  some (c, ⟨cons, shift⟩)

def polls : Port → List Poll → Option (List Word × Port)
  | x, [] => some ([], x)
  | x, p :: ps => do
    let (c, x) ← consGetc serialExists x p
    let (calls, x) ← polls x ps
    some (c.setWidth 32 :: calls, x)

end Port

end Jos
