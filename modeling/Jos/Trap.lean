import Jos.Env
import Jos.Readline

/-!
# `print_trapframe`

A trap frame is printed with the address `tf` at which it lies. For the last frame, whose
address is in `last_tf`, a page fault's address is still in `%cr2`.
-/

namespace Jos

open Access
open Readline (cprintf)

def tPgflt : Word := 14
def tSyscall : Word := 48

def excnames : List CStr :=
  [.lit "Divide error", .lit "Debug", .lit "Non-Maskable Interrupt", .lit "Breakpoint", .lit "Overflow",
    .lit "BOUND Range Exceeded", .lit "Invalid Opcode", .lit "Device Not Available", .lit "Double Fault",
    .lit "Coprocessor Segment Overrun", .lit "Invalid TSS", .lit "Segment Not Present", .lit "Stack Fault",
    .lit "General Protection", .lit "Page Fault", .lit "(unknown trap)", .lit "x87 FPU Floating-Point Error",
    .lit "Alignment Check", .lit "Machine-Check", .lit "SIMD Floating-Point Exception"]

def trapname (trapno : Word) : CStr :=
  if trapno.toNat < excnames.length then excnames.getD trapno.toNat (.lit "(unknown trap)")
  else if trapno = tSyscall then .lit "System call"
  else .lit "(unknown trap)"

def printRegs (regs : PushRegs) (cons : Console) : Except Fault Console := do
  let cons ← cprintf (.lit "  edi  0x%08x\n") [.int regs.regEdi] cons
  let cons ← cprintf (.lit "  esi  0x%08x\n") [.int regs.regEsi] cons
  let cons ← cprintf (.lit "  ebp  0x%08x\n") [.int regs.regEbp] cons
  let cons ← cprintf (.lit "  oesp 0x%08x\n") [.int regs.regOesp] cons
  let cons ← cprintf (.lit "  ebx  0x%08x\n") [.int regs.regEbx] cons
  let cons ← cprintf (.lit "  edx  0x%08x\n") [.int regs.regEdx] cons
  let cons ← cprintf (.lit "  ecx  0x%08x\n") [.int regs.regEcx] cons
  cprintf (.lit "  eax  0x%08x\n") [.int regs.regEax] cons

def printErr (err : Word) (cons : Console) : Except Fault Console :=
  cprintf (.lit " [%s, %s, %s]\n")
    [.str (some (if err &&& 4 ≠ 0 then .lit "user" else .lit "kernel")),
      .str (some (if err &&& 2 ≠ 0 then .lit "write" else .lit "read")),
      .str (some (if err &&& 1 ≠ 0 then .lit "protection" else .lit "not-present"))] cons

def printTrapframe (tfp lastTf cr2 : Word) (tf : Trapframe) (cons : Console) : Except Fault Console := do
  let cons ← cprintf (.lit "TRAP frame at %p\n") [.ptr tfp] cons
  let cons ← printRegs tf.tfRegs cons
  let cons ← cprintf (.lit "  es   0x----%04x\n") [.int (tf.tfEs.setWidth 32)] cons
  let cons ← cprintf (.lit "  ds   0x----%04x\n") [.int (tf.tfDs.setWidth 32)] cons
  let cons ← cprintf (.lit "  trap 0x%08x %s\n") [.int tf.tfTrapno, .str (some (trapname tf.tfTrapno))] cons
  let cons ← if tfp = lastTf ∧ tf.tfTrapno = tPgflt then cprintf (.lit "  cr2  0x%08x\n") [.int cr2] cons else .ok cons
  let cons ← cprintf (.lit "  err  0x%08x") [.int tf.tfErr] cons
  let cons ← if tf.tfTrapno = tPgflt then printErr tf.tfErr cons else cprintf (.lit "\n") [] cons
  let cons ← cprintf (.lit "  eip  0x%08x\n") [.int tf.tfEip] cons
  let cons ← cprintf (.lit "  cs   0x----%04x\n") [.int (tf.tfCs.setWidth 32)] cons
  let cons ← cprintf (.lit "  flag 0x%08x\n") [.int tf.tfEflags] cons
  if tf.tfCs &&& 3 ≠ 0 then do
    let cons ← cprintf (.lit "  esp  0x%08x\n") [.int tf.tfEsp] cons
    cprintf (.lit "  ss   0x----%04x\n") [.int (tf.tfSs.setWidth 32)] cons
  else .ok cons

end Jos
