import Jos.Parts
import Jos.Trap

/-!
# What `print_trapframe` prints
-/

namespace Jos

open Access Numeral
open Readline (cprintf)

def regLine (name : CStr) (k : Nat) (v : Word) : List Byte := name.bytes ++ hexField k v ++ [chr '\n']

theorem cprintf_reg {fmt : CStr} (name : CStr) (k : Nat) (h0 : k ≠ 0) (hk : k < 10) (hname : chr '%' ∉ name.bytes)
    (hf : fmt.bytes = name.bytes ++ ([chr '%', chr '0', digitChar k, chr 'x'] ++ [chr '\n'])) (v : Word) (cons : Console) :
    cprintf fmt [.int v] cons = .ok (Console.puts (words (regLine name k v)) cons) := by
  have h := cprintf_parts [.text name.bytes hname, .zeroHex k h0 hk v, .text [chr '\n'] (by decide)] hf
    (show [Arg.int v] = [] ++ ([.int v] ++ ([] ++ [])) from rfl) cons
  rw [regLine, words, List.map_append, List.map_append, List.append_assoc]
  exact h

def regsText (regs : PushRegs) : List Byte :=
  regLine (.lit "  edi  0x") 8 regs.regEdi ++ regLine (.lit "  esi  0x") 8 regs.regEsi ++
    regLine (.lit "  ebp  0x") 8 regs.regEbp ++ regLine (.lit "  oesp 0x") 8 regs.regOesp ++
    regLine (.lit "  ebx  0x") 8 regs.regEbx ++ regLine (.lit "  edx  0x") 8 regs.regEdx ++
    regLine (.lit "  ecx  0x") 8 regs.regEcx ++ regLine (.lit "  eax  0x") 8 regs.regEax

theorem cprintf_reg8 {fmt : CStr} (name : CStr) (hname : chr '%' ∉ name.bytes)
    (hf : fmt.bytes = name.bytes ++ ([chr '%', chr '0', digitChar 8, chr 'x'] ++ [chr '\n'])) (v : Word) (cons : Console) :
    cprintf fmt [.int v] cons = .ok (Console.puts (words (regLine name 8 v)) cons) :=
  cprintf_reg name 8 (by decide) (by decide) hname hf v cons

theorem cprintf_reg4 {fmt : CStr} (name : CStr) (hname : chr '%' ∉ name.bytes)
    (hf : fmt.bytes = name.bytes ++ ([chr '%', chr '0', digitChar 4, chr 'x'] ++ [chr '\n'])) (v : BitVec 16) (cons : Console) :
    cprintf fmt [.int (v.setWidth 32)] cons = .ok (Console.puts (words (regLine name 4 (v.setWidth 32))) cons) :=
  cprintf_reg name 4 (by decide) (by decide) hname hf _ cons

theorem printRegs_eq (regs : PushRegs) (cons : Console) :
    printRegs regs cons = .ok (Console.puts (words (regsText regs)) cons) := by
  rw [printRegs, cprintf_reg8 (.lit "  edi  0x") (by decide) rfl, ok_then, cprintf_reg8 (.lit "  esi  0x") (by decide) rfl, ok_then,
    cprintf_reg8 (.lit "  ebp  0x") (by decide) rfl, ok_then, cprintf_reg8 (.lit "  oesp 0x") (by decide) rfl, ok_then,
    cprintf_reg8 (.lit "  ebx  0x") (by decide) rfl, ok_then, cprintf_reg8 (.lit "  edx  0x") (by decide) rfl, ok_then,
    cprintf_reg8 (.lit "  ecx  0x") (by decide) rfl, ok_then, cprintf_reg8 (.lit "  eax  0x") (by decide) rfl]
  simp only [puts_append, regsText, words, List.map_append, List.append_assoc]

/-! ## The frame -/

def trapTexts : List CStr :=
  excnames ++ [.lit "System call", .lit "(unknown trap)", .lit "user", .lit "kernel", .lit "write", .lit "read", .lit "protection",
    .lit "not-present"]

theorem trapTexts_short : ∀ s ∈ trapTexts, s.bytes.length < 2 ^ 31 := by decide +kernel

theorem trapTexts_shown : ∀ s ∈ trapTexts, s.bytes.map (shown false) = words s.bytes := by decide +kernel

theorem trapname_mem (trapno : Word) : trapname trapno ∈ trapTexts := by
  unfold trapname
  split
  · next h =>
    rw [List.getD_eq_getElem?_getD, List.getElem?_eq_getElem h, Option.getD_some]
    exact List.mem_append_left _ (List.getElem_mem h)
  · split <;> simp [trapTexts]

def Part.trapText (s : CStr) (hs : s ∈ trapTexts) : Part := .str s (trapTexts_short s hs)

theorem cprintf_trap (trapno : Word) (cons : Console) :
    cprintf (.lit "  trap 0x%08x %s\n") [.int trapno, .str (some (trapname trapno))] cons =
      .ok (Console.puts (words ((CStr.lit "  trap 0x").bytes ++ hexField 8 trapno ++ [chr ' '] ++ (trapname trapno).bytes ++
        [chr '\n'])) cons) := by
  refine (cprintf_parts [.text (CStr.lit "  trap 0x").bytes (by decide), .zeroHex 8 (by decide) (by decide) trapno,
    .text [chr ' '] (by decide), .trapText _ (trapname_mem trapno), .text [chr '\n'] (by decide)] rfl rfl cons).trans ?_
  refine congrArg (fun out => Except.ok (Console.puts out cons)) ?_
  have hs := trapTexts_shown _ (trapname_mem trapno)
  simp only [words, List.map_append, List.flatMap_cons, List.flatMap_nil, List.append_nil, List.append_assoc] at hs ⊢
  rw [← hs]
  rfl

def errText (err : Word) : List Byte :=
  (CStr.lit " [").bytes ++ (if err &&& 4 ≠ 0 then CStr.lit "user" else .lit "kernel").bytes ++ [chr ',', chr ' '] ++
    (if err &&& 2 ≠ 0 then CStr.lit "write" else .lit "read").bytes ++ [chr ',', chr ' '] ++
    (if err &&& 1 ≠ 0 then CStr.lit "protection" else .lit "not-present").bytes ++ (CStr.lit "]\n").bytes

theorem printErr_eq (err : Word) (cons : Console) : printErr err cons = .ok (Console.puts (words (errText err)) cons) := by
  have h4 : (if err &&& 4 ≠ 0 then CStr.lit "user" else .lit "kernel") ∈ trapTexts := by split <;> simp [trapTexts]
  have h2 : (if err &&& 2 ≠ 0 then CStr.lit "write" else .lit "read") ∈ trapTexts := by split <;> simp [trapTexts]
  have h1 : (if err &&& 1 ≠ 0 then CStr.lit "protection" else .lit "not-present") ∈ trapTexts := by split <;> simp [trapTexts]
  have hs4 := trapTexts_shown _ h4
  have hs2 := trapTexts_shown _ h2
  have hs1 := trapTexts_shown _ h1
  unfold printErr errText
  generalize (if err &&& 4 ≠ 0 then CStr.lit "user" else .lit "kernel") = t4 at *
  generalize (if err &&& 2 ≠ 0 then CStr.lit "write" else .lit "read") = t2 at *
  generalize (if err &&& 1 ≠ 0 then CStr.lit "protection" else .lit "not-present") = t1 at *
  refine (cprintf_parts [.text (CStr.lit " [").bytes (by decide), .trapText t4 h4, .text [chr ',', chr ' '] (by decide),
    .trapText t2 h2, .text [chr ',', chr ' '] (by decide), .trapText t1 h1, .text (CStr.lit "]\n").bytes (by decide)] rfl rfl cons).trans ?_
  refine congrArg (fun out => Except.ok (Console.puts out cons)) ?_
  simp only [words, List.map_append, List.flatMap_cons, List.flatMap_nil, List.append_nil, List.append_assoc] at hs4 hs2 hs1 ⊢
  rw [← hs4, ← hs2, ← hs1]
  rfl

def trapframeText (tfp lastTf cr2 : Word) (tf : Trapframe) : List Byte :=
  (CStr.lit "TRAP frame at 0x").bytes ++ numeral 16 tfp.toNat ++ [chr '\n'] ++ regsText tf.tfRegs ++
    regLine (.lit "  es   0x----") 4 (tf.tfEs.setWidth 32) ++ regLine (.lit "  ds   0x----") 4 (tf.tfDs.setWidth 32) ++
    ((CStr.lit "  trap 0x").bytes ++ hexField 8 tf.tfTrapno ++ [chr ' '] ++ (trapname tf.tfTrapno).bytes ++ [chr '\n']) ++
    (if tfp = lastTf ∧ tf.tfTrapno = tPgflt then regLine (.lit "  cr2  0x") 8 cr2 else []) ++
    ((CStr.lit "  err  0x").bytes ++ hexField 8 tf.tfErr) ++
    (if tf.tfTrapno = tPgflt then errText tf.tfErr else [chr '\n']) ++ regLine (.lit "  eip  0x") 8 tf.tfEip ++
    regLine (.lit "  cs   0x----") 4 (tf.tfCs.setWidth 32) ++ regLine (.lit "  flag 0x") 8 tf.tfEflags ++
    if tf.tfCs &&& 3 ≠ 0 then regLine (.lit "  esp  0x") 8 tf.tfEsp ++ regLine (.lit "  ss   0x----") 4 (tf.tfSs.setWidth 32)
    else []

theorem cprintf_at (tfp : Word) (cons : Console) :
    cprintf (.lit "TRAP frame at %p\n") [.ptr tfp] cons =
      .ok (Console.puts (words ((CStr.lit "TRAP frame at 0x").bytes ++ numeral 16 tfp.toNat ++ [chr '\n'])) cons) := by
  refine (cprintf_parts [.text (CStr.lit "TRAP frame at ").bytes (by decide), .pointer tfp, .text [chr '\n'] (by decide)]
    rfl rfl cons).trans ?_
  refine congrArg (fun out => Except.ok (Console.puts out cons)) ?_
  simp only [words, List.map_append, List.flatMap_cons, List.flatMap_nil, List.append_nil, List.append_assoc]
  rfl

theorem cprintf_err (err : Word) (cons : Console) :
    cprintf (.lit "  err  0x%08x") [.int err] cons =
      .ok (Console.puts (words ((CStr.lit "  err  0x").bytes ++ hexField 8 err)) cons) := by
  refine (cprintf_parts [.text (CStr.lit "  err  0x").bytes (by decide), .zeroHex 8 (by decide) (by decide) err] rfl rfl cons).trans ?_
  refine congrArg (fun out => Except.ok (Console.puts out cons)) ?_
  simp only [words, List.map_append, List.flatMap_cons, List.flatMap_nil, List.append_nil]
  rfl

theorem ite_then {c : Prop} [Decidable c] (a b : Except Fault Console) (f : Console → Except Fault Console) :
    (if c then a >>= f else b >>= f) = ((if c then a else b) >>= f) := by
  split <;> rfl

section
variable (tfp lastTf cr2 : Word) (tf : Trapframe) (cons : Console)

theorem print_cr2 : (if tfp = lastTf ∧ tf.tfTrapno = tPgflt then cprintf (.lit "  cr2  0x%08x\n") [.int cr2] cons else .ok cons) =
    .ok (Console.puts (words (if tfp = lastTf ∧ tf.tfTrapno = tPgflt then regLine (.lit "  cr2  0x") 8 cr2 else [])) cons) := by
  split
  · exact cprintf_reg8 (.lit "  cr2  0x") (by decide) rfl cr2 cons
  · rfl

theorem print_err_text : (if tf.tfTrapno = tPgflt then printErr tf.tfErr cons else cprintf (.lit "\n") [] cons) =
    .ok (Console.puts (words (if tf.tfTrapno = tPgflt then errText tf.tfErr else [chr '\n'])) cons) := by
  split
  · exact printErr_eq tf.tfErr cons
  · exact cprintf_text (by decide) [] cons

theorem printTrapframe_eq :
    printTrapframe tfp lastTf cr2 tf cons = .ok (Console.puts (words (trapframeText tfp lastTf cr2 tf)) cons) := by
  rw [printTrapframe, cprintf_at, ok_then, printRegs_eq, ok_then, cprintf_reg4 (.lit "  es   0x----") (by decide) rfl, ok_then,
    cprintf_reg4 (.lit "  ds   0x----") (by decide) rfl, ok_then, cprintf_trap, ok_then]
  dsimp only
  rw [ite_then, print_cr2, ok_then, cprintf_err, ok_then, ite_then, print_err_text, ok_then,
    cprintf_reg8 (.lit "  eip  0x") (by decide) rfl, ok_then, cprintf_reg4 (.lit "  cs   0x----") (by decide) rfl, ok_then,
    cprintf_reg8 (.lit "  flag 0x") (by decide) rfl, ok_then, trapframeText]
  split
  · rw [cprintf_reg8 (.lit "  esp  0x") (by decide) rfl, ok_then, cprintf_reg4 (.lit "  ss   0x----") (by decide) rfl]
    simp only [puts_append, words, List.map_append, List.append_assoc]
  · simp only [puts_append, words, List.map_append, List.append_assoc, List.append_nil]

end

end Jos
