import Jos.Pmap

/-!
# `kern/env.c`

The environment table and its free list, `envid2env`, `env_alloc` and
`env_free`. An environment is its index in `envs`. `env_setup_vm` stands in the
source as an exercise: what it is to do between taking a page and entering
`UVPT` is the parameter `lab3`, which gives `e->env_pgdir` and the memory it
leaves.
-/

namespace Jos

def logNenv : Nat := 10
def nenv : Nat := 1 <<< logNenv
def envgenshift : Nat := 12

def envx (envid : Word) : Nat := (envid &&& (BitVec.ofNat 32 nenv - 1)).toNat

def eBadEnv : Int := 2
def eNoFreeEnv : Int := 5

def gdUt : BitVec 16 := 0x18
def gdUd : BitVec 16 := 0x20

structure PushRegs where
  regEdi : Word
  regEsi : Word
  regEbp : Word
  regOesp : Word
  regEbx : Word
  regEdx : Word
  regEcx : Word
  regEax : Word
  deriving DecidableEq, Repr

structure Trapframe where
  tfRegs : PushRegs
  tfEs : BitVec 16
  tfDs : BitVec 16
  tfTrapno : Word
  tfErr : Word
  tfEip : Word
  tfCs : BitVec 16
  tfEflags : Word
  tfEsp : Word
  tfSs : BitVec 16
  deriving DecidableEq, Repr

def Trapframe.zero : Trapframe := ⟨⟨0, 0, 0, 0, 0, 0, 0, 0⟩, 0, 0, 0, 0, 0, 0, 0, 0, 0⟩

inductive EnvStatus where
  | free
  | dying
  | runnable
  | running
  | notRunnable
  deriving DecidableEq, Repr

inductive EnvType where
  | user
  deriving DecidableEq, Repr

structure Env where
  envTf : Trapframe
  envLink : Option Nat
  envId : Word
  envParentId : Word
  envType : EnvType
  envStatus : EnvStatus
  envRuns : Word
  envPgdir : Word
  deriving DecidableEq, Repr

structure Sys where
  kern : Kern
  envs : Nat → Env
  envFreeList : Option Nat
  curenv : Option Nat
  printed : List (String × Word × Word)

namespace Sys

def setEnv (s : Sys) (e : Nat) (v : Env) : Sys := { s with envs := Function.update s.envs e v }

def curId (s : Sys) : Word := (s.curenv.map fun c => (s.envs c).envId).getD 0

def cprintf (s : Sys) (fmt : String) (a b : Word) : Sys := { s with printed := s.printed ++ [(fmt, a, b)] }

/-! ## `envid2env` -/

/-- The address that `curenv->env_id` reads when `curenv` is NULL. -/
def nullEnvId : Word := 72

def envid2env (s : Sys) (envid : Word) (checkperm : Bool) : Except Panic (Int × Option Nat) :=
  if envid = 0 then .ok (0, s.curenv)
  else
    let e := envx envid
    if (s.envs e).envStatus = .free ∨ (s.envs e).envId ≠ envid then .ok (-eBadEnv, none)
    else if checkperm ∧ some e ≠ s.curenv then
      match s.curenv with
      | none => .error (.fault nullEnvId)
      | some c =>
        if (s.envs e).envParentId ≠ (s.envs c).envId then .ok (-eBadEnv, none) else .ok (0, some e)
    else .ok (0, some e)

/-! ## `env_alloc` -/

def envSetupVm (lab3 : Kern → Nat → Except Panic (Word × Kern)) (s : Sys) (e : Nat) : Except Panic (Int × Sys) := do
  let (p, k) ← s.kern.pageAlloc allocZero
  match p with
  | none => return (-eNoMem, { s with kern := k })
  | some p =>
    let (pgdir, k) ← lab3 k p
    let s := { s with kern := k }.setEnv e { s.envs e with envPgdir := pgdir }
    let pa ← paddr pgdir
    let k ← s.kern.store (entry pgdir (pdx uvpt)) (pa ||| pteP ||| pteU)
    return (0, { s with kern := k })

def nextId (id : Word) (e : Nat) : Word :=
  let generation := (id + (1 : Word) <<< envgenshift) &&& ~~~(BitVec.ofNat 32 nenv - 1)
  let generation := if generation.sle 0 then (1 : Word) <<< envgenshift else generation
  generation ||| BitVec.ofNat 32 e

def envAlloc (lab3 : Kern → Nat → Except Panic (Word × Kern)) (s : Sys) (parentId : Word) :
    Except Panic (Int × Option Nat × Sys) :=
  match s.envFreeList with
  | none => .ok (-eNoFreeEnv, none, s)
  | some e => do
    let (r, s) ← envSetupVm lab3 s e
    if r < 0 then return (r, none, s)
    else
      let v := s.envs e
      let s := s.setEnv e
        { v with
          envId := nextId v.envId e
          envParentId := parentId
          envType := .user
          envStatus := .runnable
          envRuns := 0
          envTf :=
            { Trapframe.zero with
              tfDs := gdUd ||| 3
              tfEs := gdUd ||| 3
              tfSs := gdUd ||| 3
              tfEsp := ustacktop
              tfCs := gdUt ||| 3 } }
      let s := { s with envFreeList := (s.envs e).envLink }
      return (0, some e, s.cprintf "[%08x] new env %08x\n" s.curId (s.envs e).envId)

/-! ## `env_free` -/

def freePte (pgdir pt : Word) (pdeno : Nat) (k : Kern) (pteno : Nat) : Except Panic Kern := do
  let pte ← k.load (entry pt pteno)
  if pte &&& pteP ≠ 0 then k.pageRemove pgdir (pgaddr pdeno pteno 0) else return k

def freePde (pgdir : Word) (k : Kern) (pdeno : Nat) : Except Panic Kern := do
  let pde ← k.load (entry pgdir pdeno)
  if pde &&& pteP = 0 then return k
  else
    let pa := pteAddr pde
    let pt ← k.kaddr pa
    let k ← (List.range (ptx (~~~0) + 1)).foldlM (freePte pgdir pt pdeno) k
    let k ← k.store (entry pgdir pdeno) 0
    let pp ← k.pa2page pa
    k.pageDecref pp

def lcr3 (k : Kern) (v : Word) : Kern := { k with cr3 := v }

/-- The switch to `kern_pgdir`, before the current environment is freed. -/
def leavePgdir (s : Sys) (e : Nat) : Except Panic Kern :=
  if s.curenv = some e then do
    let pa ← paddr s.kern.kernPgdir
    return lcr3 s.kern pa
  else return s.kern

def envFree (s : Sys) (e : Nat) : Except Panic Sys := do
  let k ← s.leavePgdir e
  let s := s.cprintf "[%08x] free env %08x\n" s.curId (s.envs e).envId
  let pgdir := (s.envs e).envPgdir
  let k ← (List.range (pdx utop)).foldlM (freePde pgdir) k
  let pa ← paddr pgdir
  let s := s.setEnv e { s.envs e with envPgdir := 0 }
  let pp ← k.pa2page pa
  let k ← k.pageDecref pp
  return { (s.setEnv e { s.envs e with envStatus := .free, envLink := s.envFreeList }) with
    kern := k
    envFreeList := some e }

def putFree (s : Sys) (e : Nat) (k : Kern) : Sys :=
  { (s.setEnv e { s.envs e with envPgdir := 0, envStatus := .free, envLink := s.envFreeList }).cprintf
      "[%08x] free env %08x\n" s.curId (s.envs e).envId with
    kern := k
    envFreeList := some e }

section
variable {s s' : Sys} {e : Nat}

theorem envFree_eq {k t t' : Kern} {pp : Nat} {pa : Word}
    (hk : s.leavePgdir e = .ok k)
    (hl : (List.range (pdx utop)).foldlM (freePde (s.envs e).envPgdir) k = .ok t)
    (hpa : paddr (s.envs e).envPgdir = .ok pa) (hpp : t.pa2page pa = .ok pp) (hd : t.pageDecref pp = .ok t') :
    s.envFree e = .ok (s.putFree e t') := by
  rw [envFree, hk]
  simp only [ok_bind, cprintf, hl, hpa, hpp, hd, pure_ok, putFree, setEnv, Function.update_self, Function.update_idem]

theorem envFree_cases (h : s.envFree e = .ok s') : ∃ k, s' = s.putFree e k := by
  rw [envFree] at h
  obtain ⟨_, _, h⟩ := bind_eq_ok.mp h
  obtain ⟨_, _, h⟩ := bind_eq_ok.mp h
  obtain ⟨_, _, h⟩ := bind_eq_ok.mp h
  obtain ⟨_, _, h⟩ := bind_eq_ok.mp h
  obtain ⟨t, _, h⟩ := bind_eq_ok.mp h
  refine ⟨t, ?_⟩
  rw [pure_ok, Except.ok.injEq] at h
  rw [← h]
  simp only [cprintf, putFree, setEnv, Function.update_self, Function.update_idem]

@[simp] theorem putFree_kern (s : Sys) (e : Nat) (k : Kern) : (s.putFree e k).kern = k := rfl
@[simp] theorem putFree_envFreeList (s : Sys) (e : Nat) (k : Kern) : (s.putFree e k).envFreeList = some e := rfl
@[simp] theorem putFree_curenv (s : Sys) (e : Nat) (k : Kern) : (s.putFree e k).curenv = s.curenv := rfl

theorem putFree_envs (s : Sys) (e : Nat) (k : Kern) : (s.putFree e k).envs = Function.update s.envs e
    { s.envs e with envPgdir := 0, envStatus := .free, envLink := s.envFreeList } := rfl

end

end Sys

example : utop % ptsize = 0 := by decide

end Jos
