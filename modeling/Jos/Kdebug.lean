import Jos.Mmu

/-!
# `kern/kdebug.c`

The stab table and the string table are lists; a read outside of them is the
fault `bounds`. The loop of the binary search takes a bound on its turns.
-/

namespace Jos.Kdebug

structure Stab where
  strx : Word
  type : Byte
  desc : BitVec 16
  value : Word
  deriving Inhabited

def nFun : Byte := 0x24
def nSline : Byte := 0x44
def nSo : Byte := 0x64
def nSol : Byte := 0x84
def nPsym : Byte := 0xA0

inductive Fault where
  | bounds
  | fuel

def stab (t : List Stab) (i : Int) : Stab := t.getD i.toNat default

def readStab (t : List Stab) (i : Int) : Except Fault Stab :=
  if 0 ≤ i ∧ i < t.length then .ok (stab t i) else .error .bounds

/-! ## `stab_binsearch` -/

def scanDown (t : List Stab) (stop : Stab → Bool) (l m : Int) : Except Fault Int :=
  if l ≤ m then
    match readStab t m with
    | .error e => .error e
    | .ok s => if stop s then .ok m else scanDown t stop l (m - 1)
  else .ok m
termination_by (m + 1 - l).toNat

structure Region where
  left : Int
  right : Int

def searchLoop (t : List Stab) (type : Byte) : Nat → Int → Int → Bool → Region → Word → Except Fault (Bool × Region)
  | 0, _, _, _, _, _ => .error .fuel
  | n + 1, l, r, anyMatches, g, addr =>
    if l ≤ r then do
      let trueM := (l + r).tdiv 2
      let m ← scanDown t (·.type = type) l trueM
      if m < l then searchLoop t type n (trueM + 1) r anyMatches g addr
      else do
        let s ← readStab t m
        if s.value < addr then searchLoop t type n (trueM + 1) r true { g with left := m } addr
        else if s.value > addr then searchLoop t type n l (m - 1) true { g with right := m - 1 } addr
        else searchLoop t type n m r true { g with left := m } (addr + 1)
    else .ok (anyMatches, g)

def stabBinsearch (n : Nat) (t : List Stab) (g : Region) (type : Byte) (addr : Word) : Except Fault Region := do
  let (anyMatches, g) ← searchLoop t type n g.left g.right false g addr
  if ¬ anyMatches then .ok { g with right := g.left - 1 }
  else do
    let l ← scanDown t (·.type = type) (g.left + 1) g.right
    .ok { g with left := l }

/-! ## `debuginfo_eip` -/

/-- `"<unknown>"`, or the string that starts at an offset of the string table. -/
inductive Name where
  | unknown
  | stabstr (strx : Nat)

structure Eipdebuginfo where
  file : Name
  line : BitVec 16
  fnName : Name
  fnNamelen : Nat
  fnAddr : Word
  fnNarg : Nat

def nameAt (str : List Byte) (s : Stab) (name : Name) : Name := if s.strx.toNat < str.length then .stabstr s.strx.toNat else name

def strfind : List Byte → Except Fault Nat
  | [] => .error .bounds
  | c :: s => if c = 0 ∨ c = 0x3A then .ok 0 else (strfind s).map (· + 1)

def namelen (str : List Byte) : Name → Except Fault Nat
  | .unknown => .ok 9
  | .stabstr strx => strfind (str.drop strx)

/-- The function's stab: its name, its address, the address within it and where its lines are. -/
def findFun (t : List Stab) (str : List Byte) (file fn : Region) (addr : Word) : Except Fault (Name × Word × Word × Region) :=
  if fn.left ≤ fn.right then do
    let s ← readStab t fn.left
    .ok (nameAt str s .unknown, s.value, addr - s.value, fn)
  else .ok (.unknown, addr, addr, file)

def findLine (t : List Stab) (line : Region) : Except Fault (BitVec 16) :=
  if line.left ≤ line.right then do
    let s ← readStab t line.left
    .ok s.desc
  else .ok 0

def isFileStab (s : Stab) : Bool := s.type = nSol ∨ s.type = nSo ∧ s.value ≠ 0

def findFile (t : List Stab) (str : List Byte) (lfile lline : Int) : Except Fault Name := do
  let lline ← scanDown t isFileStab lfile lline
  if lline ≥ lfile then do
    let s ← readStab t lline
    .ok (nameAt str s .unknown)
  else .ok .unknown

def countArgs (t : List Stab) (lline rfun : Int) (narg : Nat) : Except Fault Nat :=
  if lline < rfun then
    match readStab t lline with
    | .error e => .error e
    | .ok s => if s.type = nPsym then countArgs t (lline + 1) rfun (narg + 1) else .ok narg
  else .ok narg
termination_by (rfun - lline).toNat

def noInfo (addr : Word) : Eipdebuginfo := ⟨.unknown, 0, .unknown, 9, addr, 0⟩

def describe (n : Nat) (t : List Stab) (str : List Byte) (addr : Word) (file : Region) : Except Fault (Int × Eipdebuginfo) := do
  let fn ← stabBinsearch n t file nFun addr
  let (fnName, fnAddr, addr, line) ← findFun t str file fn addr
  let fnNamelen ← namelen str fnName
  let line ← stabBinsearch n t line nSline addr
  let eipLine ← findLine t line
  let eipFile ← findFile t str file.left line.left
  let narg ← countArgs t (fn.left + 1) fn.right 0
  .ok (0, ⟨eipFile, eipLine, fnName, fnNamelen, fnAddr, narg⟩)

/-- `debuginfo_eip` with the tables that it takes from the kernel or from the user program. -/
def debuginfoEip (n : Nat) (t : List Stab) (str : List Byte) (addr : Word) : Except Fault (Int × Eipdebuginfo) :=
  if str.getLast? ≠ some 0 then .ok (-1, noInfo addr)
  else do
    let file ← stabBinsearch n t ⟨0, t.length - 1⟩ nSo addr
    if file.left = 0 then .ok (-1, noInfo addr) else describe n t str addr file

end Jos.Kdebug
