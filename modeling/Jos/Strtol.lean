import Jos.Printfmt

/-!
# `strtol` of `lib/string.c`

The result is the value and what is left of the string, which is where `endptr`
points. `int`s and `long`s wrap.
-/

namespace Jos

def digitValue (c : Byte) : Option Word :=
  if chr '0' ≤ c ∧ c ≤ chr '9' then some ((c - chr '0').setWidth 32)
  else if chr 'a' ≤ c ∧ c ≤ chr 'z' then some ((c - chr 'a').setWidth 32 + 10)
  else if chr 'A' ≤ c ∧ c ≤ chr 'Z' then some ((c - chr 'A').setWidth 32 + 10)
  else none

def scanValue (base : Word) (val : Word) : List Byte → Word × List Byte
  | [] => (val, [])
  | c :: s =>
    match digitValue c with
    | none => (val, c :: s)
    | some dig => if base.sle dig then (val, c :: s) else scanValue base (val * base + dig) s

def scanSign : List Byte → Bool × List Byte
  | [] => (false, [])
  | c :: s => if c = chr '+' then (false, s) else if c = chr '-' then (true, s) else (false, c :: s)

def scanBase (base : Word) (s : List Byte) : Word × List Byte :=
  if (base = 0 ∨ base = 16) ∧ s[0]? = some (chr '0') ∧ s[1]? = some (chr 'x') then (16, s.drop 2)
  else if base = 0 ∧ s[0]? = some (chr '0') then (8, s.drop 1)
  else if base = 0 then (10, s)
  else (base, s)

def strtol (s : List Byte) (base : Word) : Word × List Byte :=
  let s := s.dropWhile fun c => c = chr ' ' ∨ c = chr '\t'
  let (neg, s) := scanSign s
  let (base, s) := scanBase base s
  let (val, s) := scanValue base 0 s
  (if neg then -val else val, s)

end Jos
