import Jos.BinsearchSound

/-!
# The line that `debuginfo_eip` reports

`LineOf` says from the table which stabs may give the line of an address. The function
reports the line of one of them when each of its three searches ends where it should and
there is such a stab. Without one it still returns 0, as a line that is not found does
not reach the return value.
-/

namespace Jos.Kdebug

open FilterSearch

/-! ## Regions of the table -/

section
variable (t : List Stab) (type : Byte)

abbrev IsA (i : Int) : Prop := (stab t i).type = type

abbrev valueAt (i : Int) : Word := (stab t i).value

abbrev Ordered (l r : Int) : Prop := Sorted (IsA t type) (valueAt t) l r

/-- `g` is the part of `[l, r]` from the last stab of the type at or below the address to the next one. -/
abbrev Contains (l r : Int) (addr : Word) (g : Region) : Prop := Brackets (IsA t type) (valueAt t) l r addr g.left g.right

abbrev Stray (l r : Int) (addr : Word) : Prop := Strays (IsA t type) (valueAt t) Stabs.succ addr l r

/-- The region that has the lines of an address, and the value that they are compared to. -/
inductive LinesOf (addr : Word) : Region → Word → Prop
  | function {file fn : Region} (inFile : Contains t nSo 0 (t.length - 1) addr file)
      (inFn : Contains t nFun file.left file.right addr fn) : LinesOf addr fn (addr - valueAt t fn.left)
  | assembly {file : Region} (inFile : Contains t nSo 0 (t.length - 1) addr file)
      (noFn : NoHit (IsA t nFun) file.left file.right) : LinesOf addr file addr

structure LineIn (g : Region) (rel : Word) (i : Int) : Prop where
  left_le : g.left ≤ i
  le_right : i ≤ g.right
  isLine : IsA t nSline i
  value_le : valueAt t i ≤ rel

def LineOf (addr : Word) (i : Int) : Prop := ∃ g rel, LinesOf t addr g rel ∧ LineIn t g rel i

/-- Files in order, functions in order in a file, lines in order in a function. -/
structure WellFormed : Prop where
  files : Ordered t nSo 0 (t.length - 1)
  funs : ∀ l r : Int, 0 ≤ l → r < t.length → IsA t nSo l → (∀ i, l < i → i ≤ r → ¬ IsA t nSo i) → Ordered t nFun l r
  lines : ∀ l r : Int, 0 ≤ l → r < t.length → IsA t nFun l →
    (∀ i, l < i → i ≤ r → ¬ IsA t nFun i ∧ ¬ IsA t nSo i) → Ordered t nSline l r

end

/-- What the function promises: 0 with a line of the address, and a negative value when there is none. -/
def TellsLine (t : List Stab) (str : List Byte) (addr : Word) : Prop :=
  ∃ ret info, (∀ n ≥ 2 * t.length + 2, debuginfoEip n t str addr = .ok (ret, info)) ∧
    (ret = 0 → ∃ i, LineOf t addr i ∧ info.line = (stab t i).desc) ∧ ((∀ i, ¬ LineOf t addr i) → ret < 0)

/-- When it keeps the promise: either it gives up early, or each search ends where it should and there is a line. -/
inductive Succeeds (t : List Stab) (str : List Byte) (addr : Word) : Prop
  | strings (bad : str.getLast? ≠ some 0)
  | below (above : ∀ i : Int, 0 ≤ i → i ≤ t.length - 1 → IsA t nSo i → addr < valueAt t i) (first : ¬ IsA t nSo 0)
  | first {file : Region} (inFile : Contains t nSo 0 (t.length - 1) addr file) (zero : file.left = 0)
      (straight : ¬ Stray t nSo 0 (t.length - 1) addr)
  | function {file fn : Region} {i : Int} (inFile : Contains t nSo 0 (t.length - 1) addr file)
      (inFn : Contains t nFun file.left file.right addr fn) (line : LineIn t fn (addr - valueAt t fn.left) i)
      (straightFile : ¬ Stray t nSo 0 (t.length - 1) addr) (straightFn : ¬ Stray t nFun file.left file.right addr)
      (straightLine : ¬ Stray t nSline fn.left fn.right (addr - valueAt t fn.left))
  | assembly {file : Region} {i : Int} (inFile : Contains t nSo 0 (t.length - 1) addr file)
      (noFn : NoHit (IsA t nFun) file.left file.right) (line : LineIn t file addr i)
      (inOrder : Ordered t nSline file.left file.right)
      (straightFile : ¬ Stray t nSo 0 (t.length - 1) addr) (straightLine : ¬ Stray t nSline file.left file.right addr)

variable {t : List Stab} {str : List Byte} {addr rel : Word} {type : Byte} {g g' file fn lines line : Region} {n : Nat}
  {b i : Int}

/-! ## The searches -/

theorem counts_stab (t : List Stab) (type : Byte) : Stabs.counts (stab t) (type.setWidth 32) = IsA t type := by
  funext i
  exact propext (isType_byte _ _)

theorem search_result (type : Byte) (addr : Word) (h0 : 0 ≤ g.left) (hr : g.right < t.length) :
    ∃ g', (∀ n ≥ 2 * t.length + 2, stabBinsearch n t g type addr = .ok g') ∧
      Result (IsA t type) (valueAt t) Stabs.succ g.left g.right addr g'.left g'.right := by
  have hread : ∀ i, g.left ≤ i → i ≤ g.right → readStab t i = .ok (stab t i) := fun i h1 h2 =>
    readStab_ok (by omega) (by omega)
  obtain ⟨g', hg, hres⟩ := Stabs.binsearch_result hread h0 (type.setWidth 32) addr
  rw [counts_stab] at hres
  refine ⟨g', fun n hn => ?_, hres⟩
  rw [← binsearch_readStab]
  apply hg
  unfold Stabs.turns
  omega

theorem result_of_search (h : stabBinsearch n t g type addr = .ok g') (hn : 2 * t.length + 2 ≤ n) (h0 : 0 ≤ g.left)
    (hr : g.right < t.length) : Result (IsA t type) (valueAt t) Stabs.succ g.left g.right addr g'.left g'.right := by
  obtain ⟨g₁, hg, hres⟩ := search_result type addr h0 hr
  rw [hg n hn] at h
  cases h
  exact hres

theorem contains_of_result (hres : Result (IsA t type) (valueAt t) Stabs.succ g.left g.right addr g'.left g'.right)
    (hs : Ordered t type g.left g.right) (hi : g.left ≤ i ∧ i ≤ g.right ∧ IsA t type i ∧ valueAt t i ≤ addr)
    (hno : ¬ Stray t type g.left g.right addr) : Contains t type g.left g.right addr g' := by
  apply hres.brackets_of_straight hs _ _ Stabs.succ_ne hno
  · exact fun h => not_lt.mpr hi.2.2.2 (h i hi.1 hi.2.1 hi.2.2.1)
  · intro hlt v
    apply Stabs.lt_succ_iff
    rintro rfl
    revert hlt
    decide

theorem Contains.eq {l r : Int} (h : Contains t type l r addr g) (h' : Contains t type l r addr g') : g = g' := by
  obtain ⟨h1, h2⟩ := h.unique h'
  cases g
  cases g'
  cases h1
  cases h2
  rfl

theorem Contains.isLeft {l r : Int} (h : Contains t type l r addr g) :
    l ≤ g.left ∧ g.left ≤ r ∧ IsA t type g.left ∧ valueAt t g.left ≤ addr := ⟨h.left_ge, h.left_le, h.left_hit, h.left_val⟩

theorem Ordered.mono {l r l' r' : Int} (h : Ordered t type l r) (hl : l ≤ l') (hr : r' ≤ r) : Ordered t type l' r' :=
  fun i j h1 h2 h3 => h i j (by omega) h2 (by omega)

section
variable (hw : WellFormed t) (inFile : Contains t nSo 0 (t.length - 1) addr file)
include hw inFile

theorem WellFormed.funs_in : Ordered t nFun file.left file.right := by
  have := inFile.left_ge
  have := inFile.right_le
  exact hw.funs _ _ (by omega) (by omega) inFile.left_hit fun _ => inFile.only

theorem WellFormed.lines_in (inFn : Contains t nFun file.left file.right addr fn) : Ordered t nSline fn.left fn.right := by
  have := inFile.left_ge
  have := inFile.right_le
  have := inFn.left_ge
  have := inFn.right_le
  apply hw.lines _ _ (by omega) (by omega) inFn.left_hit
  intro i h1 h2
  exact ⟨inFn.only h1 h2, inFile.only (by omega) (by omega)⟩

end

/-! ## Where there is a line -/

theorem tells_of_neg {info : Eipdebuginfo} (h : ∀ n ≥ 2 * t.length + 2, debuginfoEip n t str addr = .ok (-1, info)) :
    TellsLine t str addr := ⟨-1, info, h, fun h0 => absurd h0 (by decide), fun _ => by decide⟩

theorem debuginfoEip_file (hstr : str.getLast? = some 0) (addr : Word) :
    ∃ file, Result (IsA t nSo) (valueAt t) Stabs.succ 0 (t.length - 1) addr file.left file.right ∧
      ∀ n ≥ 2 * t.length + 2, debuginfoEip n t str addr =
        if file.left = 0 then .ok (-1, noInfo addr) else describe n t str addr file := by
  obtain ⟨file, hfile, hres⟩ := @search_result t ⟨0, t.length - 1⟩ nSo addr (Int.le_refl 0) (show (t.length : Int) - 1 < t.length by omega)
  refine ⟨file, hres, fun n hn => ?_⟩
  rw [debuginfoEip, if_neg (not_not.mpr hstr), hfile n hn, bind_ok]

theorem describe_line (hstr : str.getLast? = some 0) (hf : 0 ≤ file.left)
    (hfn : ∀ n ≥ 2 * t.length + 2, stabBinsearch n t file nFun addr = .ok fn) (hfl : 0 ≤ fn.left) (hfr : fn.right < t.length)
    (hlines : ∀ name fnAddr, (if fn.left ≤ fn.right then (name, fnAddr, addr - valueAt t fn.left, fn) else (name, fnAddr, addr, file)) =
      ((name, fnAddr, rel, lines) : Name × Word × Word × Region))
    (hline : ∀ n ≥ 2 * t.length + 2, stabBinsearch n t lines nSline rel = .ok line)
    (hl : 0 ≤ line.left) (hlr : line.left ≤ line.right) (hr : line.right < t.length) :
    ∃ info, (∀ n ≥ 2 * t.length + 2, describe n t str addr file = .ok (0, info)) ∧ info.line = (stab t line.left).desc := by
  obtain ⟨name, fnAddr, hfun, hname⟩ := findFun_ok hstr addr file hfl hfr
  obtain ⟨len, hlen⟩ := namelen_ok hname
  obtain ⟨eipFile, hfile, _⟩ := findFile_ok hstr hf (show line.left < t.length by omega)
  obtain ⟨narg, hargs⟩ := countArgs_ok (t := t) (show 0 ≤ fn.left + 1 by omega) (show fn.right ≤ t.length by omega) 0
  have hdesc : findLine t line = .ok (stab t line.left).desc := by
    rw [findLine, if_pos hlr, readStab_ok hl (by omega), bind_ok]
  rw [hlines name fnAddr] at hfun
  refine ⟨⟨eipFile, (stab t line.left).desc, name, len, fnAddr, narg⟩, fun n hn => ?_, rfl⟩
  rw [describe, hfn n hn, bind_ok, hfun, bind_ok]
  dsimp only
  rw [hlen, bind_ok, hline n hn, bind_ok, hdesc, bind_ok, hfile, bind_ok, hargs, bind_ok]

theorem left_le_right (hres : Result (IsA t type) (valueAt t) Stabs.succ g.left g.right addr g'.left g'.right)
    (h1 : g.left ≤ i) (h2 : i ≤ g.right) (hi : IsA t type i) : g'.left ≤ g'.right := by
  by_contra hlt
  exact hres.right_lt_left_iff.mp (by omega) i h1 h2 hi

section
variable (hstr : str.getLast? = some 0) (hf : 0 ≤ file.left)
  (hrun : ∀ n ≥ 2 * t.length + 2, debuginfoEip n t str addr = describe n t str addr file)
include hstr hf hrun

theorem tells_of_lines (hfn : ∀ n ≥ 2 * t.length + 2, stabBinsearch n t file nFun addr = .ok fn) (hfl : 0 ≤ fn.left)
    (hfnr : fn.right < t.length)
    (hlines : ∀ name fnAddr, (if fn.left ≤ fn.right then (name, fnAddr, addr - valueAt t fn.left, fn) else (name, fnAddr, addr, file)) =
      ((name, fnAddr, rel, lines) : Name × Word × Word × Region))
    (hof : LinesOf t addr lines rel) (hl : 0 ≤ lines.left) (hlr : lines.right < t.length) (hs : Ordered t nSline lines.left lines.right)
    (hi : LineIn t lines rel i) (hno : ¬ Stray t nSline lines.left lines.right rel) : TellsLine t str addr := by
  obtain ⟨line, hline, hres⟩ := search_result nSline rel hl hlr
  have hc := contains_of_result hres hs ⟨hi.left_le, hi.le_right, hi.isLine, hi.value_le⟩ hno
  have hge := hc.left_ge
  have hle := hc.right_le
  obtain ⟨info, hdesc, hinfo⟩ := describe_line hstr hf hfn hfl hfnr hlines hline (by omega)
    (left_le_right hres hi.left_le hi.le_right hi.isLine) (by omega)
  have hof' : LineOf t addr line.left := ⟨lines, rel, hof, hc.left_ge, hc.left_le, hc.left_hit, hc.left_val⟩
  refine ⟨0, info, fun n hn => (hrun n hn).trans (hdesc n hn), fun _ => ⟨line.left, hof', hinfo⟩, fun hno => ?_⟩
  exact absurd hof' (hno line.left)

variable (hfr : file.right < t.length) (inFile : Contains t nSo 0 (t.length - 1) addr file)
include hfr inFile

theorem tells_of_fn (hw : WellFormed t) (inFn : Contains t nFun file.left file.right addr fn)
    (hi : LineIn t fn (addr - valueAt t fn.left) i)
    (hfn : ¬ Stray t nFun file.left file.right addr)
    (hline : ¬ Stray t nSline fn.left fn.right (addr - valueAt t fn.left)) : TellsLine t str addr := by
  obtain ⟨fn', hsearch, hres⟩ := search_result nFun addr hf hfr
  have hle := left_le_right hres inFn.left_ge inFn.left_le inFn.left_hit
  cases (contains_of_result hres (hw.funs_in inFile) inFn.isLeft hfn).eq inFn
  have := inFn.left_ge
  have := inFn.right_le
  apply tells_of_lines hstr hf hrun hsearch (by omega) (by omega) _ (.function inFile inFn) (by omega) (by omega)
    (hw.lines_in inFile inFn) hi hline
  exact fun _ _ => if_pos hle

theorem tells_of_file (noFn : NoHit (IsA t nFun) file.left file.right)
    (hs : Ordered t nSline file.left file.right) (hi : LineIn t file addr i)
    (hline : ¬ Stray t nSline file.left file.right addr) : TellsLine t str addr := by
  obtain ⟨fn, hsearch, hres⟩ := search_result nFun addr hf hfr
  obtain ⟨hl, hr⟩ := hres.of_noHit noFn
  have := inFile.left_le
  apply tells_of_lines hstr hf hrun hsearch (by omega) (by omega) _ (.assembly inFile noFn) hf hfr hs hi hline
  exact fun _ _ => if_neg (by omega)

end

theorem tells_of_succeeds (hw : WellFormed t) (h : Succeeds t str addr) : TellsLine t str addr := by
  by_cases hstr : str.getLast? = some 0
  · obtain ⟨file, hres, hrun⟩ := debuginfoEip_file (t := t) hstr addr
    by_cases h0 : file.left = 0
    · simp only [h0, if_true] at hrun
      exact tells_of_neg hrun
    · simp only [h0, if_false] at hrun
      have found : ∀ {file'}, Contains t nSo 0 (t.length - 1) addr file' → ¬ Stray t nSo 0 (t.length - 1) addr →
          file = file' ∧ 0 ≤ file.left ∧ file.right < t.length := fun {file'} inFile straight => by
        have hc := contains_of_result (g := ⟨0, t.length - 1⟩) hres hw.files inFile.isLeft straight
        have : 0 ≤ file.left := hc.left_ge
        have : file.right ≤ t.length - 1 := hc.right_le
        exact ⟨hc.eq inFile, by omega, by omega⟩
      cases h with
      | strings bad => exact absurd hstr bad
      | below above first => exact absurd ((hres.left_eq_iff above).mpr fun h => first h.2) h0
      | first inFile zero straight =>
        obtain ⟨rfl, _⟩ := found inFile straight
        exact absurd zero h0
      | function inFile inFn line straightFile straightFn straightLine =>
        obtain ⟨rfl, hf, hfr⟩ := found inFile straightFile
        exact tells_of_fn hstr hf hrun hfr inFile hw inFn line straightFn straightLine
      | assembly inFile noFn line inOrder straightFile straightLine =>
        obtain ⟨rfl, hf, hfr⟩ := found inFile straightFile
        exact tells_of_file hstr hf hrun hfr inFile noFn inOrder line straightLine
  · apply tells_of_neg
    intro n _
    rw [debuginfoEip, if_pos hstr]

/-! ## No other way -/

/-- The lines of the address have numbers that no other stab has, and its successors do not wrap. -/
structure Plain (t : List Stab) (addr : Word) : Prop where
  noWrap : addr < 0xFFFFFFFE
  own : ∀ i j : Int, LineOf t addr i → 0 ≤ j → j < t.length → (stab t j).desc = (stab t i).desc → LineOf t addr j
  numbered : ∀ i, LineOf t addr i → (stab t i).desc ≠ 0
  inOrder : ∀ file : Region, Contains t nSo 0 (t.length - 1) addr file → NoHit (IsA t nFun) file.left file.right →
    Ordered t nSline file.left file.right

theorem of_bind_ok {α β : Type} {x : Except Fault α} {f : α → Except Fault β} {y : β} (h : x >>= f = .ok y) :
    ∃ a, x = .ok a ∧ f a = .ok y := by
  cases x with
  | error e => cases h
  | ok a => exact ⟨a, rfl, h⟩

theorem readStab_inv {s : Stab} (h : readStab t i = .ok s) : 0 ≤ i ∧ i < t.length ∧ s = stab t i := by
  unfold readStab at h
  split at h
  · next hi =>
    cases h
    exact ⟨hi.1, hi.2, rfl⟩
  · cases h

theorem findLine_inv {d : BitVec 16} (h : findLine t line = .ok d) (hd : d ≠ 0) :
    0 ≤ line.left ∧ line.left < t.length ∧ (stab t line.left).desc = d := by
  unfold findLine at h
  split at h
  · obtain ⟨s, hs, h⟩ := of_bind_ok h
    obtain ⟨h1, h2, rfl⟩ := readStab_inv hs
    cases h
    exact ⟨h1, h2, rfl⟩
  · cases h
    exact absurd rfl hd

structure Path (n : Nat) (t : List Stab) (addr : Word) (file fn lines line : Region) (rel : Word) : Prop where
  fnSearch : stabBinsearch n t file nFun addr = .ok fn
  picks : (fn.left ≤ fn.right ∧ rel = addr - valueAt t fn.left ∧ lines = fn) ∨ (fn.right < fn.left ∧ rel = addr ∧ lines = file)
  lineSearch : stabBinsearch n t lines nSline rel = .ok line

theorem describe_inv {ret : Int} {info : Eipdebuginfo} (h : describe n t str addr file = .ok (ret, info)) :
    ret = 0 ∧ ∃ fn lines line rel, Path n t addr file fn lines line rel ∧ findLine t line = .ok info.line := by
  unfold describe at h
  obtain ⟨fn, hfn, h⟩ := of_bind_ok h
  obtain ⟨⟨name, fnAddr, rel, lines⟩, hfun, h⟩ := of_bind_ok h
  obtain ⟨len, _, h⟩ := of_bind_ok h
  obtain ⟨line, hline, h⟩ := of_bind_ok h
  obtain ⟨eipLine, hdesc, h⟩ := of_bind_ok h
  obtain ⟨eipFile, _, h⟩ := of_bind_ok h
  obtain ⟨narg, _, h⟩ := of_bind_ok h
  cases h
  refine ⟨rfl, fn, lines, line, rel, ⟨hfn, ?_, hline⟩, hdesc⟩
  unfold findFun at hfun
  split at hfun
  · next hle =>
    obtain ⟨s, hs, hfun⟩ := of_bind_ok hfun
    obtain ⟨_, _, rfl⟩ := readStab_inv hs
    cases hfun
    exact Or.inl ⟨hle, rfl, rfl⟩
  · next hlt =>
    cases hfun
    exact Or.inr ⟨by omega, rfl, rfl⟩

theorem lt_succ_of_lt {x : Word} (h : x < 0xFFFFFFFE) : x < Stabs.succ x ∧ Stabs.succ x < Stabs.succ (Stabs.succ x) := by
  have h1 : (Stabs.succ x).toNat = x.toNat + 1 := by
    rw [Stabs.succ, BitVec.toNat_add, show (1 : Word).toNat = 1 from rfl]
    rw [BitVec.lt_def, show (0xFFFFFFFE : Word).toNat = 4294967294 from rfl] at h
    omega
  have h2 : (Stabs.succ (Stabs.succ x)).toNat = x.toNat + 2 := by
    rw [Stabs.succ, BitVec.toNat_add, h1, show (1 : Word).toNat = 1 from rfl]
    rw [BitVec.lt_def, show (0xFFFFFFFE : Word).toNat = 4294967294 from rfl] at h
    omega
  rw [BitVec.lt_def, BitVec.lt_def, h1, h2]
  omega

theorem stray_past (hres : Result (IsA t type) (valueAt t) Stabs.succ g.left g.right addr g'.left g'.right)
    (hx : addr < 0xFFFFFFFE) (ho : Stray t type g.left g.right addr) :
    ∃ b, g.left < b ∧ b ≤ g'.left ∧ b ≤ g.right ∧ IsA t type b ∧ addr < valueAt t b := by
  obtain ⟨hup, hup'⟩ := lt_succ_of_lt hx
  obtain ⟨b, h1, h2, h3, h4, h5⟩ := hres.past Stabs.succ_ne hup hup' ho
  exact ⟨b, h1, h2, h3, h4, by rw [h5]; exact hup⟩

theorem LineOf.inFile (h : LineOf t addr i) :
    ∃ file, Contains t nSo 0 (t.length - 1) addr file ∧ i ≤ file.right := by
  obtain ⟨g, rel, hof, hin⟩ := h
  cases hof with
  | function inFile inFn => exact ⟨_, inFile, Int.le_trans hin.le_right inFn.right_le⟩
  | assembly inFile noFn => exact ⟨g, inFile, hin.le_right⟩

theorem not_of_type {type' : Byte} (h : IsA t type b) (hne : type ≠ type') : ¬ IsA t type' b := fun h' => hne (h.symm.trans h')

section
variable (p : Path n t addr file fn lines line rel) (hn : 2 * t.length + 2 ≤ n) (hf : 0 ≤ file.left)
  (hfr : file.right < t.length)
include p hn hf hfr

theorem Path.fn_result :
    Result (IsA t nFun) (valueAt t) Stabs.succ file.left file.right addr fn.left fn.right :=
  result_of_search p.fnSearch hn hf hfr

theorem Path.behind_file (hb : 0 ≤ b) (hbl : b ≤ file.left) (hso : IsA t nSo b) : b ≤ line.left := by
  have hl := (p.fn_result hn hf hfr).left_ge hbl (not_of_type hso (by decide))
  have hnl : ¬ IsA t nSline b := not_of_type hso (by decide)
  rcases p.picks with ⟨hle, _, rfl⟩ | ⟨_, _, rfl⟩
  · have := (p.fn_result hn hf hfr).right_le hle
    exact (result_of_search p.lineSearch hn (by omega) (by omega)).left_ge hl hnl
  · exact (result_of_search p.lineSearch hn hf hfr).left_ge hbl hnl

theorem Path.behind_fn (hb : 0 ≤ b) (hbl : b ≤ fn.left) (hle : fn.left ≤ fn.right) (hfun : IsA t nFun b) : b ≤ line.left := by
  rcases p.picks with ⟨_, _, rfl⟩ | ⟨hlt, _⟩
  · have := (p.fn_result hn hf hfr).right_le hle
    exact (result_of_search p.lineSearch hn (by omega) (by omega)).left_ge hbl (not_of_type hfun (by decide))
  · omega

end

theorem straight_of_line (hres : Result (IsA t nSline) (valueAt t) Stabs.succ lines.left lines.right rel line.left line.right)
    (hs : Ordered t nSline lines.left lines.right) (hin : LineIn t lines rel line.left) (hx : rel < 0xFFFFFFFE) :
    ¬ Stray t nSline lines.left lines.right rel := by
  intro ho
  obtain ⟨b, h1, h2, h3, hb, hbv⟩ := stray_past hres hx ho
  have hle := hs b line.left (by omega) h2 hin.le_right hb hin.isLine
  exact absurd (le_trans hle hin.value_le) (not_le.mpr hbv)

theorem sub_lt_of_le {x y m : Word} (h : y ≤ x) (hx : x < m) : x - y < m := by
  rw [BitVec.lt_def] at hx ⊢
  rw [BitVec.toNat_sub_of_le h]
  omega

theorem succeeds_of_path (hw : WellFormed t) (hp : Plain t addr) (hn : 2 * t.length + 2 ≤ n)
    (inFile : Contains t nSo 0 (t.length - 1) addr file) (hs : ¬ Stray t nSo 0 (t.length - 1) addr)
    (p : Path n t addr file fn lines line rel) (hi : LineOf t addr line.left) : Succeeds t str addr := by
  have hf := inFile.left_ge
  have hfl := inFile.left_le
  have hfr := inFile.right_le
  have hres := p.fn_result hn hf (by omega)
  obtain ⟨g, rel', hof, hin⟩ := hi
  cases hof with
  | @function file' fn' inFile' inFn =>
    cases Contains.eq inFile' inFile
    have hle := left_le_right hres inFn.left_ge inFn.left_le inFn.left_hit
    have hsf : ¬ Stray t nFun file.left file.right addr := fun ho => by
      obtain ⟨b, h1, h2, h3, hb, hbv⟩ := stray_past hres hp.noWrap ho
      have := inFn.right_lt (by omega) hb hbv
      have := p.behind_fn hn hf (by omega) (by omega) h2 hle hb
      have := hin.le_right
      omega
    cases Contains.eq (contains_of_result hres (hw.funs_in inFile) inFn.isLeft hsf) inFn
    have hl := inFn.left_ge
    have hr := inFn.right_le
    rcases p.picks with ⟨_, rfl, rfl⟩ | ⟨hlt, _⟩
    · have hlres := result_of_search p.lineSearch hn (by omega) (by omega)
      exact .function inFile inFn hin hs hsf
        (straight_of_line hlres (hw.lines_in inFile inFn) hin (sub_lt_of_le inFn.left_val hp.noWrap))
    · omega
  | assembly inFile' noFn =>
    cases Contains.eq inFile' inFile
    obtain ⟨h1, h2⟩ := hres.of_noHit noFn
    rcases p.picks with ⟨hle, _⟩ | ⟨_, rfl, rfl⟩
    · omega
    · have hlres := result_of_search p.lineSearch hn hf (by omega)
      have hord := hp.inOrder _ inFile noFn
      exact .assembly inFile noFn hin hord hs (straight_of_line hlres hord hin hp.noWrap)

theorem succeeds_of_tells (hw : WellFormed t) (hp : Plain t addr) (h : TellsLine t str addr) : Succeeds t str addr := by
  by_cases hstr : str.getLast? = some 0
  · obtain ⟨ret, info, hret, hzero, hneg⟩ := h
    obtain ⟨file, hres, hrun⟩ := debuginfoEip_file (t := t) hstr addr
    have hn : 2 * t.length + 2 ≤ 2 * t.length + 2 := Nat.le_refl _
    have heq := (hrun _ hn).symm.trans (hret _ hn)
    -- what is known when it goes on to the function
    have goes : file.left ≠ 0 → ret = 0 ∧ ∃ fn lines line rel, Path (2 * t.length + 2) t addr file fn lines line rel ∧
        LineOf t addr line.left := fun h0 => by
      rw [if_neg h0] at heq
      obtain ⟨rfl, fn, lines, line, rel, p, hline⟩ := describe_inv heq
      obtain ⟨i, hi, hnum⟩ := hzero rfl
      obtain ⟨h1, h2, h3⟩ := findLine_inv hline (by rw [hnum]; exact hp.numbered i hi)
      exact ⟨rfl, fn, lines, line, rel, p, hp.own i line.left hi h1 h2 (h3.trans hnum)⟩
    by_cases habove : ∀ i : Int, 0 ≤ i → i ≤ t.length - 1 → IsA t nSo i → addr < valueAt t i
    · have hlt : ret < 0 := hneg fun i hi => by
        obtain ⟨file', inFile, _⟩ := hi.inFile
        exact absurd (habove _ inFile.left_ge inFile.left_le inFile.left_hit) (not_lt.mpr inFile.left_val)
      have h0 : file.left = 0 := by
        by_contra h0
        have := (goes h0).1
        omega
      apply Succeeds.below habove
      intro hso
      have hlen : 0 < t.length := by
        by_contra hlen
        rw [List.length_eq_zero_iff.mp (show t.length = 0 by omega)] at hso
        exact absurd hso (by decide)
      exact (hres.left_eq_iff habove).mp h0 ⟨by omega, hso⟩
    · push Not at habove
      obtain ⟨e, he⟩ := habove
      by_cases hs : Stray t nSo 0 (t.length - 1) addr
      · obtain ⟨b, h1, h2, h3, hb, hbv⟩ := stray_past (g := ⟨0, t.length - 1⟩) hres hp.noWrap hs
        dsimp only at h1 h3
        obtain ⟨_, fn, lines, line, rel, p, hi⟩ := goes (by omega)
        obtain ⟨file', inFile, hir⟩ := hi.inFile
        have hle := left_le_right (g := ⟨0, t.length - 1⟩) hres he.1 he.2.1 he.2.2.1
        have hr : file.right ≤ t.length - 1 := hres.right_le hle
        have := inFile.right_lt (by omega) hb hbv
        have := p.behind_file hn (by omega) (by omega) (by omega) h2 hb
        omega
      · have inFile := contains_of_result (g := ⟨0, t.length - 1⟩) hres hw.files he hs
        by_cases h0 : file.left = 0
        · exact .first inFile h0 hs
        · obtain ⟨_, fn, lines, line, rel, p, hi⟩ := goes h0
          exact succeeds_of_path hw hp hn inFile hs p hi
  · exact .strings hstr

/-- **The line**: in a well-formed table `debuginfo_eip` tells the line of an address when it succeeds in the sense of
`Succeeds`. Otherwise it does not, unless a stab elsewhere has a line number of the address by chance. -/
theorem debuginfoEip_line (t : List Stab) (hw : WellFormed t) (str : List Byte) (addr : Word) :
    (Succeeds t str addr → TellsLine t str addr) ∧ (Plain t addr → TellsLine t str addr → Succeeds t str addr) :=
  ⟨tells_of_succeeds hw, succeeds_of_tells hw⟩

/-! ## One function -/

theorem index_of_isA {k : Nat} (h : ∀ j < t.length, j ≠ k → (t.getD j default).type ≠ type) (h0 : type ≠ 0) (hk : 0 < k)
    (hi : IsA t type i) : i = k := by
  by_contra hne
  by_cases hlt : i.toNat < t.length
  · exact h i.toNat hlt (by omega) hi
  · unfold IsA stab at hi
    simp only [List.getD_eq_getElem?_getD, List.getElem?_eq_none (not_lt.mp hlt)] at hi
    exact h0 hi.symm

theorem ordered_of_index {k : Nat} (h : ∀ i, IsA t type i → i = k) (l r : Int) : Ordered t type l r := by
  intro i j _ _ _ hi hj
  rw [h i hi, h j hj]

theorem not_stray_of_value {l r : Int} (h : ∀ i, IsA t type i → valueAt t i ≠ addr) : ¬ Stray t type l r addr := by
  rintro (⟨m, _, hm, _⟩ | ⟨_, m, _, hm⟩)
  · exact h m hm.spec.2.2.2.1 hm.spec.2.2.2.2
  · exact h m hm.spec.2.2.2.1 hm.spec.2.2.2.2

def noLine : List Stab := [default, ⟨0, nSo, 0, 0x1000⟩, ⟨0, nFun, 0, 0x1000⟩]

def oneLine : List Stab := noLine ++ [⟨0, nSline, 7, 0⟩]

theorem noLine_types : (∀ i, IsA noLine nSo i → i = 1) ∧ (∀ i, IsA noLine nFun i → i = 2) ∧ ∀ i, ¬ IsA noLine nSline i := by
  refine ⟨fun i => index_of_isA (k := 1) (by decide) (by decide) (by decide),
    fun i => index_of_isA (k := 2) (by decide) (by decide) (by decide), fun i hi => ?_⟩
  have h1 := index_of_isA (k := 1) (by decide) (by decide) (by decide) hi
  have h2 := index_of_isA (k := 2) (by decide) (by decide) (by decide) hi
  omega

theorem oneLine_types : (∀ i, IsA oneLine nSo i → i = 1) ∧ (∀ i, IsA oneLine nFun i → i = 2) ∧ ∀ i, IsA oneLine nSline i → i = 3 :=
  ⟨fun _ => index_of_isA (k := 1) (by decide) (by decide) (by decide),
    fun _ => index_of_isA (k := 2) (by decide) (by decide) (by decide),
    fun _ => index_of_isA (k := 3) (by decide) (by decide) (by decide)⟩

theorem oneLine_wellFormed : WellFormed oneLine :=
  ⟨ordered_of_index (k := 1) oneLine_types.1 _ _, fun l r _ _ _ _ => ordered_of_index (k := 2) oneLine_types.2.1 l r,
    fun l r _ _ _ _ => ordered_of_index (k := 3) oneLine_types.2.2 l r⟩

theorem noLine_wellFormed : WellFormed noLine :=
  ⟨ordered_of_index (k := 1) noLine_types.1 _ _, fun l r _ _ _ _ => ordered_of_index (k := 2) noLine_types.2.1 l r,
    fun _ _ _ _ _ _ i _ _ _ _ hi => absurd hi (noLine_types.2.2 i)⟩

theorem oneLine_straight (l r : Int) : ¬ Stray oneLine nSo l r 0x1004 ∧ ¬ Stray oneLine nFun l r 0x1004 ∧ ¬ Stray oneLine nSline l r 4 := by
  refine ⟨not_stray_of_value fun i hi => ?_, not_stray_of_value fun i hi => ?_, not_stray_of_value fun i hi => ?_⟩
  · rw [oneLine_types.1 i hi]
    decide
  · rw [oneLine_types.2.1 i hi]
    decide
  · rw [oneLine_types.2.2 i hi]
    decide

theorem contains_of_index {k : Nat} {l r : Int} (h : ∀ i, IsA t type i → i = k) (hk : IsA t type k) (hv : valueAt t k ≤ addr)
    (hl : l ≤ k) (hr : k ≤ r) : Contains t type l r addr ⟨k, r⟩ := by
  refine ⟨hl, hr, hk, hv, fun i h1 _ hi => ?_, Or.inl ⟨rfl, fun i _ _ hi => ?_⟩⟩
  · have := h i hi
    dsimp only at h1
    omega
  · rw [h i hi]
    exact hv

theorem debuginfoEip_line_small : TellsLine oneLine [0] 0x1004 := by
  have inFile : Contains oneLine nSo 0 (oneLine.length - 1) 0x1004 ⟨1, 3⟩ :=
    contains_of_index (k := 1) oneLine_types.1 rfl (by decide) (by decide) (by decide)
  have inFn : Contains oneLine nFun 1 3 0x1004 ⟨2, 3⟩ :=
    contains_of_index (k := 2) oneLine_types.2.1 rfl (by decide) (by decide) (by decide)
  apply (debuginfoEip_line oneLine oneLine_wellFormed [0] 0x1004).1
  exact .function (i := 3) inFile inFn ⟨by decide, by decide, rfl, by decide⟩ (oneLine_straight _ _).1
    (oneLine_straight _ _).2.1 (oneLine_straight _ _).2.2

/-- Without a line for the address it returns 0 all the same. -/
theorem debuginfoEip_no_line : ¬ ∀ (t : List Stab) (str : List Byte) (addr : Word), WellFormed t → TellsLine t str addr := by
  intro h
  have none : ∀ i, ¬ LineOf noLine 0x1004 i := fun i ⟨_, _, _, hin⟩ => noLine_types.2.2 i hin.isLine
  have plain : Plain noLine 0x1004 :=
    ⟨by decide, fun i _ hi => absurd hi (none i), fun i hi => absurd hi (none i),
      fun _ _ _ i _ _ _ _ hi => absurd hi (noLine_types.2.2 i)⟩
  cases succeeds_of_tells noLine_wellFormed plain (h noLine [0] 0x1004 noLine_wellFormed) with
  | strings bad => exact bad rfl
  | below above first => exact absurd (above 1 (by decide) (by decide) rfl) (by decide)
  | first inFile zero straight =>
    have h1 := noLine_types.1 _ inFile.left_hit
    omega
  | function inFile inFn line => exact noLine_types.2.2 _ line.isLine
  | assembly inFile noFn line => exact noLine_types.2.2 _ line.isLine

end Jos.Kdebug
