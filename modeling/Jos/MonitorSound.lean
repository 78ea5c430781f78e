import Jos.Monitor
import Jos.Lib.Move
import Jos.Lib.Words
import Jos.CputsSound

/-!
# `runcmd` takes the words of its line

Each separator becomes a NUL when it is gone over, so that a word keeps its place and
gets its end. The loop goes over one word in a turn.
-/

namespace Jos.Monitor

open Access Words

def white (b : Byte) : Bool := [chr '\t', chr '\r', chr '\n', chr ' '].contains b

variable {mem : Memory} {q : Word} {l r rest : List Byte} {argc : Nat} {argv : Argv}

theorem isSpace_eq : ∀ b : Byte, isSpace b = white b := by decide

theorem ne_of_white {b : Byte} (h : white b = true) : b ≠ 0 := by
  rintro rfl
  exact absurd h (by decide)

/-! ## The line in memory -/

def clear (mem : Memory) (q : Word) (l : List Byte) : Memory := fun a =>
  if l[(a - q).toNat]?.any white then some 0 else mem a

theorem clear_out {a : Word} (h : l.length ≤ (a - q).toNat) : clear mem q l a = mem a := by
  rw [clear, List.getElem?_eq_none h]
  exact if_neg (by decide)

theorem clear_seps_cons {b : Byte} (hb : white b = true) (hlen : l.length + 1 < 2 ^ 32) :
    clear mem q (b :: l) = clear (Function.update mem q (some 0)) (q + 1) l := by
  funext a
  by_cases ha : a = q
  · subst ha
    have hwrap : (a - (a + 1)).toNat = 2 ^ 32 - 1 := by
      rw [← BitVec.sub_sub, BitVec.sub_self]
      rfl
    rw [clear_out (q := a + 1) (by omega), clear, BitVec.sub_self, Function.update_self]
    exact if_pos (by simpa using hb)
  · rw [clear, clear, ← sub_succ_toNat ha, List.getElem?_cons_succ, Function.update_of_ne ha]

theorem clear_word (h : ∀ b ∈ l, white b = false) : clear mem q l = mem := by
  funext a
  refine if_neg ?_
  cases hl : l[(a - q).toNat]? with
  | none => decide
  | some b => simp [h b (List.mem_of_getElem? hl)]

theorem clear_append (hlen : l.length + r.length ≤ 2 ^ 32) :
    clear mem q (l ++ r) = clear (clear mem q l) (q + BitVec.ofNat 32 l.length) r := by
  funext a
  unfold clear
  rw [← BitVec.sub_sub]
  rcases Nat.lt_or_ge (a - q).toNat l.length with hlt | hge
  · rw [List.getElem?_append_left hlt, List.getElem?_eq_none (Move.sub_add_lt hlt hlen)]
    rfl
  · rw [List.getElem?_append_right hge, Move.toNat_sub_ofNat hge, List.getElem?_eq_none hge]
    rfl

theorem clear_first {s w : List Byte} (hw : ∀ b ∈ w, white b = false) (hlen : (s ++ (w ++ r)).length ≤ 2 ^ 32) :
    clear mem q (s ++ (w ++ r)) =
      clear (clear mem q s) (q + BitVec.ofNat 32 s.length + BitVec.ofNat 32 w.length) r := by
  rw [List.length_append, List.length_append] at hlen
  rw [clear_append (by rw [List.length_append]; omega), clear_append (by omega), clear_word hw]

theorem Holds.head (h : Fmt.Holds mem q l) : mem q = some (l.headD 0) := by
  cases l with
  | nil => exact h
  | cons b l => exact h.1

theorem Holds.congr {mem' : Memory} (h : Fmt.Holds mem q l) (hm : ∀ i ≤ l.length, mem' (q + BitVec.ofNat 32 i) =
    mem (q + BitVec.ofNat 32 i)) : Fmt.Holds mem' q l := by
  refine Fmt.holds_of_get ((hm _ (Nat.le_refl _)).trans h.stop) fun i hi => ?_
  rw [hm i (Nat.le_of_lt hi), h.get hi]

theorem Holds.after (h : Fmt.Holds mem q (l ++ r)) : Fmt.Holds mem (q + BitVec.ofNat 32 l.length) r := by
  have hd := h.drop (k := l.length) (by simp)
  rwa [List.drop_left] at hd

theorem Holds.clear (h : Fmt.Holds mem q (l ++ r)) (hlen : (l ++ r).length < 2 ^ 32) :
    Fmt.Holds (clear mem q l) (q + BitVec.ofNat 32 l.length) r := by
  rw [List.length_append] at hlen
  refine Holds.congr (Holds.after h) fun i hi => clear_out ?_
  rw [BitVec.add_assoc, ← BitVec.ofNat_add, sub_ofNat q (by omega)]
  omega

/-! ## One word -/

theorem gobble_settles (hl : ∀ b ∈ l, white b = true) (hr : white (r.headD 0) = false) (h : Fmt.Holds mem q (l ++ r))
    (hlen : (l ++ r).length < 2 ^ 32) :
    Settles (fun n => gobble n q mem) (.ok (q + BitVec.ofNat 32 l.length, clear mem q l)) := by
  induction l generalizing mem q with
  | nil =>
    refine Settles.step (Settles.const _) fun n => ?_
    have hn : ¬ white (([] ++ r).headD 0) = true := by
      rw [List.nil_append, hr]
      decide
    rw [gobble, load_some (Holds.head h), ok_then, isSpace_eq, if_neg (fun hc => hn hc.2),
      clear_word (l := []) (fun b hb => absurd hb List.not_mem_nil), List.length_nil, BitVec.add_zero]
  | cons b l ih =>
    have hb := hl b List.mem_cons_self
    rw [List.cons_append, List.length_cons, List.length_append] at hlen
    have hst : store mem q 0 = .ok (Function.update mem q (some 0)) :=
      store_some (by rw [h.1]; exact Option.some_ne_none b) 0
    have h1 : Fmt.Holds (Function.update mem q (some 0)) (q + 1) (l ++ r) := by
      refine Holds.congr h.2 fun i hi => Function.update_of_ne ?_ _ _
      rw [List.length_append] at hi
      have hne := add_ofNat_ne q (j := i + 1) (k := 0) (by omega) (by omega) (by omega)
      rwa [BitVec.add_zero, ← add_ofNat_succ] at hne
    rw [List.length_cons, ← add_ofNat_succ, clear_seps_cons hb (by omega)]
    have hl' : ∀ c ∈ l, white c = true := fun c hc => hl c (List.mem_cons_of_mem b hc)
    refine Settles.step (ih hl' h1 (by rw [List.length_append]; omega)) fun n => ?_
    rw [gobble, load_some h.1, ok_then, isSpace_eq, if_pos ⟨ne_of_white hb, hb⟩, hst, ok_then]

theorem scanArg_settles (hl : ∀ b ∈ l, white b = false) (hz : 0 ∉ l) (hr : ∀ b ∈ r.head?, white b = true)
    (h : Fmt.Holds mem q (l ++ r)) : Settles (fun n => scanArg mem n q) (.ok (q + BitVec.ofNat 32 l.length)) := by
  induction l generalizing q with
  | nil =>
    refine Settles.step (Settles.const _) fun n => ?_
    rw [scanArg, load_some (Holds.head h), ok_then, isSpace_eq, List.length_nil, BitVec.add_zero]
    refine if_neg ?_
    cases r with
    | nil => exact fun hc => hc.1 rfl
    | cons b r => exact fun hc => hc.2 (hr b rfl)
  | cons b l ih =>
    rw [List.length_cons, ← add_ofNat_succ]
    have hl' : ∀ c ∈ l, white c = false := fun c hc => hl c (List.mem_cons_of_mem b hc)
    refine Settles.step (ih hl' (mt (List.mem_cons_of_mem b) hz) h.2) fun n => ?_
    have hb : ¬ white b = true := by simp [hl b List.mem_cons_self]
    rw [scanArg, load_some h.1, ok_then, isSpace_eq, if_pos ⟨fun h0 => hz (h0 ▸ List.mem_cons_self), hb⟩]

/-! ## All words -/

def fill (argv : Argv) (i : Nat) : List Word → Argv
  | [] => argv
  | p :: ps => fill (Function.update argv i p) (i + 1) ps

theorem fill_before {ps : List Word} {i j : Nat} (h : j < i) : fill argv i ps j = argv j := by
  induction ps generalizing argv i with
  | nil => rfl
  | cons p ps ih => rw [fill, ih (by omega), Function.update_of_ne (by omega)]

theorem fill_get (argv : Argv) (i : Nat) (ps : List Word) {k : Nat} (hk : k < ps.length) :
    fill argv i ps (i + k) = ps[k] := by
  induction ps generalizing argv i k with
  | nil => exact absurd hk (Nat.not_lt_zero k)
  | cons p ps ih =>
    cases k with
    | zero => rw [fill, fill_before (by omega), Nat.add_zero, Function.update_self, List.getElem_cons_zero]
    | succ k =>
      rw [fill, show i + (k + 1) = i + 1 + k by omega, ih _ _ (Nat.lt_of_succ_lt_succ hk), List.getElem_cons_succ]

section
variable {x : Except Fault (Memory × Option (Nat × Argv))} (hl : ∀ b ∈ l, white b = true) (h : Fmt.Holds mem q (l ++ r))
  (hlen : (l ++ r).length < 2 ^ 32)
include hl h hlen

theorem parseArgs_gobbled (hr : white (r.headD 0) = false)
    (hx : Settles (fun n =>
      if r.headD 0 = 0 then .ok (clear mem q l, some (argc, argv))
      else if argc = maxargs - 1 then .ok (clear mem q l, none)
      else do
        let argv ← setArg argv argc (q + BitVec.ofNat 32 l.length)
        let buf ← scanArg (clear mem q l) n (q + BitVec.ofNat 32 l.length)
        parseArgs n buf (clear mem q l) (argc + 1) argv) x) :
    Settles (fun n => parseArgs n q mem argc argv) x := by
  refine Settles.step (Settles.bind (gobble_settles hl hr h hlen) ?_) fun n => by rw [parseArgs]
  dsimp only
  refine Settles.congr hx fun n => ?_
  rw [load_some (Holds.head (Holds.clear h hlen)), ok_then]

theorem parseArgs_end (hr : r = []) :
    Settles (fun n => parseArgs n q mem argc argv) (.ok (clear mem q l, some (argc, argv))) := by
  subst hr
  exact parseArgs_gobbled hl h hlen (by decide) (Settles.congr (Settles.const _) fun n => if_pos rfl)

variable {b : Byte} (hb : r.head? = some b) (hz : b ≠ 0) (hw : white b = false)
include hb hz hw

theorem parseArgs_full (hfull : argc = maxargs - 1) :
    Settles (fun n => parseArgs n q mem argc argv) (.ok (clear mem q l, none)) := by
  have hd : r.headD 0 = b := by rw [List.headD_eq_head?_getD, hb, Option.getD_some]
  refine parseArgs_gobbled hl h hlen (by rw [hd, hw]) (Settles.congr (Settles.const _) fun n => ?_)
  rw [hd, if_neg hz, if_pos hfull]

theorem parseArgs_next (argv : Argv) (hroom : argc < maxargs - 1) {buf : Word}
    (hscan : Settles (fun n => scanArg (clear mem q l) n (q + BitVec.ofNat 32 l.length)) (.ok buf))
    (hx : Settles (fun n => parseArgs n buf (clear mem q l) (argc + 1)
      (Function.update argv argc (q + BitVec.ofNat 32 l.length))) x) :
    Settles (fun n => parseArgs n q mem argc argv) x := by
  have hd : r.headD 0 = b := by rw [List.headD_eq_head?_getD, hb, Option.getD_some]
  have hbind := Settles.bind (g := fun n buf => parseArgs n buf (clear mem q l) (argc + 1)
    (Function.update argv argc (q + BitVec.ofNat 32 l.length))) hscan hx
  refine parseArgs_gobbled hl h hlen (by rw [hd, hw]) (Settles.congr hbind fun n => ?_)
  rw [hd, if_neg hz, if_neg (by omega), setArg, if_pos (by omega), ok_then]

end

theorem parseArgs_settles (hz : 0 ∉ rest) (hlen : rest.length < 2 ^ 32) (h : Fmt.Holds mem q rest)
    (argc : Nat) (argv : Argv) (hargc : argc ≤ maxargs - 1) :
    (argc + (starts white rest).length ≤ maxargs - 1 → Settles (fun n => parseArgs n q mem argc argv)
      (.ok (clear mem q rest, some (argc + (starts white rest).length,
        fill argv argc ((starts white rest).map fun i => q + BitVec.ofNat 32 i))))) ∧
    (maxargs - 1 < argc + (starts white rest).length →
      ∃ k, Settles (fun n => parseArgs n q mem argc argv) (.ok (clear mem q (rest.take k), none))) := by
  induction rest using Words.induct white generalizing mem q argc argv with
  | seps l hl =>
    rw [starts_seps hl]
    refine ⟨fun _ => ?_, fun hc => ?_⟩
    · rw [← List.append_nil l] at h hlen
      exact parseArgs_end hl h hlen rfl
    · rw [List.length_nil] at hc
      omega
  | word s w r hs hw hne hr ih =>
    obtain ⟨b, hb⟩ : ∃ b, (w ++ r).head? = some b ∧ b ∈ w := by
      obtain ⟨b, w, rfl⟩ := List.exists_cons_of_ne_nil hne
      exact ⟨b, rfl, List.mem_cons_self⟩
    have hall := hlen
    rw [List.mem_append, List.mem_append, not_or, not_or] at hz
    rw [List.length_append, List.length_append] at hlen
    have hb0 : b ≠ 0 := fun h0 => hz.2.1 (h0 ▸ hb.2)
    have hh := Holds.clear h hall
    rw [starts_first hs hw hne hr, List.length_cons, List.length_map]
    rcases Nat.lt_or_ge argc (maxargs - 1) with hroom | hfull
    · have hnext := fun x => parseArgs_next (x := x) hs h hall hb.1 hb0 (hw b hb.2) argv hroom
        (scanArg_settles hw hz.2.1 hr hh)
      obtain ⟨ih1, ih2⟩ := ih hz.2.2 (by omega) (Holds.after hh) (argc + 1)
        (Function.update argv argc (q + BitVec.ofNat 32 s.length)) (by omega)
      refine ⟨fun hc => ?_, fun hc => ?_⟩
      · have hps : (starts white r).map (q + BitVec.ofNat 32 s.length + BitVec.ofNat 32 w.length + BitVec.ofNat 32 ·) =
            ((starts white r).map (s.length + w.length + ·)).map fun i => q + BitVec.ofNat 32 i := by
          rw [List.map_map]
          exact List.map_congr_left fun i _ => by simp only [Function.comp, BitVec.ofNat_add, BitVec.add_assoc]
        rw [clear_first hw (Nat.le_of_lt hall), List.map_cons, fill, ← hps, ← Nat.add_assoc, Nat.add_right_comm]
        exact hnext _ (ih1 (by omega))
      · obtain ⟨k, hk⟩ := ih2 (by omega)
        refine ⟨s.length + (w.length + k), ?_⟩
        rw [List.take_length_add_append, List.take_length_add_append, clear_first hw
          (by simp only [List.length_append, List.length_take]; omega)]
        exact hnext _ hk
    · refine ⟨fun hc => by omega, fun _ => ⟨s.length, ?_⟩⟩
      rw [List.take_left]
      exact parseArgs_full hs h hall hb.1 hb0 (hw b hb.2) (by omega)

/-! ## The words have their ends -/

theorem holds_clear (h : Fmt.Holds mem q l) (hlen : l.length < 2 ^ 32) :
    Fmt.Holds (clear mem q l) q (l.map fun b => if white b then 0 else b) := by
  refine Fmt.holds_of_get ?_ fun i hi => ?_
  · rw [List.length_map, clear_out (by rw [sub_ofNat q hlen]), h.stop]
  · rw [List.length_map] at hi
    rw [clear, sub_ofNat q (by omega), List.getElem?_eq_getElem hi, List.getElem_map, h.get hi, Option.any_some]
    split <;> rfl

theorem holds_takeWhile (h : Fmt.Holds mem q (l.map fun b => if white b then 0 else b)) :
    Fmt.Holds mem q (l.takeWhile (!white ·)) := by
  induction l generalizing q with
  | nil => exact h
  | cons b l ih =>
    have h0 : mem q = some (if white b then 0 else b) := h.1
    cases hb : white b with
    | true =>
      rw [List.takeWhile_cons_of_neg (by simp [hb])]
      rwa [hb] at h0
    | false =>
      rw [List.takeWhile_cons_of_pos (by simp [hb])]
      rw [hb] at h0
      exact ⟨h0, ih h.2⟩

theorem holds_word (h : Fmt.Holds mem q l) (hlen : l.length < 2 ^ 32) {i : Nat} (hi : i ≤ l.length) :
    Fmt.Holds (clear mem q l) (q + BitVec.ofNat 32 i) (word white l i) := by
  have hd := (holds_clear h hlen).drop (k := i) (by rwa [List.length_map])
  rw [← List.map_drop] at hd
  exact holds_takeWhile hd

/-! ## The command -/

theorem sub_eq_zero_iff (b c : Byte) : (b.setWidth 32 - c.setWidth 32 : Word) = 0 ↔ b = c := by
  constructor
  · intro h
    have he := congrArg (BitVec.setWidth 8) ((BitVec.sub_eq_iff_eq_add.mp h).trans (BitVec.zero_add _))
    rwa [BitVec.setWidth_setWidth_of_le _ (by decide), BitVec.setWidth_setWidth_of_le _ (by decide), BitVec.setWidth_eq,
      BitVec.setWidth_eq] at he
  · rintro rfl
    exact BitVec.sub_self _

theorem strcmp_iff {w name : List Byte} (h : Fmt.Holds mem q w) (hw : 0 ∉ w) (hname : 0 ∉ name) :
    ∃ v, strcmp mem q name = .ok v ∧ (v = 0 ↔ w = name) := by
  induction name generalizing q w with
  | nil =>
    cases w with
    | nil => exact ⟨0, by rw [strcmp, load_some h]; rfl, iff_of_true rfl rfl⟩
    | cons b w =>
      have hs : strcmp mem q [] = .ok (b.setWidth 32 - 0) := by
        rw [strcmp, load_some h.1]
        rfl
      refine ⟨_, hs, iff_of_false (fun hv => hw ?_) (List.cons_ne_nil _ _)⟩
      rw [(sub_eq_zero_iff b 0).mp hv]
      exact List.mem_cons_self
  | cons c name ih =>
    cases w with
    | nil =>
      refine ⟨(0 : Byte).setWidth 32 - c.setWidth 32, ?_, iff_of_false (fun hv => hname ?_) (List.cons_ne_nil _ _).symm⟩
      · rw [strcmp, load_some h]
        rfl
      · rw [(sub_eq_zero_iff 0 c).mp hv]
        exact List.mem_cons_self
    | cons b w =>
      have hb : b ≠ 0 := fun h0 => hw (h0 ▸ List.mem_cons_self)
      rw [strcmp, load_some h.1, ok_then]
      by_cases hbc : b = c
      · obtain ⟨v, hv, hiff⟩ := ih h.2 (mt (List.mem_cons_of_mem b) hw) (mt (List.mem_cons_of_mem c) hname)
        refine ⟨v, by rw [if_pos ⟨hb, hbc⟩, hv], ?_⟩
        rw [hiff, hbc, List.cons_inj_right]
      · refine ⟨_, if_neg (fun h => hbc h.2), ?_⟩
        rw [sub_eq_zero_iff]
        exact iff_of_false hbc fun he => hbc (List.cons.inj he).1

theorem lookup_eq {w : List Byte} (h : Fmt.Holds mem (argv 0) w) (hw : 0 ∉ w) (cs : List Command) :
    lookup mem argc argv cs = .ok (match cs.find? (·.name.bytes = w) with
      | some c => .calls c.func argc argv
      | none => .prints (.lit "Unknown command '%s'\n") [.ptr (argv 0)]) := by
  induction cs with
  | nil => rfl
  | cons c cs ih =>
    obtain ⟨v, hv, hiff⟩ := strcmp_iff h hw (fun h0 => c.name.nonzero 0 h0 rfl)
    rw [lookup, hv, ok_then, List.find?_cons]
    by_cases hc : c.name.bytes = w
    · rw [if_pos (hiff.mpr hc.symm), decide_eq_true hc]
    · rw [if_neg (fun h0 => hc (hiff.mp h0).symm), decide_eq_false hc, ih]

theorem commands_inj : ∀ c ∈ commands, ∀ d ∈ commands, c.name.bytes = d.name.bytes ↔ c.func = d.func := by decide

theorem lookup_iff {w : List Byte} (h : Fmt.Holds mem (argv 0) w) (hw : 0 ∉ w) (argc : Nat) :
    ∃ does, lookup mem argc argv commands = .ok does ∧ (∀ f a v, does = .calls f a v → a = argc ∧ v = argv) ∧
      ∀ c ∈ commands, (∃ a v, does = .calls c.func a v) ↔ w = c.name.bytes := by
  refine ⟨_, lookup_eq h hw commands, ?_, fun c hc => ?_⟩
  · intro f a v he
    split at he <;> cases he
    exact ⟨rfl, rfl⟩
  · split
    · next d hd =>
      have hdw : d.name.bytes = w := by simpa using List.find?_some hd
      rw [← hdw, commands_inj d (List.mem_of_find?_eq_some hd) c hc]
      constructor
      · rintro ⟨a, v, he⟩
        exact (Does.calls.inj he).1
      · intro he
        exact ⟨argc, argv, by rw [he]⟩
    · next hn =>
      refine iff_of_false (fun ⟨a, v, he⟩ => by cases he) fun he => ?_
      exact of_decide_eq_false (by simpa using List.find?_eq_none.mp hn c hc) he.symm

/-! ## The whole -/

section
variable {p : Word} {line : CStr} (h : Fmt.Holds mem p line.bytes)

/-- `argv` has the words of the line at `p`, each with its end, and a NULL behind them. -/
structure Args (p : Word) (line : List Byte) (mem : Memory) (argc : Nat) (argv : Argv) : Prop where
  count : argc = (wordsOf white line).length
  arg : ∀ k i, (starts white line)[k]? = some i →
    argv k = p + BitVec.ofNat 32 i ∧ Fmt.Holds mem (argv k) (word white line i)
  null : argv argc = 0

theorem setArg_zero (argv : Argv) (p : Word) : setArg argv 0 p = .ok (Function.update argv 0 p) := if_pos (by decide)

theorem parse_none {mem' : Memory}
    (hloop : Settles (fun n => parseArgs n p mem 0 (Function.update argv 0 0)) (.ok (mem', none))) :
    Settles (fun n => parse n p mem argv) (.ok (mem', none)) := by
  refine hloop.use fun n hn => ?_
  unfold parse
  dsimp only
  rw [setArg_zero, ok_then, hn]
  rfl

theorem parse_some {mem' : Memory} {argv' argv₁ : Argv}
    (hloop : Settles (fun n => parseArgs n p mem 0 (Function.update argv 0 0)) (.ok (mem', some (argc, argv'))))
    (hset : setArg argv' argc 0 = .ok argv₁) :
    Settles (fun n => parse n p mem argv) (.ok (mem', some (argc, argv₁))) := by
  refine hloop.use fun n hn => ?_
  unfold parse
  dsimp only
  rw [setArg_zero, ok_then, hn, ok_then]
  dsimp only
  rw [hset]
  rfl

include h

theorem parse_few (argv : Argv) (hfew : (wordsOf white line.bytes).length ≤ maxargs - 1) : ∃ argc argv',
    Settles (fun n => parse n p mem argv) (.ok (clear mem p line.bytes, some (argc, argv'))) ∧
      Args p line.bytes (clear mem p line.bytes) argc argv' := by
  have hlen := h.length_lt
  have hz : 0 ∉ line.bytes := fun h0 => line.nonzero 0 h0 rfl
  rw [wordsOf, List.length_map] at hfew
  have hloop := (parseArgs_settles hz hlen h 0 (Function.update argv 0 0) (Nat.zero_le _)).1 (by omega)
  rw [Nat.zero_add] at hloop
  have hset (argv : Argv) : setArg argv (starts white line.bytes).length 0 =
      .ok (Function.update argv (starts white line.bytes).length 0) := if_pos (Nat.lt_succ_of_le hfew)
  refine ⟨_, _, parse_some hloop (hset _), ?_, fun k i hk => ?_, Function.update_self _ _ _⟩
  · rw [wordsOf, List.length_map]
  · obtain ⟨hlt, rfl⟩ := List.getElem?_eq_some_iff.mp hk
    have hget := fill_get (Function.update argv 0 0) 0 (k := k)
      ((starts white line.bytes).map fun i => p + BitVec.ofNat 32 i) (by rwa [List.length_map])
    rw [Nat.zero_add, List.getElem_map] at hget
    have hi : (starts white line.bytes)[k] < line.bytes.length :=
      List.mem_range.mp (List.mem_filter.mp (List.getElem_mem hlt)).1
    rw [Function.update_of_ne (Nat.ne_of_lt hlt), hget]
    exact ⟨rfl, holds_word h hlen (Nat.le_of_lt hi)⟩

theorem parse_many (argv : Argv) (hmany : maxargs - 1 < (wordsOf white line.bytes).length) :
    ∃ k, Settles (fun n => parse n p mem argv) (.ok (clear mem p (line.bytes.take k), none)) := by
  have hz : 0 ∉ line.bytes := fun h0 => line.nonzero 0 h0 rfl
  rw [wordsOf, List.length_map] at hmany
  obtain ⟨k, hk⟩ := (parseArgs_settles hz h.length_lt h 0 (Function.update argv 0 0) (Nat.zero_le _)).2
    (by rwa [Nat.zero_add])
  exact ⟨k, parse_none hk⟩

/-- **`runcmd`** comes to an end with nothing changed but the line. If the words fit, `argv` has them and the command
is run that the first of them names; else none is run. -/
theorem runcmd_words (argv : Argv) : ∃ mem' : Memory, (∀ a, line.bytes.length ≤ (a - p).toNat → mem' a = mem a) ∧
    if (wordsOf white line.bytes).length ≤ maxargs - 1 then
      ∃ argc argv' does, Settles (fun n => parse n p mem argv) (.ok (mem', some (argc, argv'))) ∧
        Args p line.bytes mem' argc argv' ∧ Settles (fun n => runcmd n p mem argv) (.ok (does, mem')) ∧
        (∀ f a v, does = .calls f a v → a = argc ∧ v = argv') ∧
        ∀ c ∈ commands, (∃ a v, does = .calls c.func a v) ↔ (wordsOf white line.bytes).head? = some c.name.bytes
    else
      Settles (fun n => parse n p mem argv) (.ok (mem', none)) ∧
        Settles (fun n => runcmd n p mem argv)
          (.ok (.prints (.lit "Too many arguments (max %d)\n") [.int (BitVec.ofNat 32 maxargs)], mem')) := by
  split
  · next hfew =>
    obtain ⟨argc, argv', hparse, hargs⟩ := parse_few h argv hfew
    refine ⟨_, fun a ha => clear_out ha, argc, argv', ?_⟩
    cases hst : starts white line.bytes with
    | nil =>
      refine ⟨.nothing, hparse, hargs, hparse.use fun n hn => ?_, nofun, fun c _ => ?_⟩
      · have h0 : argc = 0 := by rw [hargs.count, wordsOf, hst, List.map_nil, List.length_nil]
        rw [runcmd, hn, ok_then]
        exact if_pos h0
      · rw [wordsOf, hst, List.map_nil, List.head?_nil]
        exact iff_of_false nofun nofun
    | cons i is =>
      obtain ⟨_, hword⟩ := hargs.arg 0 i (by rw [hst]; rfl)
      have hw : 0 ∉ word white line.bytes i := fun h0 =>
        line.nonzero 0 (List.mem_of_mem_drop ((List.takeWhile_prefix _).mem h0)) rfl
      obtain ⟨does, hdoes, hcall, hiff⟩ := lookup_iff hword hw argc
      refine ⟨does, hparse, hargs, hparse.use fun n hn => ?_, hcall, fun c hc => ?_⟩
      · have h0 : argc ≠ 0 := by rw [hargs.count, wordsOf, hst]; exact Nat.succ_ne_zero _
        rw [runcmd, hn, ok_then]
        dsimp only
        rw [if_neg h0, hdoes]
        rfl
      · rw [hiff c hc, wordsOf, hst, List.map_cons, List.head?_cons, Option.some_inj]
  · next hmany =>
    obtain ⟨k, hparse⟩ := parse_many h argv (Nat.lt_of_not_le hmany)
    refine ⟨_, fun a ha => clear_out ?_, hparse, hparse.use fun n hn => ?_⟩
    · exact Nat.le_trans (List.length_take_le' _ _) ha
    · rw [runcmd, hn, ok_then]

end

def helpLine : CStr := .lit " help \tme "

theorem runcmd_small : ∃ mem' argc argv' does, (∀ a, helpLine.bytes.length ≤ (a - 0x1000 : Word).toNat →
      mem' a = Fmt.bytesAt 0x1000 (helpLine.bytes ++ [0]) a) ∧
    Args 0x1000 helpLine.bytes mem' argc argv' ∧
    Settles (fun n => runcmd n 0x1000 (Fmt.bytesAt 0x1000 (helpLine.bytes ++ [0])) fun _ => 0xF0F0) (.ok (does, mem')) ∧
    ∃ a v, does = .calls .monHelp a v := by
  have hheld : Fmt.Holds (Fmt.bytesAt 0x1000 (helpLine.bytes ++ [0])) 0x1000 helpLine.bytes :=
    Fmt.holds_bytesAt 0x1000 (by decide)
  obtain ⟨mem', hframe, hrun⟩ := runcmd_words hheld (fun _ => 0xF0F0)
  rw [if_pos (by decide)] at hrun
  obtain ⟨argc, argv', does, _, hargs, hruns, _, hiff⟩ := hrun
  have hhelp := hiff ⟨.lit "help", .monHelp⟩ List.mem_cons_self
  exact ⟨mem', argc, argv', does, hframe, hargs, hruns, hhelp.mpr (by decide)⟩

end Jos.Monitor
