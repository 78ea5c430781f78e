import Jos.BoardSound
import Jos.SessionSound

/-!
# From the devices to the monitor

While the buffer has room for what each poll finds, `getchar` returns what the devices
deliver, in order. So a text that is typed at the keyboard is what `getchar` returns,
however its codes are spread over the polls, and a session with the monitor is one with
the two devices.
-/

namespace Jos

namespace Kbd

theorem burst_append (bs bs' : List Byte) (s : Word) :
    burst (bs ++ bs') s = (burst bs s).bind fun r => (burst bs' r.2).map fun r' => (r.1 ++ r'.1, r'.2) := by
  induction bs generalizing s with
  | nil =>
    rw [List.nil_append, burst, Option.bind_some]
    exact (congrFun Option.map_id _).symm
  | cons b bs ih =>
    rw [List.cons_append, burst, burst]
    dsimp only
    split
    · rfl
    · rw [ih]
      cases burst bs (kbdProcData kbsDib b s).shift with
      | none => rfl
      | some r =>
        dsimp only [Option.bind_eq_bind, Option.bind_some]
        cases burst bs' r.2 <;> rfl

end Kbd

namespace Port

open Readline (getchars)

def arrivals (serialExists : Bool) : Word → List Poll → Option (List (List Byte))
  | _, [] => some []
  | shift, p :: ps => do
    let (chars, shift) ← Kbd.burst p.codes shift
    let rest ← arrivals serialExists shift ps
    some (Cons.stored (Cons.polled serialExists p.serial chars) :: rest)

def backlog : Nat → List Nat → Option Nat
  | n, [] => some n
  | n, a :: as => if n + a < consbufsize then backlog (n + a - 1) as else none

def got (c : Byte) : List Byte := if c = 0 then [] else [c]

def wide (cs : List Byte) : List Word := cs.map (·.setWidth 32)

theorem getchars_cons (c : Byte) (calls : List Word) : getchars (c.setWidth 32 :: calls) = wide (got c) ++ getchars calls := by
  by_cases hc : c = 0
  · rw [hc, got, if_pos rfl]
    rfl
  · have hw : c.setWidth 32 ≠ 0 := fun h => hc (by simpa using congrArg (BitVec.setWidth 8) h)
    rw [getchars, if_neg hw, got, if_neg hc]
    rfl

theorem wide_append (a b : List Byte) : wide (a ++ b) = wide a ++ wide b := List.map_append

theorem wide_inj {a b : List Byte} (h : wide a = wide b) : a = b := by
  refine List.map_injective_iff.mpr (fun c d hcd => ?_) h
  simpa using congrArg (BitVec.setWidth 8) hcd

section
variable {e : Bool} {s : Word} {p : Poll} {ps : List Poll} {ls : List (List Byte)}

theorem arrivals_cons (h : arrivals e s (p :: ps) = some ls) : ∃ chars shift rest, Kbd.burst p.codes s = some (chars, shift) ∧
    arrivals e shift ps = some rest ∧ ls = Cons.stored (Cons.polled e p.serial chars) :: rest := by
  rw [arrivals] at h
  cases hb : Kbd.burst p.codes s with
  | none =>
    rw [hb] at h
    cases h
  | some r =>
    obtain ⟨chars, shift⟩ := r
    rw [hb] at h
    cases hr : arrivals e shift ps with
    | none =>
      dsimp only [Option.bind_eq_bind, Option.bind_some] at h
      rw [hr] at h
      cases h
    | some rest =>
      dsimp only [Option.bind_eq_bind, Option.bind_some] at h
      rw [hr] at h
      cases h
      exact ⟨chars, shift, rest, rfl, hr, rfl⟩

theorem backlog_cons {n a r : Nat} {as : List Nat} (h : backlog n (a :: as) = some r) :
    n + a < consbufsize ∧ backlog (n + a - 1) as = some r := by
  rw [backlog] at h
  split at h
  · next hlt => exact ⟨hlt, h⟩
  · cases h

end

section
variable {e : Bool} {x : Port} {q : List Byte}

theorem consGetc_poll (hq : x.cons.Pending q) (hz : ∀ b ∈ q, b ≠ 0) {p : Poll} {chars : List Byte} {shift : Word}
    (hb : Kbd.burst p.codes x.shift = some (chars, shift))
    (hroom : (q ++ Cons.stored (Cons.polled e p.serial chars)).length < consbufsize) : ∃ c y q', consGetc e x p = some (c, y) ∧
      y.shift = shift ∧ y.cons.Pending q' ∧ (∀ b ∈ q', b ≠ 0) ∧
      q'.length = (q ++ Cons.stored (Cons.polled e p.serial chars)).length - 1 ∧
      got c ++ q' = q ++ Cons.stored (Cons.polled e p.serial chars) := by
  have hp := Cons.consIntr_pending hq hroom
  have hnz : ∀ b ∈ q ++ Cons.stored (Cons.polled e p.serial chars), b ≠ 0 := by
    intro b hb
    rcases List.mem_append.mp hb with hb | hb
    · exact hz b hb
    · exact Cons.ne_zero_of_mem_stored hb
  have hget : consGetc e x p = some ((Cons.take (x.cons.consIntr (Cons.polled e p.serial chars))).1,
      ⟨(Cons.take (x.cons.consIntr (Cons.polled e p.serial chars))).2, shift⟩) := by
    rw [consGetc, hb]
    dsimp only [Option.bind_eq_bind, Option.bind_some]
    rw [Cons.consGetc_eq]
  cases hall : q ++ Cons.stored (Cons.polled e p.serial chars) with
  | nil =>
    rw [hall] at hp
    rw [Cons.take_nil hp] at hget
    exact ⟨0, _, [], hget, rfl, hp, fun _ hb => absurd hb List.not_mem_nil, rfl, rfl⟩
  | cons c q' =>
    rw [hall] at hp hnz
    obtain ⟨hc, hq'⟩ := Cons.take_cons hp
    rw [hc] at hget
    refine ⟨c, _, q', hget, rfl, hq', fun b hb => hnz b (List.mem_cons_of_mem _ hb), rfl, ?_⟩
    rw [got, if_neg (hnz c List.mem_cons_self)]
    rfl

theorem polls_arrivals (hq : x.cons.Pending q) (hz : ∀ b ∈ q, b ≠ 0) {ps : List Poll} {ls : List (List Byte)}
    (ha : arrivals e x.shift ps = some ls) {n : Nat} (hb : backlog q.length (ls.map List.length) = some n) : ∃ calls y q',
      polls e x ps = some (calls, y) ∧ y.cons.Pending q' ∧ q'.length = n ∧
      getchars calls ++ wide q' = wide (q ++ ls.flatten) := by
  induction ps generalizing x q ls with
  | nil =>
    cases ha
    cases hb
    exact ⟨[], x, q, rfl, hq, rfl, by rw [List.flatten_nil, List.append_nil]; rfl⟩
  | cons p ps ih =>
    obtain ⟨chars, shift, rest, hburst, hrest, rfl⟩ := arrivals_cons ha
    rw [List.map_cons] at hb
    obtain ⟨hroom, hb⟩ := backlog_cons hb
    rw [← List.length_append] at hroom hb
    obtain ⟨c, y, q₁, hget, hshift, hq₁, hz₁, hlen, hgot⟩ := consGetc_poll hq hz hburst hroom
    rw [← hlen] at hb
    rw [← hshift] at hrest
    obtain ⟨calls, z, q', hpolls, hq', hn, heq⟩ := ih hq₁ hz₁ hrest hb
    refine ⟨c.setWidth 32 :: calls, z, q', ?_, hq', hn, ?_⟩
    · rw [polls, hget]
      dsimp only [Option.bind_eq_bind, Option.bind_some]
      rw [hpolls]
      rfl
    · rw [getchars_cons, List.append_assoc, heq, ← wide_append, ← List.append_assoc, hgot, List.flatten_cons, List.append_assoc]

end

/-! ## A text at the keyboard -/

def Quiet (serialExists : Bool) (ps : List Poll) : Prop := ∀ p ∈ ps, serialExists = true → p.serial = []

theorem polled_quiet {e : Bool} {serial : List Byte} (h : e = true → serial = []) (kbd : List Byte) :
    Cons.polled e serial kbd = kbd := by
  rw [Cons.polled]
  split
  · next he =>
    rw [h he]
    rfl
  · rfl

theorem arrivals_quiet {e : Bool} {ps : List Poll} (hquiet : Quiet e ps) {s s' : Word} {l : List Byte}
    (h : Kbd.burst (ps.flatMap Poll.codes) s = some (l, s')) : ∃ ls, arrivals e s ps = some ls ∧ ls.flatten = Cons.stored l := by
  induction ps generalizing s l with
  | nil =>
    cases h
    exact ⟨[], rfl, rfl⟩
  | cons p ps ih =>
    obtain ⟨hp, hps⟩ := List.forall_mem_cons.mp hquiet
    rw [List.flatMap_cons, Kbd.burst_append] at h
    obtain ⟨⟨chars, shift⟩, hb, h⟩ := Option.bind_eq_some_iff.mp h
    obtain ⟨⟨rest, s₂⟩, hr, h⟩ := Option.map_eq_some_iff.mp h
    cases h
    obtain ⟨ls, hls, hflat⟩ := ih hps hr
    refine ⟨Cons.stored chars :: ls, ?_, ?_⟩
    · rw [arrivals, hb]
      dsimp only [Option.bind_eq_bind, Option.bind_some]
      rw [hls, polled_quiet hp]
      rfl
    · rw [List.flatten_cons, hflat, Cons.stored, Cons.stored, Cons.stored, List.filter_append]

open Kbd (Stroke Code Board Typable)

theorem init_polls {e : Bool} {ps : List Poll} {ls : List (List Byte)} (ha : arrivals e 0 ps = some ls) {n : Nat}
    (hb : backlog 0 (ls.map List.length) = some n) : ∃ calls y q', polls e init ps = some (calls, y) ∧ y.cons.Pending q' ∧
      q'.length = n ∧ getchars calls ++ wide q' = wide ls.flatten := by
  have hz : ∀ b ∈ ([] : List Byte), b ≠ 0 := fun _ hb => absurd hb List.not_mem_nil
  exact polls_arrivals Cons.init_pending hz ha hb

theorem codes_arrive {e : Bool} {ps : List Poll} (hquiet : Quiet e ps) {cs : List Code} (hc : Board.init.Calm cs)
    {text : List Byte} {B : Board} (hrun : Board.init.run cs = some (text, B))
    (hcodes : ps.flatMap Poll.codes = cs.flatMap Code.bytes) : ∃ ls, arrivals e 0 ps = some ls ∧ ls.flatten = text := by
  have h := Board.burst_run Board.init_reflects hc
  rw [hrun, ← hcodes] at h
  generalize hb : Kbd.burst (ps.flatMap Poll.codes) 0 = r at h
  cases h with
  | some hr =>
    obtain ⟨ls, hls, hflat⟩ := arrivals_quiet hquiet hb
    exact ⟨ls, hls, hflat.trans hr.1⟩

/-- **A text at the keyboard**: it can be typed, and whatever calm stream of codes types it and whenever the codes are
polled, `getchar` returns the text, if nothing comes from the serial port. -/
theorem text_polled (e : Bool) (text : List Byte) :
    ((∀ c ∈ text, Typable c) → ∃ cs B, Board.init.Calm cs ∧ Board.init.run cs = some (text, B)) ∧
      ∀ cs B, Board.init.Calm cs → Board.init.run cs = some (text, B) → ∀ ps, Quiet e ps →
        ps.flatMap Poll.codes = cs.flatMap Code.bytes →
        ∃ ls, arrivals e 0 ps = some ls ∧ ls.flatten = text ∧ ∀ n, backlog 0 (ls.map List.length) = some n →
          ∃ calls y q', polls e init ps = some (calls, y) ∧ y.cons.Pending q' ∧ q'.length = n ∧
            getchars calls ++ wide q' = wide text := by
  refine ⟨Kbd.codes_of_text, fun cs B hc hrun ps hquiet hcodes => ?_⟩
  obtain ⟨ls, hls, hflat⟩ := codes_arrive hquiet hc hrun hcodes
  refine ⟨ls, hls, hflat, fun n hn => ?_⟩
  rw [← hflat]
  exact init_polls hls hn

def capitalH : Stroke := ⟨true, ⟨false, 0x23, by decide, by decide⟩, rfl, by decide⟩
def capitalI : Stroke := ⟨true, ⟨false, 0x17, by decide, by decide⟩, rfl, by decide⟩

/-- Two letters while the shift key is held, with polls in the middle. -/
def heldCodes : List Code := [.make Kbd.leftShift, .make capitalH.key, .brk capitalH.key, .make capitalI.key,
  .brk capitalI.key, .brk Kbd.leftShift]

def heldPolls : List Poll := [⟨[], [0x2A]⟩, ⟨[], [0x23, 0xA3, 0x17]⟩, ⟨[], []⟩, ⟨[], [0x97, 0xAA]⟩]

theorem heldCodes_calm : Board.init.Calm heldCodes := by
  refine ⟨Board.alone_of_none _ rfl, Board.alone_of_none _ rfl, ?_⟩
  rw [Board.init, Board.release_press (Board.shift_fresh capitalH false) capitalH.index_ne,
    Board.release_press (Board.shift_fresh capitalI false) capitalI.index_ne]
  exact ⟨Board.alone_insert _, True.intro⟩

theorem heldCodes_run : Board.init.run heldCodes = some ([chr 'H', chr 'I'], ⟨∅, false⟩) := by
  have hctl := Board.shift_not_ctl false
  have hsh : ((Board.mk ∅ false).press Kbd.leftShift).Has .shift ↔ true = true :=
    iff_of_true ((Board.has_press _).mpr (.inl rfl)) rfl
  have hH := Board.run_tap (t := capitalH) hctl hsh (Board.shift_fresh capitalH false)
  have hI := Board.run_tap (t := capitalI) hctl hsh (Board.shift_fresh capitalI false)
  rw [heldCodes, Board.init, Board.run_shift, hH, hI, Board.run, Board.shift_release]
  rfl

theorem text_polled_small : ∃ calls y, polls true init heldPolls = some (calls, y) ∧ y.cons.Pending [] ∧
    getchars calls = wide [chr 'H', chr 'I'] := by
  obtain ⟨ls, hls, _, hpolls⟩ := (text_polled true [chr 'H', chr 'I']).2 heldCodes _ heldCodes_calm heldCodes_run heldPolls
    (show ∀ p ∈ heldPolls, true = true → p.serial = [] by decide) (by decide)
  have ha : arrivals true 0 heldPolls = some [[], [chr 'H', chr 'I'], [], []] := by decide
  rw [ha, Option.some.injEq] at hls
  subst hls
  obtain ⟨calls, y, q, hp, hq, hn, hget⟩ := hpolls 0 (by decide)
  rw [List.length_eq_zero_iff] at hn
  subst hn
  exact ⟨calls, y, hp, hq, (List.append_nil _).symm.trans hget⟩

end Port

/-! ## A session at the devices -/

def Readline.Typed.bytes (t : Readline.Typed) : List Byte := t.keys ++ [t.enter]

namespace Monitor

open Access
open Port (arrivals backlog polls wide wide_append)
open Readline (Typed Line keep buflen prompt echoes)

theorem chars_eq (ts : List Typed) : ts.flatMap Typed.chars = wide (ts.flatMap Typed.bytes) := by
  rw [wide, List.map_flatMap]
  refine congrArg (ts.flatMap ·) (funext fun t => ?_)
  rw [Typed.bytes, List.map_append]
  rfl

/-- **`monitor`** at its devices: what comes from the serial port and the keyboard, as long as the buffer has room for it,
is on the screen as lines, each with its answer. -/
theorem monitor_devices (x : Setting) (hb : x.BufFits) {mem : Memory} (hm : Mapped mem x.buf buflen) (trapped : Option Trapped)
    (e : Bool) {ps : List Poll} (ls : List (List Byte)) (ha : arrivals e 0 ps = some ls) (rest : List Byte)
    (hroom : backlog 0 (ls.map List.length) = some rest.length) {ts : List Typed} {outs : List (List Word)}
    (hs : Session x 0 ts outs) {keys : List Byte} (hk : ∀ b ∈ keys, ¬ Readline.Ends b)
    (hkeys : ls.flatten = ts.flatMap Typed.bytes ++ keys ++ rest) (cons : Console) : ∃ calls y s,
      polls e Port.init ps = some (calls, y) ∧ y.cons.Pending rest ∧
      Settles (fun n => monitor x n trapped calls mem cons) (.ok (.waiting s)) ∧
      s.cons = Console.puts (greeting trapped ++ exchanges ts outs ++ prompt ++ echoes [] keys) cons ∧
      Line x.buf mem (keys.foldl keep []) s := by
  obtain ⟨calls, y, q, hpolls, hq, hlen, heq⟩ := Port.init_polls ha hroom
  have hlen' : (wide q).length = (wide rest).length := by rw [wide, wide, List.length_map, List.length_map, hlen]
  rw [hkeys, wide_append] at heq
  obtain ⟨hcalls, hrest⟩ := List.append_inj' heq hlen'
  obtain rfl : q = rest := Port.wide_inj hrest
  obtain ⟨s, hrun, hc, hl⟩ := monitorLoop_session hb hs hk hm (Console.puts (greeting trapped) cons)
  refine ⟨calls, y, s, hpolls, hq, hrun.congr fun n => ?_, ?_, hl⟩
  · rw [monitor_eq, hcalls, chars_eq, wide_append]
    rfl
  · rw [hc, puts_append, List.append_assoc, List.append_assoc]

def smallPolls : List Poll :=
  ⟨Typed.bytes typedHelp, []⟩ :: ⟨Typed.bytes typedBacktrace, [0x2D, 0xAD]⟩ :: List.replicate 18 ⟨[], []⟩

theorem monitor_devices_small : ∃ calls y s, polls true Port.init smallPolls = some (calls, y) ∧ y.cons.Pending [] ∧
    Settles (fun n => monitor plainSetting n none calls (Readline.bufOnly 0x1000) Readline.blankScreen) (.ok (.waiting s)) ∧
    s.cons = Console.puts (greeting none ++ exchanges [typedHelp, typedBacktrace] [words helpText, backtraceText [] []] ++ prompt ++
      echoes [] [chr 'x']) Readline.blankScreen ∧ Line 0x1000 (Readline.bufOnly 0x1000) [chr 'x'] s :=
  monitor_devices plainSetting plainSetting_fits (Readline.mapped_bufOnly 0x1000) none true
    ([Typed.bytes typedHelp, Typed.bytes typedBacktrace ++ [chr 'x']] ++ List.replicate 18 []) (by decide) [] (by decide)
    session_small (show ∀ b ∈ [chr 'x'], ¬ Readline.Ends b by decide) (by decide) Readline.blankScreen

end Monitor

end Jos
