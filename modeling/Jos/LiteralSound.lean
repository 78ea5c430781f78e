import Jos.Emit

/-!
# Text as the format and text under `%s`

The format is read as `unsigned char`, the argument of `%s` as `char`: a byte
from 0x80 on reaches `putch` with its upper bits clear from the one and set from
the other.
-/

namespace Jos

theorem signExtend_eq_iff (b : Byte) : b.signExtend 32 = b.setWidth 32 ↔ b < 0x80 := by
  have hm : b.msb = true ↔ ¬ b < 0x80 := by
    rw [BitVec.msb_eq_decide, decide_eq_true_eq, BitVec.not_lt, BitVec.le_def]
    rfl
  have hs : (b.signExtend 32).toNat = (b.setWidth 32).toNat + if b.msb = true then 2 ^ 32 - 2 ^ 8 else 0 :=
    BitVec.toNat_signExtend b
  constructor
  · intro h
    by_contra hb
    rw [h, if_pos (hm.mpr hb)] at hs
    omega
  · intro hb
    rw [if_neg fun h => hm.mp h hb, Nat.add_zero] at hs
    exact BitVec.eq_of_toNat_eq hs

theorem width_left_iff (n : Nat) : (-1 - BitVec.ofNat 32 n : Word).toInt.toNat = 0 ↔
    n % 2 ^ 32 < 2 ^ 31 ∨ n % 2 ^ 32 = 2 ^ 32 - 1 := by
  have h : (-1 - BitVec.ofNat 32 n : Word).toNat = 2 ^ 32 - 1 - n % 2 ^ 32 := by
    rw [BitVec.toNat_sub, show (-1 : Word).toNat = 2 ^ 32 - 1 from rfl, BitVec.toNat_ofNat]
    omega
  rw [toNat_toInt, h]
  split <;> omega

/-- **`vprintfmt`** of a text and of `%s` with it hand `putch` the same values just when all bytes are
ASCII and the width, which counts down from -1, does not wrap to a positive number. -/
theorem literal_eq_str_iff (s : CStr) (hs : chr '%' ∉ s.bytes) (ap : List Arg) :
    (∃ out, emitted s ap = some out ∧ emitted (.lit "%s") [.str (some s)] = some out) ↔
      (∀ b ∈ s.bytes, b < 0x80) ∧ (s.bytes.length % 2 ^ 32 < 2 ^ 31 ∨ s.bytes.length % 2 ^ 32 = 2 ^ 32 - 1) := by
  have hlit : emitted s ap = some (s.bytes.map (·.setWidth 32)) := emit_literal hs ap
  rw [hlit, emitted_str, ← width_left_iff]
  constructor
  · rintro ⟨out, ho, hs⟩
    cases ho
    rw [Option.some.injEq] at hs
    have hlen := congrArg List.length hs
    rw [List.length_append, List.length_map, List.length_map, List.length_replicate] at hlen
    have hz : (-1 - BitVec.ofNat 32 s.bytes.length : Word).toInt.toNat = 0 := by omega
    rw [hz, List.replicate_zero, List.append_nil] at hs
    exact ⟨fun b hb => (signExtend_eq_iff b).mp (List.map_inj_left.mp hs b hb), hz⟩
  · rintro ⟨hb, hz⟩
    refine ⟨_, rfl, ?_⟩
    rw [hz, List.replicate_zero, List.append_nil, Option.some.injEq]
    exact List.map_inj_left.mpr fun b hm => (signExtend_eq_iff b).mpr (hb b hm)

theorem literal_eq_str_small : ∃ out, emitted (.lit "ab") [] = some out ∧
    emitted (.lit "%s") [.str (some (.lit "ab"))] = some out :=
  (literal_eq_str_iff (.lit "ab") (by decide) []).mpr ⟨by decide, by decide⟩

/-- One byte with the upper bit set. -/
theorem literal_ne_str : ¬ ∀ (s : CStr) (ap : List Arg), chr '%' ∉ s.bytes →
    ∃ out, emitted s ap = some out ∧ emitted (.lit "%s") [.str (some s)] = some out := by
  intro h
  obtain ⟨out, ho, hs⟩ := h ⟨[0x80], by decide⟩ [] (by decide)
  have hlit : emitted ⟨[0x80], by decide⟩ [] = some [0x80] := emit_literal (by decide) []
  rw [hlit] at ho
  cases ho
  rw [emitted_str] at hs
  exact absurd (Option.some.inj hs) (by decide)

end Jos
