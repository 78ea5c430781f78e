import Jos.BootLoadSound
import Jos.Ide
import Jos.Lib.Move
import Jos.Lib.Settle

/-!
# What `readseg` reads

The driver copies a sector, however long the drive takes for it. The sectors from the
one of `pa` up to the last one that has a byte below `pa + count` are read, and no other
memory changes.
-/

namespace Jos.Boot

variable {disk : Disk} {ram : Ram} {pa count offset : Word}

def segment (pa count offset : Word) : Proghdr := ⟨offset, pa, count, count⟩

theorem readseg_copies (hend : pa.toNat + count.toNat + 511 < 2 ^ 32) :
    readseg disk (2 ^ 23 + 1) pa count offset ram = some (load disk ram (segment pa count offset)) := by
  have hlt : (pa + count).toNat ≤ 512 * (2 ^ 23 - 1) := by
    rw [BitVec.toNat_add, Nat.mod_eq_of_lt (by omega)]
    omega
  obtain ⟨ram', h⟩ : ∃ ram', readseg disk (2 ^ 23 + 1) pa count offset ram = some ram' :=
    readseg_ends hlt (Nat.lt_succ_self _) offset
  have he : ram' = _ := readseg_eq (s := segment pa count offset) (show pa.toNat + count.toNat < 2 ^ 32 by omega) h
  rw [← he]
  exact h

theorem load_in (hmod : pa.toNat % 512 = offset.toNat % 512) (hend : pa.toNat + count.toNat + 511 < 2 ^ 32) {k : Nat}
    (hk : k < count.toNat) :
    load disk ram (segment pa count offset) (pa + BitVec.ofNat 32 k) = disk (512 + (offset.toNat + k)) := by
  have ha : (pa + BitVec.ofNat 32 k).toNat = pa.toNat + k := by
    rw [BitVec.toNat_add, BitVec.toNat_ofNat, Nat.mod_eq_of_lt (show k < 2 ^ 32 by omega), Nat.mod_eq_of_lt (by omega)]
  have hc : (segment pa count offset).Covers (pa + BitVec.ofNat 32 k) := by
    unfold Proghdr.Covers
    rw [ha]
    change pa.toNat / 512 ≤ _ ∧ _ < pa.toNat + count.toNat
    omega
  rw [load, if_pos hc, Proghdr.brings, ha]
  change disk (512 * (offset.toNat / 512 + 1 + ((pa.toNat + k) / 512 - pa.toNat / 512)) + (pa.toNat + k) % 512) = _
  refine congrArg disk ?_
  omega

theorem load_out {a : Word}
    (ha : a.toNat < pa.toNat / 512 * 512 ∨ (pa.toNat + count.toNat + 511) / 512 * 512 ≤ a.toNat) :
    load disk ram (segment pa count offset) a = ram a := by
  have hc : ¬ (segment pa count offset).Covers a := by
    unfold Proghdr.Covers
    change ¬ (pa.toNat / 512 ≤ _ ∧ _ < pa.toNat + count.toNat)
    omega
  rw [load, if_neg hc]

/-! ## The driver -/

namespace Ide

open Access

variable {d : Drive}

theorem waitdisk_settles (d : Drive) : Settles (fun n => waitdisk n d) (.ok { d with busy := 0 }) := by
  induction hb : d.busy generalizing d with
  | zero =>
    refine Settles.step (Settles.const _) fun n => ?_
    have hready : inb 0x1F7 d = (if d.data.isEmpty then 0x40 else 0x48, d) := by simp [inb, hb]
    rw [waitdisk, hready]
    dsimp only
    rw [if_neg (by split <;> decide), ← hb]
  | succ b ih =>
    have hbusy : inb 0x1F7 d = (0x80, { d with busy := b }) := by simp [inb, hb]
    refine Settles.step (ih { d with busy := b } rfl) fun n => ?_
    rw [waitdisk, hbusy]
    exact if_pos (by decide)

theorem insl_eq {c : Nat} {addr : Word} {ram : Ram} (hb : d.busy = 0) (hlen : 4 * c ≤ d.data.length)
    (hc : 4 * c ≤ 2 ^ 32) :
    insl 0x1F0 c addr d ram = ({ d with data := d.data.drop (4 * c) },
      fun a => if (a - addr).toNat < 4 * c then d.data.getD (a - addr).toNat 0xFF else ram a) := by
  induction c generalizing addr d ram with
  | zero => simp [insl]
  | succ c ih =>
    have hinl : inl 0x1F0 d = (d.data.take 4, { d with data := d.data.drop 4 }) := if_pos ⟨rfl, hb, by omega⟩
    have hdrop : 4 * c ≤ (d.data.drop 4).length := by
      rw [List.length_drop]
      omega
    rw [insl, hinl]
    dsimp only
    rw [ih (d := { d with data := d.data.drop 4 }) hb hdrop (by omega)]
    refine Prod.ext ?_ (funext fun a => ?_)
    · dsimp only
      rw [List.drop_drop, show 4 + 4 * c = 4 * (c + 1) by omega]
    · have hsub : a - (addr + 4) = a - addr - BitVec.ofNat 32 4 := (BitVec.sub_sub _ _ _).symm
      dsimp only
      rw [hsub]
      rcases Nat.lt_or_ge (a - addr).toNat 4 with hlt | hge
      · have hout := Move.sub_add_lt (n := 4 * c) hlt (by omega)
        rw [if_neg (Nat.not_lt.mpr hout), if_pos hlt, if_pos (by omega), List.getD_eq_getElem?_getD,
          List.getD_eq_getElem?_getD, List.getElem?_take_of_lt hlt]
      · rw [Move.toNat_sub_ofNat hge, if_neg (Nat.not_lt.mpr hge)]
        by_cases hin : (a - addr).toNat < 4 * (c + 1)
        · rw [if_pos (by omega), if_pos hin, List.getD_eq_getElem?_getD, List.getD_eq_getElem?_getD, List.getElem?_drop,
            Nat.add_sub_cancel' hge]
        · rw [if_neg (by omega), if_neg hin]

theorem device_facts : ∀ x : Byte, x < 0x10 → (x ||| 0xE0) &&& 0xF0 = 0xE0 ∧ (x ||| 0xE0) &&& 0x0F = x := by decide

theorem lba_eq {offset : Word} (ho : offset.toNat < 2 ^ 28) (h0 : d.lba0 = offset.setWidth 8)
    (h1 : d.lba1 = (offset >>> 8).setWidth 8) (h2 : d.lba2 = (offset >>> 16).setWidth 8)
    (h3 : d.device = (offset >>> 24 ||| 0xE0).setWidth 8) : d.lba = offset.toNat ∧ d.device &&& 0xF0 = 0xE0 := by
  have hx : (offset >>> 24).toNat = offset.toNat / 2 ^ 24 := by rw [BitVec.toNat_ushiftRight, Nat.shiftRight_eq_div_pow]
  have hlt : ((offset >>> 24).setWidth 8 : Byte) < 0x10 := by
    rw [BitVec.lt_def, BitVec.toNat_setWidth, hx]
    change _ < 16
    omega
  have hdev : d.device = (offset >>> 24).setWidth 8 ||| 0xE0 := by
    rw [h3, BitVec.setWidth_or]
    rfl
  obtain ⟨hhigh, hlow⟩ := device_facts _ hlt
  refine ⟨?_, by rw [hdev, hhigh]⟩
  rw [Drive.lba, hdev, hlow, h0, h1, h2]
  simp only [BitVec.toNat_setWidth, BitVec.toNat_ushiftRight, Nat.shiftRight_eq_div_pow]
  omega

def asked (d : Drive) (offset : Word) : Drive :=
  { d with
    busy := 0
    count := 1
    lba0 := offset.setWidth 8
    lba1 := (offset >>> 8).setWidth 8
    lba2 := (offset >>> 16).setWidth 8
    device := (offset >>> 24 ||| 0xE0).setWidth 8 }

theorem sectors_asked (d : Drive) {offset : Word} (ho : offset.toNat < 2 ^ 28) :
    (asked d offset).sectors = (List.range 512).map fun k => d.disk (512 * offset.toNat + k) := by
  rw [Drive.sectors, (lba_eq (d := asked d offset) ho rfl rfl rfl rfl).1]
  rfl

theorem insl_sector {ram : Ram} {dst offset : Word} (hb : d.busy = 0)
    (hd : d.data = (List.range 512).map fun k => disk (512 * offset.toNat + k)) :
    insl 0x1F0 (sectsize / 4).toNat dst d ram = ({ d with data := [] }, Boot.readsect disk dst offset ram) := by
  have hlen : d.data.length = 512 := by rw [hd, List.length_map, List.length_range]
  rw [show (sectsize / 4).toNat = 128 from rfl, insl_eq hb (by omega) (by decide)]
  refine Prod.ext ?_ (funext fun a => ?_)
  · dsimp only
    rw [List.drop_eq_nil_of_le (by omega)]
  · change (if (a - dst).toNat < 4 * 128 then _ else _) =
      if (a - dst).toNat < 512 then disk (512 * offset.toNat + (a - dst).toNat) else ram a
    by_cases ha : (a - dst).toNat < 512
    · rw [if_pos ha, if_pos (by omega), hd, List.getD_eq_getElem?_getD, List.getElem?_map, List.getElem?_range ha]
      rfl
    · rw [if_neg ha, if_neg (by omega)]

theorem readsect_settles (d : Drive) (ram : Ram) (dst : Word) {offset : Word} (ho : offset.toNat < 2 ^ 28) :
    ∃ d', Settles (fun n => readsect n dst offset d ram) (.ok (d', Boot.readsect d.disk dst offset ram)) ∧
      d'.disk = d.disk := by
  have hdev := (lba_eq (d := asked d offset) ho rfl rfl rfl rfl).2
  have hcommand : (asked d offset).command 0x20 = { asked d offset with
      data := (asked d offset).sectors
      busy := d.lag d.commands
      commands := d.commands + 1 } := if_pos ⟨rfl, hdev⟩
  obtain ⟨N, hN⟩ := waitdisk_settles d
  obtain ⟨M, hM⟩ := waitdisk_settles ((asked d offset).command 0x20)
  have hdata : ((asked d offset).command 0x20).data = (asked d offset).sectors := by rw [hcommand]
  have hdisk : ((asked d offset).command 0x20).disk = d.disk := by
    rw [hcommand]
    rfl
  refine ⟨{ (asked d offset).command 0x20 with busy := 0, data := [] }, ⟨max N M, fun n hn => ?_⟩, hdisk⟩
  have h1 := hN n (by omega)
  have h2 := hM n (by omega)
  dsimp only at h1 h2
  change (waitdisk n d >>= _) = _
  rw [h1, ok_then]
  -- the drive is idle and takes the six writes
  change (waitdisk n ((asked d offset).command 0x20) >>= _) = _
  rw [h2, ok_then]
  exact congrArg Except.ok (insl_sector rfl (hdata.trans (sectors_asked d ho)))

theorem readsegLoop_settles {n : Nat} {pa endPa offset : Word} {d : Drive} {ram ram' : Ram}
    (ho : offset.toNat + n ≤ 2 ^ 28) (h : Boot.readsegLoop d.disk n pa endPa offset ram = some ram') :
    ∃ d', Settles (fun m => readsegLoop m pa endPa offset d ram) (.ok (d', ram')) := by
  induction n generalizing pa offset d ram with
  | zero => cases h
  | succ n ih =>
    rw [Boot.readsegLoop] at h
    by_cases hlt : pa < endPa
    · rw [if_pos hlt] at h
      obtain ⟨d₁, hs, hd₁⟩ := readsect_settles d ram pa (show offset.toNat < 2 ^ 28 by omega)
      have hnext : (offset + 1).toNat = offset.toNat + 1 := by
        rw [BitVec.toNat_add, show (1 : Word).toNat = 1 from rfl, Nat.mod_eq_of_lt (by omega)]
      rw [← hd₁] at h hs
      obtain ⟨d', hrest⟩ := ih (by omega) h
      have hboth := Settles.bind hs (g := fun n x => readsegLoop n (pa + sectsize) endPa (offset + 1) x.1 x.2) hrest
      refine ⟨d', Settles.step hboth fun n => ?_⟩
      rw [readsegLoop, if_pos hlt]
    · rw [if_neg hlt, Option.some.injEq] at h
      subst h
      exact ⟨d, Settles.step (Settles.const _) fun n => by rw [readsegLoop, if_neg hlt]⟩

/-- **`readseg`**: it ends, the bytes of the image are where they were asked for, and memory changes between the
sector boundaries around them only. -/
theorem readseg_sound (d : Drive) (ram : Ram) (pa count offset : Word) (hmod : pa.toNat % 512 = offset.toNat % 512)
    (hend : pa.toNat + count.toNat + 511 < 2 ^ 32) :
    ∃ d' ram', Settles (fun n => readseg n pa count offset d ram) (.ok (d', ram')) ∧
      (∀ k < count.toNat, ram' (pa + BitVec.ofNat 32 k) = d.disk (512 + (offset.toNat + k))) ∧
      ∀ a, a.toNat < pa.toNat / 512 * 512 ∨ (pa.toNat + count.toNat + 511) / 512 * 512 ≤ a.toNat → ram' a = ram a := by
  have ho : (offset / sectsize + 1).toNat + (2 ^ 23 + 1) ≤ 2 ^ 28 := by
    have hlt := offset.isLt
    rw [offset_sector]
    omega
  obtain ⟨d', hs⟩ := readsegLoop_settles ho (readseg_copies hend)
  exact ⟨d', _, hs, fun _ hk => load_in hmod hend hk, fun _ ha => load_out ha⟩

def idle : Drive := ⟨fun i => BitVec.ofNat 8 i, fun n => n, 0, 3, 0, 0, 0, 0, 0, []⟩

theorem readseg_sound_small : ∃ d' ram',
    Settles (fun n => readseg n 0x100100 600 0x1100 idle fun _ => 0) (.ok (d', ram')) ∧
      ram' 0x100101 = 1 ∧ ram' 0xFFFFF = 0 := by
  obtain ⟨d', ram', hs, hin, hout⟩ := readseg_sound idle (fun _ => 0) 0x100100 600 0x1100 (by decide) (by decide)
  exact ⟨d', ram', hs, hin 1 (by decide), hout 0xFFFFF (Or.inl (by decide))⟩

end Ide

end Jos.Boot
