import Jos.Lib.IntrusiveList

/-!
# Splitting an intrusive list in place

The nodes of a list are dealt to two lists as they are met, each one through a slot
that holds the place of its next link: a head variable at first, the link of its last
node afterwards. Both lists stay open while nodes are dealt, and are joined at the end.
`Splitting` is the invariant: whatever is put in its slot ends an open list.
-/

namespace IntrusiveList

variable {α : Type*} {link link' : α → Option α} {h z w : Option α} {l l' : List α} {a b : α}

def Seg (link : α → Option α) : Option α → List α → Option α → Prop
  | h, [], z => h = z
  | h, a :: l, z => h = some a ∧ Seg link (link a) l z

theorem seg_none_iff : ∀ {h : Option α} {l : List α}, Seg link h l none ↔ Chain link h l
  | _, [] => Iff.rfl
  | _, _ :: _ => and_congr_right fun _ => seg_none_iff

theorem Seg.append : ∀ {h : Option α} {l : List α}, Seg link h l z → Seg link z l' w → Seg link h (l ++ l') w
  | _, [], hs, hs' => by
    obtain rfl : _ = z := hs
    exact hs'
  | _, _ :: _, hs, hs' => ⟨hs.1, hs.2.append hs'⟩

theorem Seg.congr : ∀ {h : Option α} {l : List α}, Seg link h l z → (∀ a ∈ l, link' a = link a) → Seg link' h l z
  | _, [], hs, _ => hs
  | _, a :: l, hs, he => by
    refine ⟨hs.1, ?_⟩
    rw [he a List.mem_cons_self]
    exact hs.2.congr fun b hb => he b (List.mem_cons_of_mem _ hb)

/-- The two lists being made. `tail t` is the node whose link is the slot of list `t`, if not its head. -/
structure Split (α : Type*) where
  link : α → Option α
  head : Bool → Option α
  tail : Bool → Option α

section
variable [DecidableEq α] {x : Split α} {t u : Bool} {v : Option α}

def Split.put (x : Split α) (t : Bool) (v : Option α) : Split α :=
  match x.tail t with
  | some q => { x with link := Function.update x.link q v }
  | none => { x with head := Function.update x.head t v }

def Split.add (x : Split α) (t : Bool) (a : α) : Split α :=
  { x.put t (some a) with tail := Function.update (x.put t (some a)).tail t (some a) }

@[simp] theorem Split.put_tail (x : Split α) (t : Bool) (v : Option α) : (x.put t v).tail = x.tail := by
  unfold Split.put
  split <;> rfl

theorem Split.put_link (x : Split α) (t : Bool) (v : Option α) (b : α) :
    (x.put t v).link b = if x.tail t = some b then v else x.link b := by
  unfold Split.put
  split
  · rename_i q hq
    by_cases h : b = q
    · subst h
      simp [hq]
    · simp [hq, h, Ne.symm h]
  · rename_i hq
    simp [hq]

theorem Split.put_head (x : Split α) (t : Bool) (v : Option α) :
    (x.put t v).head = if x.tail t = none then Function.update x.head t v else x.head := by
  unfold Split.put
  split
  · rename_i q hq
    simp [hq]
  · rename_i hq
    simp [hq]

theorem Split.add_link (x : Split α) (t : Bool) (a : α) : (x.add t a).link = (x.put t (some a)).link := rfl

theorem Split.add_head (x : Split α) (t : Bool) (a : α) : (x.add t a).head = (x.put t (some a)).head := rfl

theorem Split.add_tail (x : Split α) (t : Bool) (a : α) : (x.add t a).tail = Function.update x.tail t (some a) := by
  unfold Split.add
  simp

/-- List `t` is `l` as soon as its slot is written. -/
def Split.Open (x : Split α) (t : Bool) (l : List α) : Prop :=
  x.tail t = l.getLast? ∧ ∀ v, Seg (x.put t v).link ((x.put t v).head t) l v

theorem Split.Open.nil (h : x.tail t = none) : x.Open t [] := by
  refine ⟨h, fun v => ?_⟩
  show (x.put t v).head t = v
  rw [Split.put_head, if_pos h, Function.update_self]

theorem Split.Open.ne (h : x.Open t l) (hb : b ∉ l) : x.tail t ≠ some b := by
  rw [h.1]
  exact fun he => hb (List.mem_of_getLast? he)

theorem Split.Open.congr {y : Split α} (h : x.Open t l) (ht : y.tail t = x.tail t) (hh : y.head t = x.head t)
    (hl : ∀ b ∈ l, y.link b = x.link b) : y.Open t l := by
  refine ⟨ht.trans h.1, fun v => ?_⟩
  have he : (y.put t v).head t = (x.put t v).head t := by
    rw [Split.put_head, Split.put_head, ht]
    split
    · rw [Function.update_self, Function.update_self]
    · exact hh
  rw [he]
  refine (h.2 v).congr fun b hb => ?_
  rw [Split.put_link, Split.put_link, ht, hl b hb]

theorem Split.Open.add (h : x.Open t l) (ha : a ∉ l) : (x.add t a).Open t (l ++ [a]) := by
  have ht : (x.add t a).tail t = some a := by rw [Split.add_tail, Function.update_self]
  refine ⟨by rw [ht, List.getLast?_concat], fun v => ?_⟩
  have hh : ((x.add t a).put t v).head t = (x.put t (some a)).head t := by
    rw [Split.put_head, ht, if_neg (Option.some_ne_none a), Split.add_head]
  rw [hh]
  refine Seg.append (z := some a) ?_ ⟨rfl, ?_⟩
  · refine (h.2 (some a)).congr fun b hb => ?_
    rw [Split.put_link, ht, if_neg fun e : some a = some b => ha (Option.some.inj e ▸ hb), Split.add_link]
  · show ((x.add t a).put t v).link a = v
    rw [Split.put_link, if_pos ht]

theorem Split.Open.put_other (h : x.Open u l) (hu : u ≠ t) (ht : ∀ b ∈ l, x.tail t ≠ some b) (v : Option α) :
    (x.put t v).Open u l := by
  refine h.congr (by rw [Split.put_tail]) ?_ fun b hb => ?_
  · rw [Split.put_head]
    split
    · rw [Function.update_of_ne hu]
    · rfl
  · rw [Split.put_link, if_neg (ht b hb)]

theorem Split.Open.add_other (h : x.Open u l) (hu : u ≠ t) (ht : ∀ b ∈ l, x.tail t ≠ some b) (a : α) :
    (x.add t a).Open u l :=
  (h.put_other hu ht (some a)).congr (by rw [Split.add_tail, Split.put_tail, Function.update_of_ne hu]) rfl fun _ _ => rfl

/-- Nodes `l false` and `l true` are dealt, those of `r` are still to come, and no other link is changed. -/
structure Splitting (link : α → Option α) (x : Split α) (l : Bool → List α) (r : List α) : Prop where
  opens : ∀ t, x.Open t (l t)
  rest : Chain x.link r.head? r
  other : ∀ t, ∀ a ∈ l t, a ∉ l !t
  later : ∀ t, ∀ a ∈ l t, a ∉ r
  frame : ∀ b, (∀ t, b ∉ l t) → x.link b = link b

variable {r : List α} {p : Bool → List α}

theorem Splitting.start (h : Chain link r.head? r) (hd : Bool → Option α) :
    Splitting link ⟨link, hd, fun _ => none⟩ (fun _ => []) r :=
  ⟨fun _ => .nil rfl, h, by simp, by simp, fun _ _ => rfl⟩

omit [DecidableEq α] in
theorem mem_dealt {t u : Bool} : b ∈ Function.update p t (p t ++ [a]) u ↔ b ∈ p u ∨ (u = t ∧ b = a) := by
  by_cases h : u = t
  · subst h
    simp
  · simp [h]

theorem Splitting.add (h : Splitting link x p (a :: r)) (t : Bool) :
    Splitting link (x.add t a) (Function.update p t (p t ++ [a])) r ∧ (x.add t a).link a = r.head? := by
  have hn := List.nodup_cons.mp h.rest.nodup
  have hout : ∀ u, a ∉ p u := fun u hm => h.later u a hm List.mem_cons_self
  have hl : ∀ b, b ∉ p t → (x.add t a).link b = x.link b := fun b hb => by
    rw [Split.add_link, Split.put_link, if_neg ((h.opens t).ne hb)]
  have ha : x.link a = r.head? := h.rest.2.head
  refine ⟨⟨fun u => ?_, ?_, fun u b hb => ?_, fun u b hb => ?_, fun b hb => ?_⟩, ?_⟩
  · by_cases hu : u = t
    · subst hu
      rw [Function.update_self]
      exact (h.opens u).add (hout u)
    · have ht : t = !u := by
        revert hu
        cases u <;> cases t <;> simp
      rw [Function.update_of_ne hu]
      exact (h.opens u).add_other hu (fun b hb => (h.opens t).ne (ht ▸ h.other u b hb)) a
  · rw [← ha]
    exact h.rest.2.congr fun b hb => hl b fun hm => h.later t b hm (List.mem_cons_of_mem _ hb)
  · rw [mem_dealt] at hb ⊢
    rcases hb with hb | ⟨_, rfl⟩
    · have := h.other u b hb
      have hne : b ≠ a := fun e => hout u (e ▸ hb)
      simp [this, hne]
    · subst u
      simp [hout]
  · rw [mem_dealt] at hb
    rcases hb with hb | ⟨_, rfl⟩
    · exact fun hm => h.later u b hb (List.mem_cons_of_mem _ hm)
    · exact hn.1
  · have hb' : ∀ u, b ∉ p u := fun u hm => hb u (mem_dealt.mpr (Or.inl hm))
    rw [hl b (hb' t), h.frame b hb']
  · rw [hl a (hout t), ha]

theorem Splitting.join (h : Splitting link x p []) {y z : Split α} (hy : y = x.put true none)
    (hz : z = y.put false (y.head true)) :
    Chain z.link (z.head false) (p false ++ p true) ∧ ∀ b, (∀ t, b ∉ p t) → z.link b = link b := by
  have hlt : ∀ b, b ∉ p true → y.link b = x.link b := fun b hb => by
    rw [hy, Split.put_link, if_neg ((h.opens true).ne hb)]
  have hot : y.Open false (p false) := by
    rw [hy]
    exact (h.opens false).put_other (by decide) (fun b hb => (h.opens true).ne (h.other false b hb)) none
  have hlf : ∀ b, b ∉ p false → z.link b = y.link b := fun b hb => by
    rw [hz, Split.put_link, if_neg (hot.ne hb)]
  have h1 : Seg z.link (z.head false) (p false) (y.head true) := hz ▸ hot.2 (y.head true)
  have h2 : Seg y.link (y.head true) (p true) none := hy ▸ (h.opens true).2 none
  refine ⟨seg_none_iff.mp (h1.append (h2.congr fun b hb => hlf b (h.other true b hb))), fun b hb => ?_⟩
  rw [hlf b (hb false), hlt b (hb true), h.frame b hb]

end

end IntrusiveList
