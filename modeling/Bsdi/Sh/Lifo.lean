import Bsdi.Sh.Memalloc
import Mathlib.Data.List.Nodup

/-!
# The stack is last in, first out

What is handed out lies below `stacknxt`, and what was handed out before a mark lies below the place
the mark was set at. The blocks of a mark are the lower blocks of the stack, as long as the block on
top does not move away from it.
-/

namespace Bsdi.Sh

/-! ### Reading and writing -/

section read

variable {blocks bs : List Block} {b : Block} {p q : Ptr} {c : Byte}

theorem read_cons_of_ne (h : b.id ≠ p.block) : read (b :: bs) p = read bs p := by
  simp [read, h]

theorem read_cons_self (p : Ptr) (h : b.id = p.block) : read (b :: bs) p = some (b.space p.off) := by
  simp [read, h]

theorem write_ids (blocks : List Block) (p : Ptr) (c : Byte) :
    (write blocks p c).map (·.id) = blocks.map (·.id) := by
  simp only [write, List.map_map]
  apply List.map_congr_left
  intro b _
  by_cases h : b.id = p.block <;> simp [h]

theorem mem_write (h : b ∈ write blocks p c) : ∃ b' ∈ blocks, b.id = b'.id ∧ b.size = b'.size := by
  obtain ⟨b', hb', rfl⟩ := List.mem_map.1 h
  refine ⟨b', hb', ?_⟩
  by_cases hp : b'.id = p.block <;> simp [hp]

theorem write_mem (h : b ∈ blocks) (p : Ptr) (c : Byte) :
    ∃ b' ∈ write blocks p c, b'.id = b.id ∧ b'.size = b.size := by
  refine ⟨_, List.mem_map_of_mem h, ?_⟩
  by_cases hp : b.id = p.block <;> simp [hp]

theorem read_write (blocks : List Block) (p q : Ptr) (c : Byte) :
    read (write blocks p c) q = (read blocks q).map fun x => if q = p then c else x := by
  induction blocks with
  | nil => rfl
  | cons b bs ih =>
    have hcons : write (b :: bs) p c =
        (if b.id = p.block then { b with space := Function.update b.space p.off c } else b) ::
          write bs p c := rfl
    rw [hcons]
    by_cases hb : b.id = q.block
    · rw [read_cons_self q hb]
      by_cases hp : b.id = p.block
      · rw [if_pos hp]
        refine (read_cons_self (b := { b with space := Function.update b.space p.off c }) q hb).trans ?_
        have : q = p ↔ q.off = p.off := by
          obtain ⟨qb, qo⟩ := q
          obtain ⟨pb, po⟩ := p
          simp only [Ptr.mk.injEq] at hb hp ⊢
          rw [← hb, ← hp]
          simp
        simp [Function.update_apply, this]
      · rw [if_neg hp, read_cons_self q hb]
        have : q ≠ p := by
          rintro rfl
          exact hp hb
        simp [this]
    · rw [read_cons_of_ne hb, ← ih]
      by_cases hp : b.id = p.block
      · rw [if_pos hp]
        exact read_cons_of_ne hb
      · rw [if_neg hp, read_cons_of_ne hb]

theorem read_suffix (hnodup : (blocks.map (·.id)).Nodup) (h : bs <:+ blocks)
    (hp : p.block ∈ bs.map (·.id)) : read blocks p = read bs p := by
  obtain ⟨t, rfl⟩ := h
  induction t with
  | nil => rfl
  | cons b t ih =>
    simp only [List.cons_append, List.map_cons, List.nodup_cons] at hnodup
    rw [List.cons_append, read_cons_of_ne, ih hnodup.2]
    rintro hb
    apply hnodup.1
    rw [hb, List.map_append]
    exact List.mem_append_right _ hp

end read

theorem suffix_eq {l m : List Nat} (hnodup : l.Nodup) (h : m <:+ l) {a : Nat}
    (hm : m.head? = some a) (hl : l.head? = some a) : m = l := by
  obtain ⟨t, rfl⟩ := h
  cases t with
  | nil => rfl
  | cons b t =>
    simp only [List.cons_append, List.head?_cons, Option.some.injEq] at hl
    rw [List.cons_append, List.nodup_cons] at hnodup
    exact absurd (List.mem_append_right t (hl ▸ List.mem_of_mem_head? hm)) hnodup.1

/-! ### Frames -/

section frames

variable {blocks bs : List Block} {b : Block} {ids : List Nat} {nxt : Ptr} {nleft n : Nat}
  {places : List Place} {m : Outstanding} {ms : List Outstanding}

/-- A top of the stack: the blocks, what is left of the first one, and the pieces below. A piece of
no length may have lost its block. -/
structure Frame (blocks : List Block) (ids : List Nat) (nxt : Ptr) (nleft : Nat)
    (places : List Place) : Prop where
  suffix : ids <:+ blocks.map (·.id)
  top : ids.head? = some nxt.block
  room : ∀ b ∈ blocks, b.id = nxt.block → nxt.off + nleft ≤ b.size
  aligned : nxt.off % 4 = 0 ∧ nleft % 4 = 0
  inside : ∀ q ∈ places, (q.block ∈ ids ∨ q.off = 0 ∧ q.len = 0) ∧
    (q.block = nxt.block → q.off + q.len ≤ nxt.off)

/-- The mark lies below the top of the stack. -/
structure Over (m : Outstanding) (ids : List Nat) (nxt : Ptr) (nleft : Nat)
    (places : List Place) : Prop where
  suffix : m.ids <:+ ids
  stackp : m.mark.stackp = m.mark.nxt.block
  top : m.ids.head? = some m.mark.nxt.block
  same : m.ids = ids →
    m.mark.nxt.off ≤ nxt.off ∧ m.mark.nxt.off + m.mark.nleft ≤ nxt.off + nleft
  count : m.live ≤ places.length
  above : ∀ q ∈ places.take (places.length - m.live), q.block = m.mark.nxt.block →
    m.mark.nxt.off ≤ q.off

def Under (blocks : List Block) : List Nat → Ptr → Nat → List Place → List Outstanding → Prop
  | _, _, _, _, [] => True
  | ids, nxt, nleft, places, m :: ms => Over m ids nxt nleft places ∧
      Frame blocks m.ids m.mark.nxt m.mark.nleft (places.drop (places.length - m.live)) ∧
      Under blocks m.ids m.mark.nxt m.mark.nleft (places.drop (places.length - m.live)) ms

theorem Under.map (P : List Nat → Ptr → Nat → Prop)
    (hframe : ∀ ids nxt nleft places, P ids nxt nleft → Frame blocks ids nxt nleft places →
      Frame bs ids nxt nleft places)
    (hover : ∀ m ids nxt nleft places, P ids nxt nleft → Over m ids nxt nleft places →
      P m.ids m.mark.nxt m.mark.nleft)
    (hP : P ids nxt nleft) (h : Under blocks ids nxt nleft places ms) :
    Under bs ids nxt nleft places ms := by
  induction ms generalizing ids nxt nleft places with
  | nil => trivial
  | cons m ms ih =>
    obtain ⟨ho, hf, hu⟩ := h
    have hm := hover m _ _ _ _ hP ho
    exact ⟨ho, hframe _ _ _ _ hm hf, ih hm hu⟩

theorem Under.over {ids' : List Nat} {nxt' : Ptr} {nleft' : Nat} {places' : List Place}
    (h : Under blocks ids nxt nleft places ms)
    (hover : ∀ m ∈ ms.head?, Over m ids nxt nleft places → Over m ids' nxt' nleft' places' ∧
      places'.drop (places'.length - m.live) = places.drop (places.length - m.live)) :
    Under blocks ids' nxt' nleft' places' ms := by
  cases ms with
  | nil => trivial
  | cons m ms =>
    obtain ⟨ho, hf, hu⟩ := h
    obtain ⟨ho', hd⟩ := hover m rfl ho
    exact ⟨ho', hd ▸ hf, hd ▸ hu⟩

theorem Frame.push (h : Frame blocks ids nxt nleft places) (hb : ∀ b' ∈ blocks, b'.id ≠ b.id) :
    Frame (b :: blocks) ids nxt nleft places where
  suffix := h.suffix.trans (List.suffix_cons _ _)
  top := h.top
  room b' hb' hid := by
    rcases List.mem_cons.1 hb' with rfl | hb'
    · have hmem : nxt.block ∈ blocks.map (·.id) := h.suffix.subset (List.mem_of_mem_head? h.top)
      obtain ⟨b'', hb'', hid'⟩ := List.mem_map.1 hmem
      exact absurd (hid'.trans hid.symm) (hb b'' hb'')
    · exact h.room b' hb' hid
  aligned := h.aligned
  inside := h.inside

theorem Under.push (h : Under blocks ids nxt nleft places ms) (hb : ∀ b' ∈ blocks, b'.id ≠ b.id) :
    Under (b :: blocks) ids nxt nleft places ms :=
  h.map (fun _ _ _ => True) (fun _ _ _ _ _ hf => hf.push hb) (fun _ _ _ _ _ _ _ => trivial) trivial

theorem Frame.write (h : Frame blocks ids nxt nleft places) (p : Ptr) (c : Byte) :
    Frame (write blocks p c) ids nxt nleft places where
  suffix := by
    rw [write_ids]
    exact h.suffix
  top := h.top
  room b hb hid := by
    obtain ⟨b', hb', hid', hsize⟩ := mem_write hb
    rw [hsize]
    exact h.room b' hb' (hid'.symm.trans hid)
  aligned := h.aligned
  inside := h.inside

theorem Under.write (h : Under blocks ids nxt nleft places ms) (p : Ptr) (c : Byte) :
    Under (write blocks p c) ids nxt nleft places ms :=
  h.map (fun _ _ _ => True) (fun _ _ _ _ _ hf => hf.write p c) (fun _ _ _ _ _ _ _ => trivial)
    trivial

theorem Frame.restrict (h : Frame blocks ids nxt nleft places) (hbs : bs <:+ blocks)
    (hids : ids <:+ bs.map (·.id)) : Frame bs ids nxt nleft places :=
  ⟨hids, h.top, fun b hb => h.room b (hbs.subset hb), h.aligned, h.inside⟩

theorem Under.restrict (h : Under blocks ids nxt nleft places ms) (hbs : bs <:+ blocks)
    (hids : ids <:+ bs.map (·.id)) : Under bs ids nxt nleft places ms :=
  h.map (fun ids _ _ => ids <:+ bs.map Block.id) (fun _ _ _ _ hids hf => hf.restrict hbs hids)
    (fun _ _ _ _ _ hids ho => ho.suffix.trans hids) hids

theorem Under.resize (b' : Block) (hnodup : ((b :: bs).map (·.id)).Nodup) (hid : b'.id = b.id)
    (h : Under (b :: bs) ids nxt nleft places ms) (hids : ids <:+ (b :: bs).map (·.id))
    (htop : ids.head? = some nxt.block) (hsize : nxt.block = b.id → nxt.off + nleft ≤ b'.size) :
    Under (b' :: bs) ids nxt nleft places ms := by
  refine h.map (fun ids nxt nleft => ids <:+ (b :: bs).map (·.id) ∧ ids.head? = some nxt.block ∧
    (nxt.block = b.id → nxt.off + nleft ≤ b'.size)) ?_ ?_ ⟨hids, htop, hsize⟩
  · rintro ids nxt nleft places ⟨-, -, hsize⟩ hf
    refine ⟨by simpa [hid] using hf.suffix, hf.top, fun c hc hc' => ?_, hf.aligned, hf.inside⟩
    rcases List.mem_cons.1 hc with rfl | hc
    · exact hsize (hc'.symm.trans hid)
    · exact hf.room c (List.mem_cons_of_mem b hc) hc'
  · rintro m ids nxt nleft places ⟨hids, htop, hsize⟩ ho
    refine ⟨ho.suffix.trans hids, ho.top, fun hm => ?_⟩
    -- a mark in the block on top has all blocks, and the frame above it too
    have hmids : m.ids = (b :: bs).map (·.id) :=
      suffix_eq hnodup (ho.suffix.trans hids) ho.top (by rw [hm]; rfl)
    have hall : ids = (b :: bs).map (·.id) :=
      hids.eq_of_length_le (by rw [← hmids]; exact ho.suffix.length_le)
    have hnxt : nxt.block = b.id := by
      rw [hall] at htop
      simpa using htop.symm
    have := (ho.same (hmids.trans hall.symm)).2
    have := hsize hnxt
    omega

theorem Frame.take (h : Frame blocks ids nxt nleft places) (hn : n ≤ nleft) (hn4 : n % 4 = 0) :
    Frame blocks ids ⟨nxt.block, nxt.off + n⟩ (nleft - n) (⟨nxt.block, nxt.off, n⟩ :: places) where
  suffix := h.suffix
  top := h.top
  room b hb hid := by
    have := h.room b hb hid
    simp only
    omega
  aligned := by
    have := h.aligned
    simp only
    omega
  inside q hq := by
    rcases List.mem_cons.1 hq with rfl | hq
    · exact ⟨.inl (List.mem_of_mem_head? h.top), fun _ => Nat.le_refl _⟩
    · refine ⟨(h.inside q hq).1, fun hb => ?_⟩
      have := (h.inside q hq).2 hb
      simp only
      omega

theorem Under.take (hnodup : ids.Nodup) (htop : ids.head? = some nxt.block)
    (h : Under blocks ids nxt nleft places ms) (hn : n ≤ nleft) :
    Under blocks ids ⟨nxt.block, nxt.off + n⟩ (nleft - n) (⟨nxt.block, nxt.off, n⟩ :: places) ms := by
  refine h.over fun m _ ho => ?_
  have hcount := ho.count
  have hlen : places.length + 1 - m.live = (places.length - m.live) + 1 := by omega
  refine ⟨⟨ho.suffix, ho.stackp, ho.top, fun hm => ?_, by simp only [List.length_cons]; omega, ?_⟩, ?_⟩
  · have := ho.same hm
    simp only
    omega
  · intro q hq hb
    rw [List.length_cons, hlen, List.take_succ_cons] at hq
    rcases List.mem_cons.1 hq with rfl | hq
    · refine (ho.same (suffix_eq hnodup ho.suffix ho.top ?_)).1
      rw [htop]
      exact congrArg some hb
    · exact ho.above q hq hb
  · rw [List.length_cons, hlen, List.drop_succ_cons]

theorem Frame.give {q : Place} (h : Frame blocks ids nxt nleft (q :: places))
    (hblock : q.block = nxt.block) (horder : ∀ r ∈ places, q.block = r.block → r.off + r.len ≤ q.off)
    (hoff : q.off % 4 = 0) :
    Frame blocks ids ⟨q.block, q.off⟩ (nleft + (nxt.off - q.off)) places where
  suffix := h.suffix
  top := by
    rw [hblock]
    exact h.top
  room b hb hid := by
    have h₁ := h.room b hb (hid.trans hblock)
    have h₂ := (h.inside q List.mem_cons_self).2 hblock
    simp only
    omega
  aligned := by
    have := h.aligned
    simp only
    omega
  inside r hr := by
    refine ⟨(h.inside r (List.mem_cons_of_mem q hr)).1, fun hb => ?_⟩
    exact horder r hr hb.symm

theorem Under.give {q : Place} (h : Under blocks ids nxt nleft (q :: places) ms)
    (htop : ids.head? = some nxt.block) (hblock : q.block = nxt.block) (hoff : q.off ≤ nxt.off)
    (hlive : ∀ m ∈ ms.head?, m.live < places.length + 1) :
    Under blocks ids ⟨q.block, q.off⟩ (nleft + (nxt.off - q.off)) places ms := by
  refine h.over fun m hm ho => ?_
  have hlt := hlive m hm
  have hlen : places.length + 1 - m.live = (places.length - m.live) + 1 := by omega
  have habove := ho.above
  rw [List.length_cons, hlen, List.take_succ_cons] at habove
  refine ⟨⟨ho.suffix, ho.stackp, ho.top, fun hids => ?_, by omega,
    fun r hr => habove r (List.mem_cons_of_mem q hr)⟩, ?_⟩
  · have h₁ := ho.same hids
    have h₂ := ho.top
    rw [hids, htop, Option.some.injEq] at h₂
    have h₃ := habove q List.mem_cons_self (hblock.trans h₂)
    simp only
    omega
  · rw [List.length_cons, hlen, List.drop_succ_cons]

end frames

/-! ### The invariant -/

def Behind (q r : Place) : Prop := q.block = r.block → r.off + r.len ≤ q.off

def Kept (blocks : List Block) (h : Handed) : Prop := ∀ i < h.place.len,
  (∃ b ∈ blocks, b.id = h.place.block ∧ h.place.off + h.place.len ≤ b.size) ∧
    read blocks ⟨h.place.block, h.place.off + i⟩ = some (h.data i)

structure Inv (s : Shell) : Prop where
  nodup : (s.stack.blocks.map (·.id)).Nodup
  frame : Frame s.stack.blocks (s.stack.blocks.map (·.id)) s.stack.nxt s.stack.nleft
    (s.live.map (·.place))
  under : Under s.stack.blocks (s.stack.blocks.map (·.id)) s.stack.nxt s.stack.nleft
    (s.live.map (·.place)) s.marks
  order : (s.live.map (·.place)).Pairwise Behind
  offsets : ∀ h ∈ s.live, h.place.off % 4 = 0 ∧ h.place.len % 4 = 0
  kept : ∀ h ∈ s.live, Kept s.stack.blocks h

section inv

variable {s s' : Shell} {op : Op} {new : Answer}

theorem align_mod (n : Nat) : align n % 4 = 0 := by
  unfold align
  omega

theorem align_le {n m : Nat} (h : n ≤ m) (hm : m % 4 = 0) : align n ≤ m := by
  unfold align
  omega

theorem start_inv (bytes : Nat → Byte) : Inv (start bytes) where
  nodup := by simp [start, Stack.start]
  frame := by
    refine ⟨List.suffix_rfl, rfl, fun b hb _ => ?_, by simp [start, Stack.start, minsize], fun q hq => by cases hq⟩
    obtain rfl : b = ⟨0, minsize, bytes⟩ := List.mem_singleton.1 hb
    exact Nat.le_refl _
  under := trivial
  order := .nil
  offsets h hh := by cases hh
  kept h hh := by cases hh

theorem Inv.top (h : Inv s) : ∃ b bs, s.stack.blocks = b :: bs ∧ b.id = s.stack.nxt.block := by
  have := h.frame.top
  cases hb : s.stack.blocks with
  | nil =>
    rw [hb] at this
    cases this
  | cons b bs =>
    rw [hb] at this
    exact ⟨b, bs, rfl, by simpa using this⟩

theorem Inv.take (h : Inv s) {n : Nat} (hn : n ≤ s.stack.nleft) (hn4 : n % 4 = 0) :
    Inv { s with stack := s.stack.take n, live := hand s.stack.nxt n s.stack :: s.live } where
  nodup := h.nodup
  frame := h.frame.take hn hn4
  under := h.under.take h.nodup h.frame.top hn
  order := by
    refine List.pairwise_cons.2 ⟨fun q hq hb => ?_, h.order⟩
    exact (h.frame.inside q hq).2 hb.symm
  offsets p hp := by
    rcases List.mem_cons.1 hp with rfl | hp
    · exact ⟨h.frame.aligned.1, hn4⟩
    · exact h.offsets p hp
  kept p hp := by
    rcases List.mem_cons.1 hp with rfl | hp
    · intro i _
      obtain ⟨b, bs, hbs, hb⟩ := h.top
      have hmem : b ∈ s.stack.blocks := by simp [hbs]
      have hroom := h.frame.room b hmem hb
      refine ⟨⟨b, hmem, hb, ?_⟩, ?_⟩
      · simp only [hand]
        omega
      · simp only [hand, Stack.take, hbs]
        rw [read_cons_self (Ptr.mk s.stack.nxt.block (s.stack.nxt.off + i)) hb]
        rfl
    · exact h.kept p hp

theorem Inv.newBlock (h : Inv s) (hfresh : Fresh s new) {b : Block} (hb : b.id = new.id)
    {nleft : Nat} (hsize : nleft ≤ b.size) (hleft : nleft % 4 = 0) :
    Inv { s with stack := ⟨b :: s.stack.blocks, ⟨new.id, 0⟩, nleft⟩ } where
  nodup := by
    refine List.nodup_cons.2 ⟨fun hmem => ?_, h.nodup⟩
    obtain ⟨b', hb', hid⟩ := List.mem_map.1 hmem
    exact hfresh b' hb' (hid.trans hb)
  frame := by
    refine ⟨List.suffix_rfl, by simp [hb], fun b' hb' hid => ?_, ⟨rfl, hleft⟩, fun q hq => ?_⟩
    · rcases List.mem_cons.1 hb' with rfl | hb'
      · simpa using hsize
      · exact absurd hid (hfresh b' hb')
    · have hq' := (h.frame.inside q hq).1
      refine ⟨hq'.imp_left fun hq' => List.mem_cons_of_mem _ hq', fun hid => ?_⟩
      rcases hq' with hq' | ⟨ho, hl⟩
      · obtain ⟨b', hb', hid'⟩ := List.mem_map.1 hq'
        exact absurd (hid'.trans hid) (hfresh b' hb')
      · simp [ho, hl]
  under := by
    have hb' : ∀ b' ∈ s.stack.blocks, b'.id ≠ b.id := by
      rw [hb]
      exact hfresh
    refine (h.under.push hb').over fun m _ ho => ⟨?_, rfl⟩
    refine ⟨ho.suffix.trans (List.suffix_cons _ _), ho.stackp, ho.top, fun hm => ?_, ho.count, ho.above⟩
    have := ho.suffix.length_le
    rw [hm] at this
    simp only [List.length_map, List.length_cons] at this
    omega
  order := h.order
  offsets := h.offsets
  kept p hp i hi := by
    obtain ⟨⟨b', hb', hid, hle⟩, hread⟩ := h.kept p hp i hi
    refine ⟨⟨b', List.mem_cons_of_mem b hb', hid, hle⟩, ?_⟩
    rw [read_cons_of_ne, hread]
    rw [hb]
    exact fun he => hfresh b' hb' (hid.trans he.symm)

theorem Inv.stalloc (h : Inv s) (nbytes : Nat) (hfresh : Fresh s new) :
    Inv { s with stack := (s.stack.stalloc nbytes new).2,
                 live := hand (s.stack.stalloc nbytes new).1 (align nbytes)
                   (s.stack.stalloc nbytes new).2 :: s.live } := by
  simp only [Stack.stalloc]
  by_cases hlt : s.stack.nleft < align nbytes
  · rw [if_pos hlt]
    have hmax : max (align nbytes) minsize % 4 = 0 := by
      have := align_mod nbytes
      have : minsize % 4 = 0 := rfl
      omega
    have hnew := h.newBlock hfresh (b := ⟨new.id, max (align nbytes) minsize, new.bytes⟩) rfl
      (Nat.le_refl _) hmax
    exact hnew.take (Nat.le_max_left _ _) (align_mod nbytes)
  · rw [if_neg hlt]
    exact h.take (Nat.le_of_not_lt hlt) (align_mod nbytes)

theorem Inv.block_ne (h : Inv s) (hoff : s.stack.nxt.off = 0) {p : Handed} (hp : p ∈ s.live)
    (hlen : 0 < p.place.len) : p.place.block ≠ s.stack.nxt.block := by
  intro hb
  have := (h.frame.inside p.place (List.mem_map_of_mem hp)).2 hb
  omega

theorem Inv.kept_top (h : Inv s) (hoff : s.stack.nxt.off = 0) {b b' : Block} {bs : List Block}
    (hbs : s.stack.blocks = b :: bs) (hb : b.id = s.stack.nxt.block)
    (hnew : b'.id = b.id ∨ ∀ c ∈ s.stack.blocks, c.id ≠ b'.id) {p : Handed} (hp : p ∈ s.live) :
    Kept (b' :: bs) p := by
  intro i hi
  have hne : p.place.block ≠ b.id := by
    rw [hb]
    exact h.block_ne hoff hp (by omega)
  obtain ⟨⟨c, hc, hid, hle⟩, hread⟩ := h.kept p hp i hi
  have hne' : b'.id ≠ p.place.block := by
    rcases hnew with he | hnew
    · rw [he]
      exact hne.symm
    · rw [← hid]
      exact (hnew c hc).symm
  rw [hbs] at hc hread
  rw [read_cons_of_ne hne.symm] at hread
  refine ⟨⟨c, ?_, hid, hle⟩, (read_cons_of_ne hne').trans hread⟩
  rcases List.mem_cons.1 hc with rfl | hc
  · exact absurd hid.symm hne
  · exact List.mem_cons_of_mem b' hc

theorem Inv.resize (h : Inv s) {b : Block} (b' : Block) {bs : List Block} (hbs : s.stack.blocks = b :: bs)
    (hnxt : s.stack.nxt = ⟨b.id, 0⟩) (hb' : b'.id = b.id) (hle : s.stack.nleft ≤ b'.size)
    (h4 : b'.size % 4 = 0) :
    Inv { s with stack := ⟨b' :: bs, ⟨b'.id, 0⟩, b'.size⟩ } := by
  have hb : b.id = s.stack.nxt.block := by rw [hnxt]
  have hoff : s.stack.nxt.off = 0 := by rw [hnxt]
  have hids : (b' :: bs).map (·.id) = s.stack.blocks.map (·.id) := by simp [hbs, hb']
  have hnxt' : (⟨b'.id, 0⟩ : Ptr) = s.stack.nxt := by rw [hnxt, hb']
  have hframe := h.frame
  have hunder := h.under
  have hnodup := h.nodup
  rw [hbs] at hunder hnodup
  have hresize := hunder.resize b' hnodup hb' List.suffix_rfl (by simp [hb]) fun _ => by
    rw [hoff]
    omega
  refine ⟨by rw [hids]; exact h.nodup, ?_, ?_, h.order, h.offsets, fun p hp => ?_⟩
  · simp only [hids, hnxt']
    refine ⟨hids ▸ List.suffix_rfl, hframe.top, fun c hc hid => ?_,
      ⟨hframe.aligned.1, h4⟩, hframe.inside⟩
    rcases List.mem_cons.1 hc with rfl | hc
    · rw [hoff]
      omega
    · -- the other blocks are not the one on top
      simp only [List.map_cons, List.nodup_cons] at hnodup
      exact absurd (List.mem_map.2 ⟨c, hc, hid.trans hb.symm⟩) hnodup.1
  · simp only [hids, hnxt']
    rw [← hbs] at hresize
    refine hresize.over fun m _ ho => ⟨⟨ho.suffix, ho.stackp, ho.top, fun hm => ?_, ho.count, ho.above⟩, rfl⟩
    have := ho.same hm
    omega
  · exact h.kept_top hoff hbs hb (.inl hb') hp

theorem Inv.move (h : Inv s) {b : Block} (b' : Block) {bs : List Block} (hbs : s.stack.blocks = b :: bs)
    (hnxt : s.stack.nxt = ⟨b.id, 0⟩) (hfresh : ∀ c ∈ s.stack.blocks, c.id ≠ b'.id)
    (h4 : b'.size % 4 = 0) (hmarks : ∀ m ∈ s.marks, m.mark.stackp ≠ b.id) :
    Inv { s with stack := ⟨b' :: bs, ⟨b'.id, 0⟩, b'.size⟩ } := by
  have hb : b.id = s.stack.nxt.block := by rw [hnxt]
  have hoff : s.stack.nxt.off = 0 := by rw [hnxt]
  have hfresh' : ∀ c ∈ bs, c.id ≠ b'.id := fun c hc => hfresh c (by simp [hbs, hc])
  have hframe := h.frame
  have hunder := h.under
  have hnodup := h.nodup
  rw [hbs] at hframe hunder hnodup
  simp only [List.map_cons, List.nodup_cons] at hnodup
  refine ⟨?_, ?_, ?_, h.order, h.offsets, fun p hp => ?_⟩
  · refine List.nodup_cons.2 ⟨fun hmem => ?_, hnodup.2⟩
    obtain ⟨c, hc, hid⟩ := List.mem_map.1 hmem
    exact hfresh' c hc hid
  · refine ⟨List.suffix_rfl, rfl, fun c hc hid => ?_, ⟨rfl, h4⟩, fun q hq => ?_⟩
    · rcases List.mem_cons.1 hc with rfl | hc
      · simp
      · exact absurd hid (hfresh' c hc)
    · obtain ⟨hin, htop⟩ := hframe.inside q hq
      -- a piece in the block that moves has no length
      have hin' : q.block ∈ bs.map (·.id) ∨ q.off = 0 ∧ q.len = 0 := by
        rcases hin with hin | hin
        · rcases List.mem_cons.1 hin with hq' | hq'
          · have := htop (hq'.trans hb)
            exact .inr (by omega)
          · exact .inl hq'
        · exact .inr hin
      refine ⟨hin'.imp_left fun hq => List.mem_cons_of_mem _ hq, fun hid => ?_⟩
      rcases hin' with hq | ⟨ho, hl⟩
      · obtain ⟨c, hc, hid'⟩ := List.mem_map.1 hq
        exact absurd (hid'.trans hid) (hfresh' c hc)
      · simp [ho, hl]
  · cases hms : s.marks with
    | nil => trivial
    | cons m ms =>
      rw [hms] at hunder hmarks
      obtain ⟨ho, hf, hu⟩ := hunder
      -- the blocks of the mark are the lower ones
      have hsuf : m.ids <:+ bs.map (·.id) := by
        rcases List.suffix_cons_iff.1 ho.suffix with he | hsuf
        · have := ho.top
          rw [he] at this
          simp only [List.head?_cons, Option.some.injEq] at this
          exact absurd (ho.stackp.trans this.symm) (hmarks m List.mem_cons_self)
        · exact hsuf
      have hbs' : bs <:+ b :: bs := List.suffix_cons b bs
      refine ⟨⟨hsuf.trans (List.suffix_cons _ _), ho.stackp, ho.top, fun hm => ?_, ho.count, ho.above⟩,
        (hf.restrict hbs' hsuf).push hfresh', (hu.restrict hbs' hsuf).push hfresh'⟩
      have := hsuf.length_le
      rw [hm] at this
      simp only [List.length_map, List.length_cons] at this
      omega
  · exact h.kept_top hoff hbs hb (.inr hfresh) hp

theorem Stack.atStart_iff {st : Stack} (h : st.atStart = true) :
    ∃ b bs, st.blocks = b :: bs ∧ st.nxt = ⟨b.id, 0⟩ := by
  unfold Stack.atStart at h
  split at h
  · next b c bs hbs => exact ⟨b, c :: bs, hbs, of_decide_eq_true h⟩
  · cases h

theorem Inv.growstackblock (h : Inv s) (hproper : Proper s (.growstackblock new))
    (hsteady : Steady s (.growstackblock new)) :
    Inv { s with stack := s.stack.growstackblock new } := by
  have h4 : (s.stack.nleft * 2 + 100) % 4 = 0 := by
    have := h.frame.aligned
    omega
  unfold Stack.growstackblock
  by_cases hat : s.stack.atStart = true
  · obtain ⟨b, bs, hbs, hnxt⟩ := Stack.atStart_iff hat
    simp only [hat, if_true, hbs]
    by_cases hid : new.id = b.id
    · exact h.resize (Stack.reallocBlock b _ new) hbs hnxt hid
        (by simp only [Stack.reallocBlock]; omega) h4
    · have hfresh : Fresh s new := by
        rcases hproper.2 with hfresh | ⟨-, he⟩
        · exact hfresh
        · rw [hnxt] at he
          exact absurd he hid
      refine h.move (Stack.reallocBlock b _ new) hbs hnxt hfresh h4 fun m hm he => hid ?_
      have := hsteady hat ⟨m, hm, by rw [hnxt]; exact he⟩
      rwa [hnxt] at this
  · have hfresh : Fresh s new := by
      rcases hproper.2 with hfresh | ⟨he, -⟩
      · exact hfresh
      · exact absurd he hat
    have halign : align (s.stack.nleft * 2 + 100) = s.stack.nleft * 2 + 100 := by
      unfold align
      omega
    have hlt : s.stack.nleft < s.stack.nleft * 2 + 100 := by omega
    simp only [hat, Bool.false_eq_true, if_false, Stack.stalloc, halign, if_pos hlt, Stack.newBlock,
      Stack.take, Stack.bcopyTop]
    refine h.newBlock hfresh rfl ?_ ?_
    · simp only
      omega
    · have : minsize % 4 = 0 := rfl
      omega

theorem Inv.setstackmark (h : Inv s) :
    Inv { s with marks := ⟨s.stack.setstackmark, s.stack.blocks.map (·.id), s.live.length⟩ ::
      s.marks } := by
  refine ⟨h.nodup, h.frame, ?_, h.order, h.offsets, h.kept⟩
  obtain ⟨b, bs, hbs, hb⟩ := h.top
  have hdrop : (s.live.map (·.place)).drop ((s.live.map (·.place)).length - s.live.length) =
      s.live.map (·.place) := by simp
  refine ⟨⟨List.suffix_rfl, ?_, h.frame.top, fun _ => ⟨Nat.le_refl _, Nat.le_refl _⟩, by simp, ?_⟩,
    ?_, ?_⟩
  · simpa [Stack.setstackmark, hbs] using hb
  · intro q hq
    simp at hq
  · simp only [hdrop]
    exact h.frame
  · simp only [hdrop]
    exact h.under

theorem popBlocks_eq {blocks : List Block} {ids : List Nat} {sp : Nat}
    (hnodup : (blocks.map (·.id)).Nodup) (h : ids <:+ blocks.map (·.id)) (htop : ids.head? = some sp) :
    ∃ bs, Stack.popBlocks sp blocks = some bs ∧ bs <:+ blocks ∧ bs.map (·.id) = ids := by
  induction blocks with
  | nil =>
    rw [List.map_nil, List.suffix_nil] at h
    rw [h] at htop
    cases htop
  | cons b bs ih =>
    unfold Stack.popBlocks
    by_cases hb : b.id = sp
    · rw [if_pos hb]
      exact ⟨b :: bs, rfl, List.suffix_rfl, (suffix_eq hnodup h htop (by simp [hb])).symm⟩
    · have hsuf : ids <:+ bs.map (·.id) := by
        rcases List.suffix_cons_iff.1 h with he | hsuf
        · rw [he] at htop
          exact absurd (by simpa using htop) hb
        · exact hsuf
      have hne : bs.isEmpty = false := by
        cases bs with
        | nil =>
          rw [List.map_nil, List.suffix_nil] at hsuf
          rw [hsuf] at htop
          cases htop
        | cons => rfl
      obtain ⟨bs', hpop, hbs', hids⟩ := ih (List.nodup_cons.1 hnodup).2 hsuf
      rw [if_neg hb, if_neg (by simp [hne])]
      exact ⟨bs', hpop, hbs'.trans (List.suffix_cons b bs), hids⟩

theorem Inv.popstackmark (h : Inv s) {m : Outstanding} {ms : List Outstanding}
    (hms : s.marks = m :: ms) :
    ∃ bs, s.stack.popstackmark m.mark = some ⟨bs, m.mark.nxt, m.mark.nleft⟩ ∧
      bs.map (·.id) = m.ids ∧
      Inv ⟨⟨bs, m.mark.nxt, m.mark.nleft⟩, s.live.drop (s.live.length - m.live), ms⟩ := by
  have hunder := h.under
  rw [hms] at hunder
  obtain ⟨ho, hf, hu⟩ := hunder
  obtain ⟨bs, hpop, hbs, hids⟩ := popBlocks_eq h.nodup ho.suffix (ho.stackp ▸ ho.top)
  have hmap : (s.live.drop (s.live.length - m.live)).map (·.place) =
      (s.live.map (·.place)).drop ((s.live.map (·.place)).length - m.live) := by simp
  refine ⟨bs, by simp [Stack.popstackmark, hpop], hids, ?_⟩
  refine ⟨(hbs.map _).sublist.nodup h.nodup, ?_, ?_, ?_, fun p hp => h.offsets p (List.mem_of_mem_drop hp),
    fun p hp i hi => ?_⟩
  · simp only [hmap, hids]
    exact hf.restrict hbs (hids ▸ List.suffix_rfl)
  · simp only [hmap, hids]
    exact hu.restrict hbs (hids ▸ List.suffix_rfl)
  · simp only [hmap]
    exact h.order.sublist (List.drop_sublist _ _)
  · have hin := (hf.inside p.place (hmap ▸ List.mem_map_of_mem hp)).1
    have hblock : p.place.block ∈ bs.map (·.id) := by
      rw [hids]
      rcases hin with hin | ⟨-, hl⟩
      · exact hin
      · omega
    obtain ⟨⟨c, hc, hid, hle⟩, hread⟩ := h.kept p (List.mem_of_mem_drop hp) i hi
    rw [read_suffix h.nodup hbs hblock] at hread
    obtain ⟨c', hc', hid'⟩ := List.mem_map.1 hblock
    have : c' = c := List.inj_on_of_nodup_map h.nodup (hbs.subset hc') hc (hid'.trans hid.symm)
    exact ⟨⟨c', hc', hid', this ▸ hle⟩, hread⟩

theorem Inv.stunalloc (h : Inv s) {p : Handed} {live : List Handed} (hlive : s.live = p :: live)
    (hblock : p.place.block = s.stack.nxt.block) (hmarks : ∀ m ∈ s.marks.head?, m.live < s.live.length) :
    ∃ st, s.stack.stunalloc ⟨p.place.block, p.place.off⟩ = some st ∧
      Inv { s with stack := st, live := live } := by
  have hframe := h.frame
  have hunder := h.under
  have horder := h.order
  have hoffsets := h.offsets
  rw [hlive] at hframe hunder horder hoffsets hmarks
  rw [List.map_cons] at hframe hunder horder
  have hle := (hframe.inside p.place List.mem_cons_self).2 hblock
  have hoff : p.place.off ≤ s.stack.nxt.off := by omega
  have horder' := List.pairwise_cons.1 horder
  refine ⟨_, if_pos ⟨hblock, hoff⟩, h.nodup, ?_, ?_, horder'.2,
    fun q hq => hoffsets q (List.mem_cons_of_mem p hq), fun q hq => h.kept q ?_⟩
  · exact hframe.give hblock horder'.1 (hoffsets p List.mem_cons_self).1
  · refine hunder.give h.frame.top hblock hoff fun m hm => ?_
    have := hmarks m hm
    simpa using this
  · rw [hlive]
    exact List.mem_cons_of_mem p hq

theorem Kept.outside {blocks : List Block} {p : Handed} (h : Kept blocks p) {q : Ptr} (c : Byte)
    (hq : q.block = p.place.block → q.off < p.place.off ∨ p.place.off + p.place.len ≤ q.off) :
    Kept (write blocks q c) p := by
  intro i hi
  obtain ⟨⟨b, hb, hid, hle⟩, hread⟩ := h i hi
  obtain ⟨b', hb', hid', hsize⟩ := write_mem hb q c
  refine ⟨⟨b', hb', hid'.trans hid, hsize ▸ hle⟩, ?_⟩
  have hne : (⟨p.place.block, p.place.off + i⟩ : Ptr) ≠ q := by
    rintro rfl
    have := hq rfl
    simp only at this
    omega
  rw [read_write, hread]
  simp [hne]

theorem Kept.update {blocks : List Block} {p : Handed} (h : Kept blocks p) (i : Nat) (c : Byte) :
    Kept (write blocks ⟨p.place.block, p.place.off + i⟩ c)
      { p with data := Function.update p.data i c } := by
  intro j hj
  obtain ⟨⟨b, hb, hid, hle⟩, hread⟩ := h j hj
  obtain ⟨b', hb', hid', hsize⟩ := write_mem hb ⟨p.place.block, p.place.off + i⟩ c
  refine ⟨⟨b', hb', hid'.trans hid, hsize ▸ hle⟩, ?_⟩
  simp only at hread ⊢
  rw [read_write, hread]
  by_cases hji : j = i
  · simp [hji]
  · have : p.place.off + j ≠ p.place.off + i := by omega
    simp [hji, this]

theorem Inv.write (h : Inv s) (p : Ptr) (c : Byte) (live : List Handed)
    (hlive : live.map (·.place) = s.live.map (·.place))
    (hkept : ∀ q ∈ live, Kept (write s.stack.blocks p c) q) :
    Inv { s with stack := { s.stack with blocks := write s.stack.blocks p c }, live := live } := by
  have hframe := h.frame
  have hunder := h.under
  have horder := h.order
  rw [← hlive] at hframe hunder horder
  refine ⟨?_, ?_, ?_, horder, fun q hq => ?_, hkept⟩
  · simp only [write_ids]
    exact h.nodup
  · simp only [write_ids]
    exact hframe.write p c
  · simp only [write_ids]
    exact hunder.write p c
  · have hmem : q.place ∈ s.live.map (·.place) := hlive ▸ List.mem_map_of_mem hq
    obtain ⟨q', hq', he⟩ := List.mem_map.1 hmem
    rw [← he]
    exact h.offsets q' hq'

theorem Inv.store (h : Inv s) {k i : Nat} {c : Byte} {p : Handed} (hp : s.live[k]? = some p)
    (hi : i < p.place.len) :
    Inv { s with
      stack := { s.stack with blocks := Sh.write s.stack.blocks ⟨p.place.block, p.place.off + i⟩ c }
      live := s.live.set k { p with data := Function.update p.data i c } } := by
  obtain ⟨hk, hget⟩ := List.getElem?_eq_some_iff.1 hp
  refine h.write _ c _ ?_ fun q hq => ?_
  · have hself : (s.live.map (·.place)).set k _ = _ := List.set_getElem_self (by simpa)
    simpa [hget] using hself
  · obtain ⟨j, hj⟩ := List.mem_iff_getElem?.1 hq
    rw [List.getElem?_set] at hj
    by_cases hkj : k = j
    · rw [if_pos hkj, if_pos hk] at hj
      cases hj
      exact (h.kept p (List.mem_of_getElem? hp)).update i c
    · rw [if_neg hkj] at hj
      obtain ⟨hj', hget'⟩ := List.getElem?_eq_some_iff.1 hj
      refine (h.kept q (List.mem_of_getElem? hj)).outside c fun hb => ?_
      -- one of the two pieces lies behind the other
      have horder := List.pairwise_iff_getElem.1 h.order
      rcases Nat.lt_or_gt_of_ne hkj with hlt | hlt
      · have := horder k j (by simpa) (by simpa) hlt
        simp only [List.getElem_map, hget, hget'] at this
        have := this hb
        simp only at hb ⊢
        omega
      · have := horder j k (by simpa) (by simpa) hlt
        simp only [List.getElem_map, hget, hget'] at this
        have := this hb.symm
        simp only at hb ⊢
        omega

theorem Inv.fill (h : Inv s) (i : Nat) (c : Byte) :
    Inv { s with stack := { s.stack with
      blocks := Sh.write s.stack.blocks ⟨s.stack.nxt.block, s.stack.nxt.off + i⟩ c } } := by
  refine h.write _ c s.live rfl fun q hq => (h.kept q hq).outside c fun hb => ?_
  have := (h.frame.inside q.place (List.mem_map_of_mem hq)).2 hb.symm
  simp only
  omega

theorem step_inv (h : Inv s) (hproper : Proper s op) (hsteady : Steady s op)
    (hstep : step s op = some s') : Inv s' := by
  cases op with
  | setstackmark =>
    cases hstep
    exact h.setstackmark
  | stalloc nbytes new =>
    cases hstep
    exact h.stalloc nbytes hproper.2
  | stunalloc =>
    cases hlive : s.live with
    | nil => exact absurd hlive hproper.1
    | cons p live =>
      obtain ⟨st, hst, hinv⟩ := h.stunalloc hlive (hsteady p (by simp [hlive])) hproper.2
      simp only [step, hlive, hst, Option.map_some, Option.some.injEq] at hstep
      rwa [← hstep]
  | growstackblock new =>
    cases hstep
    exact h.growstackblock hproper hsteady
  | grabstackblock len =>
    cases hstep
    exact h.take (align_le hproper h.frame.aligned.2) (align_mod len)
  | popstackmark =>
    cases hms : s.marks with
    | nil => exact absurd hms hproper
    | cons m ms =>
      obtain ⟨bs, hpop, -, hinv⟩ := h.popstackmark hms
      simp only [step, hms, hpop, Option.map_some, Option.some.injEq] at hstep
      rwa [← hstep]
  | store k i c =>
    obtain ⟨p, hp, hi⟩ := hproper
    simp only [step, hp, Option.some.injEq] at hstep
    rw [← hstep]
    exact h.store hp hi
  | fill i c =>
    cases hstep
    exact h.fill i c

def Used (s : Shell) (op : Op) : Prop := Proper s op ∧ Steady s op

theorem reached_inv (h : Reached Used s) : Inv s := by
  induction h with
  | start bytes => exact start_inv bytes
  | step _ hok hstep ih => exact step_inv ih hok.1 hok.2 hstep

/-- What is promised of a state: the string that grows lies in the block on top, pieces are apart
and hold what was stored in them, and `popstackmark` to the last mark comes back to the blocks, the
place and the room at which it was set. -/
structure Lifo (s : Shell) : Prop where
  room : ∃ b bs, s.stack.blocks = b :: bs ∧ b.id = s.stack.nxt.block ∧
    s.stack.nxt.off + s.stack.nleft ≤ b.size
  kept : ∀ p ∈ s.live, Kept s.stack.blocks p
  pops : ∀ m ms, s.marks = m :: ms → ∃ b bs, s.stack.popstackmark m.mark =
      some ⟨b :: bs, m.mark.nxt, m.mark.nleft⟩ ∧ (b :: bs).map (·.id) = m.ids ∧
    b.id = m.mark.stackp ∧ b.id = m.mark.nxt.block ∧ m.mark.nxt.off + m.mark.nleft ≤ b.size ∧
    ∀ p ∈ s.live.drop (s.live.length - m.live), Kept (b :: bs) p

theorem Inv.room (h : Inv s) : ∃ b bs, s.stack.blocks = b :: bs ∧ b.id = s.stack.nxt.block ∧
    s.stack.nxt.off + s.stack.nleft ≤ b.size := by
  obtain ⟨b, bs, hbs, hb⟩ := h.top
  exact ⟨b, bs, hbs, hb, h.frame.room b (by simp [hbs]) hb⟩

/-- Every state that is reached by proper use, while marked blocks do not move and pieces are given
back to the block they lie in. -/
theorem stack_lifo (s : Shell) (h : Reached Used s) : Lifo s := by
  have hinv := reached_inv h
  refine ⟨hinv.room, hinv.kept, fun m ms hms => ?_⟩
  obtain ⟨bs, hpop, hids, hinv'⟩ := hinv.popstackmark hms
  obtain ⟨b, bs', hbs, hb, hroom⟩ := hinv'.room
  have hunder := hinv.under
  rw [hms] at hunder
  simp only at hbs hb hroom
  subst hbs
  exact ⟨b, bs', hpop, hids, hb.trans hunder.1.stackp.symm, hb, hroom, hinv'.kept⟩

def blank (id : Nat) : Answer := ⟨id, fun _ => 0⟩

theorem proper_grow : Proper (start fun _ => 0) (.growstackblock (blank 1)) := by
  refine ⟨by decide, .inl fun b hb => ?_⟩
  rw [show b = ⟨0, minsize, fun _ => 0⟩ from List.mem_singleton.1 hb]
  decide

theorem stack_lifo_grown : ∃ s, Reached Used s ∧ s.marks.length = 1 ∧ s.live.length = 1 ∧ Lifo s := by
  have h₀ : Reached Used _ := .start fun _ => 0
  have h₁ := h₀.step (show Used _ (.growstackblock (blank 1)) from
    ⟨proper_grow, fun h => by cases h⟩) rfl
  have h₂ := h₁.step (show Used _ .setstackmark from ⟨trivial, trivial⟩) rfl
  have h₃ := h₂.step (show Used _ (.grabstackblock 5) from
    ⟨show 5 ≤ 1108 by decide, trivial⟩) rfl
  exact ⟨_, h₃, rfl, rfl, stack_lifo _ h₃⟩

/-- A mark at the start of a block that `realloc` moves: `popstackmark` runs off the end of the
stack. -/
theorem stack_moves : ∃ s, Reached Proper s ∧ Proper s .popstackmark ∧ step s .popstackmark = none ∧
    ¬ Lifo s := by
  have h₀ : Reached Proper _ := .start fun _ => 0
  have h₁ := h₀.step proper_grow rfl
  have h₂ := h₁.step (show Proper _ .setstackmark from trivial) rfl
  have h₃ := h₂.step (show Proper _ (.growstackblock (blank 2)) from
    ⟨show 1108 * 2 + 100 ≤ intMax by decide, .inl fun b hb => by
      rcases List.mem_cons.1 hb with rfl | hb
      · decide
      · rw [show b = ⟨0, minsize, fun _ => 0⟩ from List.mem_singleton.1 hb]
        decide⟩) rfl
  refine ⟨_, h₃, by simp [Proper], rfl, fun h => ?_⟩
  obtain ⟨b, bs, hpop, -⟩ := h.pops _ _ rfl
  cases hpop

end inv

end Bsdi.Sh
