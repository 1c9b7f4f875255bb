import Bsdi.Db.Hash.BigKey

/-!
# Chains of pieces

What `__big_insert` leaves: pages with the pieces of the key and of the data, each one linked to the
next one.
-/

namespace Bsdi.Db.Hash.Big

open Bsdi.Lib

variable {bsize i j m e fuel size : ℕ} {ovfl : ℕ → ℕ} {pages : ℕ → Page} {s s' : Pages}
  {p p' : Page} {piece key val rest : List UInt8} {tag : ℕ} {more : List ℕ}

/-- A page as `PAGE_INIT` leaves it. -/
structure Fresh (bsize : ℕ) (p : Page) : Prop where
  entries : p.entries = []
  freespace : p.freespace = sub16 bsize 6
  offset : p.offset = bsize % 2 ^ 16

/-- A page that begins with a piece: its offset and its tag come first in the table. -/
structure Piece (bsize : ℕ) (p : Page) (piece : List UInt8) (tag : ℕ) (more : List ℕ) : Prop where
  pos : 0 < piece.length
  room : piece.length + 14 ≤ bsize
  entries : p.entries = (bsize - piece.length) :: tag :: more
  bytes : slice p.byte (bsize - piece.length) piece.length = piece

theorem Piece.word_one (h : Piece bsize p piece tag more) : p.word 1 = bsize - piece.length := by
  rw [Page.word, h.entries]
  rfl

theorem Piece.word_two (h : Piece bsize p piece tag more) : p.word 2 = tag := by
  rw [Page.word, h.entries]
  rfl

theorem Piece.word_three {a b : ℕ} (h : Piece bsize p piece tag [a, b]) : p.word 3 = a := by
  rw [Page.word, h.entries]
  rfl

theorem Piece.word_four {a b : ℕ} (h : Piece bsize p piece tag [a, b]) : p.word 4 = b := by
  rw [Page.word, h.entries]
  rfl

theorem Piece.n_two (h : Piece bsize p piece tag []) : p.n = 2 := by
  rw [Page.n, h.entries]
  rfl

theorem Piece.n_four {a b : ℕ} (h : Piece bsize p piece tag [a, b]) : p.n = 4 := by
  rw [Page.n, h.entries]
  rfl

theorem Piece.next {a b k : ℕ} (h : Piece bsize (pages k) piece tag [a, b]) :
    next pages k = some a := by
  rw [Big.next, h.n_four, if_neg (Nat.succ_ne_zero 3), h.word_three]

theorem Piece.bytes_eq (h : Piece bsize p piece tag more) (hb : bsize ≤ 2 ^ 16) :
    sub16 bsize (p.word 1) = piece.length := by
  have := h.pos
  have := h.room
  rw [h.word_one, sub16]
  omega

theorem Piece.slice_eq (h : Piece bsize p piece tag more) :
    slice p.byte (p.word 1) (bsize - p.word 1) = piece := by
  have := h.room
  rw [h.word_one, Nat.sub_sub_self (by omega), h.bytes]

theorem Fresh.space (h : Fresh bsize p) (hb : 16 ≤ bsize) (hb' : bsize ≤ 2 ^ 16) :
    sub16 p.freespace bigoverhead = bsize - 14 := by
  rw [h.freespace, sub16, sub16, bigoverhead]
  omega

theorem Fresh.push (h : Fresh bsize p) (piece : List UInt8) (hb : bsize ≤ 2 ^ 16)
    (hpos : 0 < piece.length) (hroom : piece.length + 14 ≤ bsize) (tag : ℕ) :
    ∃ p', p.push bsize piece tag = some p' ∧ Piece bsize p' piece tag [] ∧
      p'.freespace = bsize - piece.length - 10 ∧ p'.offset = bsize - piece.length := by
  have hoff : sub16 p.offset piece.length = bsize - piece.length := by
    rw [h.offset, sub16]
    omega
  have hfree : sub16 (bsize - piece.length) (pageMeta 2) = bsize - piece.length - 10 := by
    rw [sub16, pageMeta]
    omega
  have hn : p.n + 2 = 2 := by
    rw [Page.n, h.entries]
    rfl
  rw [Page.push, hoff, hn, hfree, h.entries, if_pos (by rw [pageMeta]; omega)]
  exact ⟨_, rfl, ⟨hpos, hroom, rfl, slice_store⟩, rfl, rfl⟩

theorem Pages.page_set_self {a : ℕ} : (s.set a p).page a = p := by
  simp [Pages.set]

theorem Pages.page_set_of_ne {a b : ℕ} (h : b ≠ a) : (s.set a p).page b = s.page b := by
  simp [Pages.set, h]

section

variable (hb : bsize ≤ 2 ^ 16) (hinj : Function.Injective ovfl)

include hinj in
theorem addOvflpage_spec (hcount : s.count = i + 1)
    (h : Piece bsize (s.page (ovfl i)) piece tag []) :
    ∃ s', addOvflpage bsize ovfl s (ovfl i) = (ovfl (i + 1), s') ∧ s'.count = i + 2 ∧
      Piece bsize (s'.page (ovfl i)) piece tag [ovfl (i + 1), ovflpage] ∧
      (s'.page (ovfl i)).freespace = sub16 (s.page (ovfl i)).freespace ovflsize ∧
      (s'.page (ovfl i)).offset = (s.page (ovfl i)).offset ∧
      Fresh bsize (s'.page (ovfl (i + 1))) ∧
      ∀ a, a ≠ ovfl i → a ≠ ovfl (i + 1) → s'.page a = s.page a := by
  have hne : ovfl i ≠ ovfl (i + 1) := fun heq => absurd (hinj heq) (Nat.succ_ne_self i).symm
  rw [addOvflpage, hcount]
  refine ⟨_, rfl, congrArg (· + 1) hcount, ?_, ?_, ?_, ?_, fun a h₁ h₂ => ?_⟩
  · change Piece bsize (((s.set (ovfl i) _).set (ovfl (i + 1)) _).page (ovfl i)) _ _ _
    rw [Pages.page_set_of_ne hne, Pages.page_set_self]
    refine ⟨h.pos, h.room, ?_, h.bytes⟩
    change (s.page (ovfl i)).entries ++ _ = _
    rw [h.entries]
    rfl
  · change (((s.set (ovfl i) _).set (ovfl (i + 1)) _).page (ovfl i)).freespace = _
    rw [Pages.page_set_of_ne hne, Pages.page_set_self]
  · change (((s.set (ovfl i) _).set (ovfl (i + 1)) _).page (ovfl i)).offset = _
    rw [Pages.page_set_of_ne hne, Pages.page_set_self]
  · change Fresh bsize (((s.set (ovfl i) _).set (ovfl (i + 1)) _).page (ovfl (i + 1)))
    rw [Pages.page_set_self]
    exact ⟨rfl, rfl, rfl⟩
  · change ((s.set (ovfl i) _).set (ovfl (i + 1)) _).page a = _
    rw [Pages.page_set_of_ne h₂, Pages.page_set_of_ne h₁]

/-- The pages from `i` to `m` hold data. -/
inductive Data (bsize : ℕ) (ovfl : ℕ → ℕ) (pages : ℕ → Page) : ℕ → ℕ → List UInt8 → Prop
  | last {i : ℕ} {piece : List UInt8} (h : Piece bsize (pages (ovfl i)) piece fullKeyData []) :
    Data bsize ovfl pages i i piece
  | more {i m : ℕ} {piece rest : List UInt8}
    (h : Piece bsize (pages (ovfl i)) piece fullKey [ovfl (i + 1), ovflpage])
    (behind : Data bsize ovfl pages (i + 1) m rest) : Data bsize ovfl pages i m (piece ++ rest)

/-- Only pages from `i` on are changed. -/
def From (ovfl : ℕ → ℕ) (i : ℕ) (s s' : Pages) : Prop :=
  ∀ a, (∀ j, i ≤ j → a ≠ ovfl j) → s'.page a = s.page a

theorem From.trans {s₁ : Pages} (h : From ovfl i s s₁) (h' : From ovfl j s₁ s') (hij : i ≤ j) :
    From ovfl i s s' := fun a ha => (h' a fun k hk => ha k (Nat.le_trans hij hk)).trans (h a ha)

include hinj in
theorem From.before (h : From ovfl i s s') (hji : j < i) : s'.page (ovfl j) = s.page (ovfl j) :=
  h _ fun k hk heq => by
    have := hinj heq
    omega

include hb hinj in
theorem moveData_spec (size : ℕ) (hb₁ : 16 ≤ bsize) (hval : val ≠ []) (hfuel : val.length ≤ fuel)
    (hfresh : Fresh bsize (s.page (ovfl i))) (hcount : s.count = i + 1) :
    ∃ s' m, moveData bsize ovfl size fuel (ovfl i) val s = some s' ∧
      Data bsize ovfl s'.page i m val ∧ s'.count = m + 1 ∧ i ≤ m ∧ From ovfl i s s' := by
  induction fuel generalizing i val s with
  | zero =>
    have := List.length_pos_iff.2 hval
    omega
  | succ fuel ih =>
    have hlen := List.length_pos_iff.2 hval
    obtain ⟨mb, hmb⟩ : ∃ mb, mb = if bsize - 14 = val.length ∧ val.length = size then
        min (bsize - 14) val.length - 1 else min (bsize - 14) val.length := ⟨_, rfl⟩
    have hmove : 0 < mb ∧ mb + 14 ≤ bsize ∧ mb ≤ val.length := by
      rw [hmb]
      by_cases hhack : bsize - 14 = val.length ∧ val.length = size
      · rw [if_pos hhack]
        omega
      · rw [if_neg hhack]
        omega
    have htake : (val.take mb).length = mb := List.length_take_of_le hmove.2.2
    obtain ⟨p', hpush, hpiece, -, -⟩ := hfresh.push (val.take mb) hb
      (by rw [htake]; exact hmove.1) (by rw [htake]; exact hmove.2.1)
      (if val.drop mb = [] then fullKeyData else fullKey)
    have hstep : moveData bsize ovfl size (fuel + 1) (ovfl i) val s =
        if val.drop mb = [] then some (s.set (ovfl i) p')
        else moveData bsize ovfl size fuel (addOvflpage bsize ovfl (s.set (ovfl i) p') (ovfl i)).1
          (val.drop mb) (addOvflpage bsize ovfl (s.set (ovfl i) p') (ovfl i)).2 := by
      cases val with
      | nil => exact absurd rfl hval
      | cons x xs =>
        rw [moveData]
        · dsimp only
          rw [hfresh.space hb₁ hb, ← hmb, hpush]
        · exact hval
    rw [hstep]
    have hset : From ovfl i s (s.set (ovfl i) p') := fun a ha =>
      Pages.page_set_of_ne (ha i (Nat.le_refl i))
    by_cases hrest : val.drop mb = []
    · rw [if_pos hrest] at hpiece ⊢
      have hall : val.take mb = val := by
        have := List.take_append_drop mb val
        rwa [hrest, List.append_nil] at this
      rw [hall] at hpiece
      refine ⟨_, i, rfl, Data.last ?_, hcount, Nat.le_refl i, hset⟩
      rw [Pages.page_set_self]
      exact hpiece
    · rw [if_neg hrest] at hpiece ⊢
      have hpiece' : Piece bsize ((s.set (ovfl i) p').page (ovfl i)) (val.take mb) fullKey [] := by
        rwa [Pages.page_set_self]
      obtain ⟨s₁, hadd, hcount₁, hpiece₁, -, -, hfresh₁, hother⟩ :=
        addOvflpage_spec (s := s.set (ovfl i) p') hinj hcount hpiece'
      rw [hadd]
      obtain ⟨s', m, heq, hdata, hcount', him, hfrom⟩ := ih hrest
        (by rw [List.length_drop]; omega) hfresh₁ hcount₁
      refine ⟨s', m, heq, ?_, hcount', by omega, hset.trans ?_ (Nat.le_refl i)⟩
      · rw [← List.take_append_drop mb val]
        refine Data.more ?_ hdata
        rw [hfrom.before hinj (Nat.lt_succ_self i)]
        exact hpiece₁
      · have hlink : From ovfl i (s.set (ovfl i) p') s₁ := fun a ha =>
          hother a (ha i (Nat.le_refl i)) (ha (i + 1) (Nat.le_succ i))
        exact hlink.trans hfrom (Nat.le_succ i)

theorem slice_store_behind {f : ℕ → UInt8} {a k n : ℕ} {l : List UInt8} (h : a + l.length ≤ k) :
    slice (store f a l) k n = slice f k n := slice_congr fun x hx _ => by
  have hnot : ¬x < a := by omega
  refine (if_neg hnot).trans ?_
  rw [List.getD_eq_getElem?_getD, List.getElem?_eq_none (by omega)]
  rfl

/-- The page `p` on which the key ends, with the next page `nx`: the data begins on it if there is
room, and `rest` is what is left of it. -/
inductive EndPage (bsize nx : ℕ) (p : Page) (piece val rest : List UInt8) : Prop
  | apart (full : piece.length + 14 = bsize) (h : Piece bsize p piece fullKey [nx, ovflpage])
    (same : rest = val) (free : p.freespace = 0)
  | shared (v : List UInt8) (split : val = v ++ rest) (room : piece.length + 14 < bsize)
    (h : Piece bsize p piece fullKeyData [nx, bsize - piece.length - v.length])
    (bytes : slice p.byte (bsize - piece.length - v.length) v.length = v)
    (free : p.freespace + piece.length + v.length + 14 = bsize)
    (stop : rest ≠ [] → p.freespace = 0)

theorem endKey_spec {nx : ℕ} (val : List UInt8) (hb : bsize ≤ 2 ^ 16)
    (h : Piece bsize p piece partialKey [nx, ovflpage])
    (hfree : p.freespace + piece.length + 14 = bsize) (hoff : p.offset + piece.length = bsize) :
    ∃ p' rest, p.endKey val = (p', rest) ∧ EndPage bsize nx p' piece val rest := by
  have hpos := h.pos
  rw [Page.endKey, h.n_four, h.entries]
  by_cases hzero : p.freespace = 0
  · rw [if_neg (not_not.2 hzero)]
    exact ⟨_, _, rfl, EndPage.apart (by omega) ⟨h.pos, h.room, rfl, h.bytes⟩ rfl hzero⟩
  · rw [if_pos hzero]
    obtain ⟨mb, hmb⟩ : ∃ mb, mb = min p.freespace val.length := ⟨_, rfl⟩
    have htake : (val.take mb).length = mb := List.length_take_of_le (by omega)
    have hsub : sub16 p.offset mb = bsize - piece.length - mb := by
      rw [sub16]
      omega
    have hsub' : sub16 p.freespace mb = p.freespace - mb := by
      rw [sub16]
      omega
    dsimp only
    rw [← hmb, hsub, hsub']
    have hbehind : bsize - piece.length - mb + (val.take mb).length = bsize - piece.length := by
      rw [htake]
      omega
    refine ⟨_, _, rfl, EndPage.shared (val.take mb) (List.take_append_drop mb val).symm (by omega)
      ⟨h.pos, h.room, ?_, ?_⟩ ?_ ?_ fun hrest => ?_⟩
    · rw [htake]
      rfl
    · change slice (store p.byte (bsize - piece.length - mb) (val.take mb)) (bsize - piece.length)
        piece.length = piece
      rw [slice_store_behind (Nat.le_of_eq hbehind), h.bytes]
    · have hs : slice (store p.byte (bsize - piece.length - mb) (val.take mb))
          (bsize - piece.length - mb) (val.take mb).length = val.take mb := slice_store
      rw [htake] at hs ⊢
      exact hs
    · change p.freespace - mb + piece.length + (val.take mb).length + 14 = bsize
      rw [htake]
      omega
    · have hlt : mb < val.length := by
        rw [← Nat.sub_pos_iff_lt, ← List.length_drop]
        exact List.length_pos_iff.2 hrest
      change p.freespace - mb = 0
      omega

/-- The pages from `i` on hold a key, in full pages up to one that is told by `P`. -/
inductive Key (bsize : ℕ) (ovfl : ℕ → ℕ) (pages : ℕ → Page) (P : ℕ → List UInt8 → Prop) :
    ℕ → List UInt8 → Prop
  | last {i : ℕ} {piece : List UInt8} (h : P i piece) : Key bsize ovfl pages P i piece
  | more {i : ℕ} {piece rest : List UInt8}
    (h : Piece bsize (pages (ovfl i)) piece partialKey [ovfl (i + 1), ovflpage])
    (full : piece.length + 14 = bsize) (behind : Key bsize ovfl pages P (i + 1) rest) :
    Key bsize ovfl pages P i (piece ++ rest)

include hb hinj in
theorem moveKey_spec (val : List UInt8) (hb₁ : 16 ≤ bsize) (hkey : key ≠ [])
    (hfuel : key.length ≤ fuel) (hfresh : Fresh bsize (s.page (ovfl i))) (hcount : s.count = i + 1) :
    ∃ s' e rest, moveKey bsize ovfl fuel (ovfl i) key val s = some (ovfl (e + 1), rest, s') ∧
      Key bsize ovfl s'.page
        (fun k piece => k = e ∧ EndPage bsize (ovfl (e + 1)) (s'.page (ovfl e)) piece val rest)
        i key ∧
      i ≤ e ∧ Fresh bsize (s'.page (ovfl (e + 1))) ∧ s'.count = e + 2 ∧ From ovfl i s s' := by
  induction fuel generalizing i key s with
  | zero =>
    have := List.length_pos_iff.2 hkey
    omega
  | succ fuel ih =>
    have hlen := List.length_pos_iff.2 hkey
    have hne : ovfl i ≠ ovfl (i + 1) := fun heq => absurd (hinj heq) (Nat.succ_ne_self i).symm
    obtain ⟨mb, hmb⟩ : ∃ mb, mb = min (bsize - 14) key.length := ⟨_, rfl⟩
    have htake : (key.take mb).length = mb := List.length_take_of_le (by omega)
    obtain ⟨p', hpush, hpiece, hfree, hoff⟩ := hfresh.push (key.take mb) hb
      (by rw [htake]; omega) (by rw [htake]; omega) partialKey
    have hpiece' : Piece bsize ((s.set (ovfl i) p').page (ovfl i)) (key.take mb) partialKey [] := by
      rwa [Pages.page_set_self]
    obtain ⟨s₁, hadd, hcount₁, hpiece₁, hfree₁, hoff₁, hfresh₁, hother⟩ :=
      addOvflpage_spec (s := s.set (ovfl i) p') hinj hcount hpiece'
    rw [Pages.page_set_self, hfree, htake, ovflsize] at hfree₁
    rw [Pages.page_set_self, hoff, htake] at hoff₁
    have hlink : From ovfl i s s₁ := fun a ha => by
      rw [hother a (ha i (Nat.le_refl i)) (ha (i + 1) (Nat.le_succ i)),
        Pages.page_set_of_ne (ha i (Nat.le_refl i))]
    have hstep : moveKey bsize ovfl (fuel + 1) (ovfl i) key val s =
        if key.drop mb = [] then moveKey bsize ovfl fuel (ovfl (i + 1)) (key.drop mb)
          ((s₁.page (ovfl i)).endKey val).2
          (s₁.set (ovfl i) ((s₁.page (ovfl i)).endKey val).1)
        else moveKey bsize ovfl fuel (ovfl (i + 1)) (key.drop mb) val s₁ := by
      cases key with
      | nil => exact absurd rfl hkey
      | cons x xs =>
        rw [moveKey]
        · dsimp only
          rw [hfresh.space hb₁ hb, ← hmb, hpush]
          dsimp only
          rw [hadd]
        · exact hkey
    rw [hstep]
    by_cases hrest : key.drop mb = []
    · rw [if_pos hrest, hrest]
      have hall : key.take mb = key := by
        have := List.take_append_drop mb key
        rwa [hrest, List.append_nil] at this
      rw [hall] at hpiece₁ htake
      have hroom := hpiece₁.room
      obtain ⟨p₂, rest, hend, hendpage⟩ := endKey_spec val hb hpiece₁
        (by rw [hfree₁, sub16]; omega) (by rw [hoff₁]; omega)
      rw [hend]
      refine ⟨s₁.set (ovfl i) p₂, i, rest, ?_, Key.last ⟨rfl, ?_⟩, Nat.le_refl i, ?_, hcount₁,
        fun a ha => ?_⟩
      · cases fuel with
        | zero => rfl
        | succ fuel => rfl
      · rw [Pages.page_set_self]
        exact hendpage
      · rwa [Pages.page_set_of_ne hne.symm]
      · rw [Pages.page_set_of_ne (ha i (Nat.le_refl i))]
        exact hlink a ha
    · rw [if_neg hrest]
      have hfull : mb + 14 = bsize := by
        have hdrop : 0 < (key.drop mb).length := List.length_pos_iff.2 hrest
        rw [List.length_drop] at hdrop
        omega
      obtain ⟨s', e, rest, heq, hkeys, hie, hfresh', hcount', hfrom⟩ := ih hrest
        (by rw [List.length_drop]; omega) hfresh₁ hcount₁
      refine ⟨s', e, rest, heq, ?_, by omega, hfresh', hcount',
        hlink.trans hfrom (Nat.le_succ i)⟩
      rw [← List.take_append_drop mb key]
      refine Key.more ?_ (htake.symm ▸ hfull) hkeys
      rw [hfrom.before hinj (Nat.lt_succ_self i)]
      exact hpiece₁

end

end Bsdi.Db.Hash.Big
