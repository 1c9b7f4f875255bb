import Bsdi.Stdio.Output

/-!
# What is written

The bytes that the write function took and those in the buffer are the bytes output so far, in order,
whichever of the entry points they went through. `Set` is what a stream keeps in the middle of an
operation; `Good` is what holds between operations, and fixes `_w` from `_p`.
-/

namespace Bsdi.Stdio

open Bsdi.Lib

namespace Stream

def text (s : Stream) : List Byte := s.out ++ slice s.mem 0 s.p

/-- What `_w` is: the free space, less the used space with a line buffer. Without a buffer it is 0,
so that `putc` goes to `__swbuf`. -/
def room (s : Stream) : Int :=
  match s.mode with
  | .fbf => s.size - s.p
  | .lbf => -s.p
  | .nbf => 0

/-- A stream with a buffer. -/
structure Set (s : Stream) : Prop where
  base : s.base = true
  pos : 0 < s.size
  one : s.mode = .nbf → s.size = 1
  plain : s.str = false
  lbfsize : s.lbfsize = if s.mode = .lbf then -(s.size : Int) else 0

/-- A stream between two operations. -/
structure Good (s : Stream) : Prop extends s.Set where
  le : s.p ≤ s.size
  w : s.w = s.room
  empty : s.mode = .nbf → s.p = 0
  lines : s.mode = .lbf → newline ∉ slice s.mem 0 s.p

/-- A stream that has no buffer yet. -/
structure Fresh (s : Stream) : Prop where
  base : s.base = false
  pos : 0 < s.size
  one : s.mode = .nbf → s.size = 1
  plain : s.str = false
  p : s.p = 0
  w : s.w = 0
  lbfsize : s.lbfsize = 0

variable {dev : Device} {s s' : Stream} {c : Byte} {bytes : List Byte} {iov : List (List Byte)}

/-! ### Flushing -/

/-- The stream after `__sflush`. -/
def flushed (s : Stream) (calls : Nat) : Stream :=
  { s with p := 0, w := if s.mode = .fbf then s.size else 0, calls, out := s.text }

theorem write_eq (hdev : Accepts dev) (s : Stream) (bytes : List Byte) (hbytes : bytes ≠ []) :
    ∃ t, 0 < t ∧ t ≤ bytes.length ∧ s.write dev bytes =
      ((t : Int), { s with calls := s.calls + 1, out := s.out ++ bytes.take t }) := by
  obtain ⟨hpos, hle⟩ := hdev s.calls bytes.length (List.length_pos_iff.2 hbytes)
  refine ⟨(dev s.calls bytes.length).toNat, by omega, by omega, ?_⟩
  rw [write, Int.toNat_of_nonneg (by omega)]

theorem flushLoop_eq (hdev : Accepts dev) {k p n : Nat} (hn : n ≤ k) :
    ∃ calls, flushLoop dev k p n s = (false, { s with calls, out := s.out ++ slice s.mem p n }) := by
  induction k generalizing p n s with
  | zero =>
    have : n = 0 := by omega
    subst this
    exact ⟨s.calls, by simp [flushLoop]⟩
  | succ k ih =>
    by_cases h0 : n = 0
    · subst h0
      exact ⟨s.calls, by simp [flushLoop]⟩
    · obtain ⟨t, hpos, hle, hwrite⟩ := write_eq hdev s (slice s.mem p n)
        (List.ne_nil_of_length_pos (by simp; omega))
      rw [length_slice] at hle
      obtain ⟨calls, hrest⟩ := ih (p := p + t) (n := n - t)
        (s := { s with calls := s.calls + 1, out := s.out ++ slice s.mem p t }) (by omega)
      refine ⟨calls, ?_⟩
      have hnot : ¬ (t : Int) ≤ 0 := by omega
      have hsplit : slice s.mem p n = slice s.mem p t ++ slice s.mem (p + t) (n - t) := by
        rw [← slice_append, Nat.add_sub_cancel' hle]
      rw [flushLoop, if_neg h0, hwrite]
      simp only [if_neg hnot, Int.toNat_natCast]
      rw [take_slice hle, hrest, hsplit, List.append_assoc]

theorem sflush_eq (hdev : Accepts dev) (hbase : s.base = true) :
    ∃ calls, s.sflush dev = (false, s.flushed calls) := by
  obtain ⟨calls, hloop⟩ := flushLoop_eq hdev (p := 0)
    (s := { s with p := 0, w := if s.mode = .fbf then s.size else 0 }) (Nat.le_refl s.p)
  exact ⟨calls, by rw [sflush, if_pos hbase, hloop]; rfl⟩

@[simp]
theorem flushed_text {calls : Nat} : (s.flushed calls).text = s.text := by
  simp [flushed, text]

@[simp]
theorem flushed_p {calls : Nat} : (s.flushed calls).p = 0 := rfl

@[simp]
theorem flushed_mode {calls : Nat} : (s.flushed calls).mode = s.mode := rfl

theorem Set.flushed (h : s.Set) (calls : Nat) : (s.flushed calls).Good where
  base := h.base
  pos := h.pos
  one := h.one
  plain := h.plain
  lbfsize := h.lbfsize
  le := Nat.zero_le _
  w := by cases hm : s.mode <;> simp [Stream.flushed, room, hm]
  empty _ := rfl
  lines _ := by simp [Stream.flushed]

/-! ### One character -/

@[simp]
theorem push_text : (s.push c).text = s.text ++ [c] := by
  have happend : slice (store s.mem s.p [c]) 0 (s.p + [c].length) = _ := slice_store_append
  simpa [text, push] using happend

theorem Set.push (h : s.Set) (hp : s.p + 1 ≤ s.size) (hw : s.w = s.room) (hmode : s.mode ≠ .nbf)
    (hc : s.mode = .lbf → c ≠ newline) (hlines : s.mode = .lbf → newline ∉ slice s.mem 0 s.p) :
    (Stream.push { s with w := s.w - 1 } c).Good := by
  refine ⟨⟨h.base, h.pos, h.one, h.plain, h.lbfsize⟩, hp, ?_, fun hm => absurd hm hmode,
    fun hm => ?_⟩
  · change s.w - 1 = room _
    cases hm : s.mode with
    | nbf => exact absurd hm hmode
    | lbf =>
      simp only [room, Stream.push, hm] at hw ⊢
      omega
    | fbf =>
      simp only [room, Stream.push, hm] at hw ⊢
      omega
  · have happend : slice (store s.mem s.p [c]) 0 (s.p + [c].length) = _ := slice_store_append
    change newline ∉ slice (store s.mem s.p [c]) 0 (s.p + [c].length)
    rw [happend, List.mem_append, List.mem_singleton, not_or]
    exact ⟨hlines hm, fun hn => hc hm hn.symm⟩

theorem push_sub_text : (Stream.push { s with w := s.w - 1 } c).text = s.text ++ [c] := push_text

theorem Set.swbufEnd (hdev : Accepts dev) (h : s.Set) (hlt : s.p < s.size)
    (hw : s.w = s.room ∨ s.mode = .lbf ∧ c = newline)
    (hlines : s.mode = .lbf → newline ∉ slice s.mem 0 s.p) :
    ∃ s', s.swbufEnd dev c = (false, s') ∧ s'.Good ∧ s'.mode = s.mode ∧ s'.text = s.text ++ [c] := by
  have hset : (Stream.push { s with w := s.w - 1 } c).Set :=
    ⟨h.base, h.pos, h.one, h.plain, h.lbfsize⟩
  by_cases hflush : s.p + 1 = s.size ∨ (s.mode = .lbf ∧ c = newline)
  · obtain ⟨calls, heq⟩ := sflush_eq hdev hset.base
    refine ⟨_, (if_pos hflush).trans heq, hset.flushed calls, rfl, ?_⟩
    rw [flushed_text, push_sub_text]
  · refine ⟨_, if_neg hflush, ?_, rfl, push_sub_text⟩
    rw [not_or] at hflush
    have hmode : s.mode ≠ .nbf := fun hm => by
      have := h.one hm
      omega
    exact h.push hlt (by rwa [or_iff_left hflush.2] at hw) hmode (fun hm hc => hflush.2 ⟨hm, hc⟩) hlines

theorem Good.swbuf (hdev : Accepts dev) (h : s.Good)
    (hfull : s.p = s.size ∨ s.mode = .nbf ∨ s.mode = .lbf ∧ c = newline) (w : Int) :
    ∃ s', Stream.swbuf dev c { s with w } = (false, s') ∧ s'.Good ∧ s'.mode = s.mode ∧
      s'.text = s.text ++ [c] := by
  have hset : Set { s with w := s.lbfsize } := ⟨h.base, h.pos, h.one, h.plain, h.lbfsize⟩
  have hready : ready { s with w := s.lbfsize } = { s with w := s.lbfsize } := if_pos h.base
  unfold Stream.swbuf
  simp only [hready]
  by_cases hle : s.size ≤ s.p
  · obtain ⟨calls, heq⟩ := sflush_eq hdev hset.base
    have hgood := hset.flushed calls
    obtain ⟨s', hend, hs', hmode, htext⟩ :=
      hgood.toSet.swbufEnd (c := c) hdev hgood.pos (.inl hgood.w) hgood.lines
    rw [if_pos hle, heq]
    exact ⟨s', hend, hs', hmode, by rw [htext, flushed_text]; rfl⟩
  · rw [if_neg hle]
    have hw : ({ s with w := s.lbfsize } : Stream).w = room { s with w := s.lbfsize } ∨
        s.mode = .lbf ∧ c = newline := by
      rcases hfull with hp | hm | hm
      · omega
      · left
        simp [room, hm, h.lbfsize]
      · exact .inr hm
    exact hset.swbufEnd hdev (Nat.lt_of_not_le hle) hw h.lines

theorem Fresh.room_swsetup (h : s.Fresh) : s.swsetup.w = s.swsetup.room := by
  have hp := h.p
  cases hm : s.mode <;> simp [Stream.swsetup, room, hm, hp]

theorem Fresh.swsetup (h : s.Fresh) : s.swsetup.Good := by
  have hp := h.p
  have hlbf := h.lbfsize
  have hone := h.one
  have hplain := h.plain
  refine ⟨⟨?_, ?_, ?_, ?_, ?_⟩, ?_, h.room_swsetup, ?_, ?_⟩ <;>
    cases hm : s.mode <;> simp_all [Stream.swsetup, h.pos]

theorem swsetup_mode : s.swsetup.mode = s.mode := by
  unfold Stream.swsetup
  cases s.mode <;> rfl

theorem swsetup_text : s.swsetup.text = s.text := by
  unfold Stream.swsetup
  cases s.mode <;> rfl

theorem Fresh.swbuf (hdev : Accepts dev) (h : s.Fresh) (w : Int) :
    ∃ s', Stream.swbuf dev c { s with w } = (false, s') ∧ s'.Good ∧ s'.mode = s.mode ∧
      s'.text = s.text ++ [c] := by
  have hlbf : s.lbfsize = s.w := by rw [h.lbfsize, h.w]
  have hw : ({ s with w := s.lbfsize } : Stream) = s := congrArg (fun w => ({ s with w } : Stream)) hlbf
  have hready : ready { s with w := s.lbfsize } = s.swsetup := by rw [hw, ready, h.base]; rfl
  have hgood := h.swsetup
  have hlt : s.swsetup.p < s.swsetup.size := by
    have hp : s.swsetup.p = 0 := by
      unfold Stream.swsetup
      cases s.mode <;> exact h.p
    rw [hp]
    exact hgood.pos
  unfold Stream.swbuf
  simp only [hready]
  rw [if_neg (Nat.not_le.2 hlt)]
  obtain ⟨s', hend, hs', hmode, htext⟩ := hgood.toSet.swbufEnd (c := c) hdev hlt (.inl hgood.w) hgood.lines
  exact ⟨s', hend, hs', by rw [hmode, swsetup_mode], by rw [htext, swsetup_text]⟩

theorem putc_eq : s.putc dev c = if 0 ≤ s.w - 1 ∨ (s.lbfsize ≤ s.w - 1 ∧ c ≠ newline) then
    (false, Stream.push { s with w := s.w - 1 } c) else Stream.swbuf dev c { s with w := s.w - 1 } := rfl

theorem Good.putc (hdev : Accepts dev) (h : s.Good) (c : Byte) :
    ∃ s', s.putc dev c = (false, s') ∧ s'.Good ∧ s'.mode = s.mode ∧ s'.text = s.text ++ [c] := by
  have hw := h.w
  have hlbf := h.lbfsize
  have hle := h.le
  rw [putc_eq]
  by_cases hroom : 0 ≤ s.w - 1 ∨ (s.lbfsize ≤ s.w - 1 ∧ c ≠ newline)
  · -- There is room: the macro alone.
    rw [if_pos hroom]
    have hfits : s.p + 1 ≤ s.size ∧ s.mode ≠ .nbf ∧ (s.mode = .lbf → c ≠ newline) := by
      cases hm : s.mode with
      | nbf =>
        simp only [room, hm] at hw
        simp only [hm, reduceCtorEq, if_false] at hlbf
        omega
      | lbf =>
        simp only [room, hm] at hw
        simp only [hm, if_true] at hlbf
        rcases hroom with hroom | ⟨hroom, hc⟩
        · omega
        · exact ⟨by omega, by simp, fun _ => hc⟩
      | fbf =>
        simp only [room, hm] at hw
        simp only [hm, reduceCtorEq, if_false] at hlbf
        exact ⟨by omega, by simp, by simp⟩
    obtain ⟨hp, hmode, hc⟩ := hfits
    exact ⟨_, rfl, h.toSet.push hp h.w hmode hc h.lines, rfl, push_sub_text⟩
  · rw [if_neg hroom]
    refine h.swbuf hdev ?_ (s.w - 1)
    cases hm : s.mode with
    | nbf => exact .inr (.inl rfl)
    | lbf =>
      simp only [room, hm, if_true] at hw hlbf
      by_cases hc : c = newline
      · exact .inr (.inr ⟨rfl, hc⟩)
      · left
        rw [hw, hlbf] at hroom
        have : ¬ -(s.size : Int) ≤ -s.p - 1 := fun hle => hroom (.inr ⟨hle, hc⟩)
        omega
    | fbf =>
      simp only [room, hm] at hw
      left
      omega

/-! ### Many characters -/

theorem getiov_cons (h : resid iov ≠ 0) :
    ∃ p rest, getiov iov = p :: rest ∧ p ≠ [] ∧ iov.flatten = p ++ rest.flatten := by
  induction iov with
  | nil => exact absurd rfl h
  | cons p rest ih =>
    by_cases hp : p = []
    · subst hp
      simpa [getiov] using ih (by simpa [resid] using h)
    · exact ⟨p, rest, by simp [getiov, hp], hp, rfl⟩

theorem resid_drop {p : List Byte} {rest : List (List Byte)} {w : Nat} (hw : w ≤ p.length) :
    resid (p.drop w :: rest) = p.length - w + rest.flatten.length := by
  simp [resid]

@[simp]
theorem copy_text : (s.copy bytes).text = s.text ++ bytes := by
  simp only [text, copy, slice_store_append, List.append_assoc]

def full (s : Stream) : Nat := if s.p = s.size then 1 else 0

/-- What a turn of a loop does: so many bytes of the piece are output, and where there are none a
full buffer became empty. -/
structure Turned (p : List Byte) (s : Stream) (w : Nat) (s' : Stream) : Prop where
  le : w ≤ p.length
  text : s'.text = s.text ++ p.take w
  mode : s'.mode = s.mode
  less : 0 < w ∨ s.full = 1 ∧ s'.full = 0

theorem Good.copy (h : s.Good) (bytes : List Byte) (hmode : s.mode ≠ .nbf) (hp : s.p + bytes.length ≤ s.size) :
    Set { s.copy bytes with w := s.w - bytes.length } ∧
    ({ s.copy bytes with w := s.w - bytes.length } : Stream).w =
      room { s.copy bytes with w := s.w - bytes.length } ∧
    ({ s.copy bytes with w := s.w - bytes.length } : Stream).p ≤ s.size ∧
    (s.mode = .lbf → newline ∉ bytes → newline ∉ slice (s.copy bytes).mem 0 (s.copy bytes).p) := by
  refine ⟨⟨h.base, h.pos, h.one, h.plain, h.lbfsize⟩, ?_, hp, fun hm hn => ?_⟩
  · have hw := h.w
    cases hm : s.mode with
    | nbf => exact absurd hm hmode
    | lbf =>
      simp only [room, Stream.copy, hm] at hw ⊢
      omega
    | fbf =>
      simp only [room, Stream.copy, hm] at hw ⊢
      omega
  · simp only [Stream.copy, slice_store_append, List.mem_append, not_or]
    exact ⟨h.lines hm, hn⟩

theorem Good.direct (hdev : Accepts dev) (h : s.Good) (hp : s.p = 0) {p : List Byte} {n : Nat}
    (hn : 0 < n) (hle : n ≤ p.length) :
    ∃ (t : Nat) (s' : Stream), s.write dev (p.take n) = ((t : Int), s') ∧ 0 < t ∧ t ≤ n ∧ s'.Good ∧
      Turned p s t s' := by
  have hlen : (p.take n).length = n := List.length_take_of_le hle
  obtain ⟨t, hpos, ht, hwrite⟩ := write_eq hdev s (p.take n)
    (List.ne_nil_of_length_pos (by rw [hlen]; exact hn))
  rw [hlen] at ht
  rw [List.take_take, Nat.min_eq_left ht] at hwrite
  refine ⟨t, _, hwrite, hpos, ht, ⟨⟨h.base, h.pos, h.one, h.plain, h.lbfsize⟩, h.le, h.w, h.empty,
    h.lines⟩, Nat.le_trans ht hle, ?_, rfl, .inl hpos⟩
  simp [text, hp]

theorem Good.fill (hdev : Accepts dev) (h : s.Good) {p : List Byte} {w : Nat} (hw : w = s.size - s.p)
    (hle : w ≤ p.length) :
    ∃ s', (s.copy (p.take w)).sflush dev = (false, s') ∧ s'.Good ∧ Turned p s w s' := by
  have hset : (s.copy (p.take w)).Set := ⟨h.base, h.pos, h.one, h.plain, h.lbfsize⟩
  obtain ⟨calls, heq⟩ := sflush_eq hdev hset.base
  refine ⟨_, heq, hset.flushed calls, hle, by simp, rfl, ?_⟩
  have hpos := h.pos
  have hple := h.le
  rcases Nat.eq_zero_or_pos w with h0 | h0
  · right
    refine ⟨if_pos (by omega), if_neg ?_⟩
    change 0 ≠ s.size
    omega
  · exact .inl h0

theorem Good.fbfTurn (hdev : Accepts dev) (h : s.Good) (hmode : s.mode = .fbf) {p : List Byte}
    (hp : p ≠ []) : ∃ w s', s.fbfTurn dev p = (some w, s') ∧ s'.Good ∧ Turned p s w s' := by
  have hw := h.w
  have hle := h.le
  have hlen := List.length_pos_iff.2 hp
  simp only [room, hmode] at hw
  unfold Stream.fbfTurn
  simp only [h.plain, Bool.false_eq_true, if_false]
  by_cases hfill : 0 < s.p ∧ s.w < p.length
  · obtain ⟨s', heq, hs', hturn⟩ := h.fill hdev (p := p) (w := s.w.toNat) (by omega) (by omega)
    rw [if_pos hfill, heq]
    exact ⟨_, s', rfl, hs', hturn⟩
  · rw [if_neg hfill]
    by_cases hdirect : s.size ≤ p.length
    · obtain ⟨t, s', hwrite, hpos, -, hs', hturn⟩ := h.direct hdev (by omega) h.pos hdirect
      have hnot : ¬ (t : Int) ≤ 0 := by omega
      rw [if_pos hdirect, hwrite]
      simp only [if_neg hnot, Int.toNat_natCast]
      exact ⟨t, s', rfl, hs', hturn⟩
    · rw [if_neg hdirect]
      obtain ⟨hset, hw', hle', -⟩ := h.copy p (by simp [hmode]) (by omega)
      refine ⟨p.length, _, rfl, ⟨hset, hle', hw', ?_, ?_⟩, Nat.le_refl _, ?_, rfl, .inl hlen⟩
      · intro hm
        exact absurd (hmode.symm.trans hm) (by simp)
      · intro hm
        exact absurd (hmode.symm.trans hm) (by simp)
      · rw [List.take_length]
        change (s.copy p).text = _
        exact copy_text

theorem Turned.lt {p : List Byte} {rest : List (List Byte)} {w : Nat} (h : Turned p s w s') {k : Nat}
    (hk : 2 * (p.length + rest.flatten.length) + s.full < k + 1) :
    2 * resid (p.drop w :: rest) + s'.full < k := by
  have hle := h.le
  have hfull : s'.full ≤ 1 := by
    unfold Stream.full
    split <;> omega
  rw [resid_drop hle]
  rcases h.less with hw | ⟨h₁, h₀⟩
  · omega
  · omega

def Done (iov : List (List Byte)) (s s' : Stream) : Prop :=
  s'.Good ∧ s'.mode = s.mode ∧ s'.text = s.text ++ iov.flatten

theorem Turned.done {p : List Byte} {rest : List (List Byte)} {w : Nat} (h : Turned p s w s')
    (hs' : s'.Good) (hiov : iov.flatten = p ++ rest.flatten) (h0 : resid (p.drop w :: rest) = 0) :
    Done iov s s' := by
  have hle := h.le
  rw [resid_drop hle] at h0
  have hw : w = p.length := by omega
  have hrest : rest.flatten = [] := List.length_eq_zero_iff.1 (by omega)
  refine ⟨hs', h.mode, ?_⟩
  rw [h.text, hiov, hw, hrest, List.take_length, List.append_nil]

theorem Turned.trans {p : List Byte} {rest : List (List Byte)} {w : Nat} {s'' : Stream}
    (h : Turned p s w s') (hiov : iov.flatten = p ++ rest.flatten)
    (h' : Done (p.drop w :: rest) s' s'') : Done iov s s'' := by
  obtain ⟨hs'', hmode, htext⟩ := h'
  refine ⟨hs'', hmode.trans h.mode, ?_⟩
  rw [htext, h.text, hiov, List.flatten_cons, List.append_assoc, ← List.append_assoc (p.take w),
    List.take_append_drop]

theorem fbfLoop_done (hdev : Accepts dev) {k : Nat} (h : s.Good) (hmode : s.mode = .fbf)
    (h0 : resid iov ≠ 0) (hk : 2 * resid iov + s.full < k) :
    ∃ s', fbfLoop dev k iov s = some (false, s') ∧ Done iov s s' := by
  induction k generalizing iov s with
  | zero => omega
  | succ k ih =>
    obtain ⟨p, rest, hget, hp, hiov⟩ := getiov_cons h0
    obtain ⟨w, s', hturn, hs', hturned⟩ := h.fbfTurn hdev hmode hp
    have hless : 2 * resid (p.drop w :: rest) + s'.full < k :=
      hturned.lt (by rwa [resid, hiov, List.length_append] at hk)
    simp only [fbfLoop, hget, hturn]
    by_cases hend : resid (p.drop w :: rest) = 0
    · rw [if_pos hend]
      exact ⟨s', rfl, hturned.done hs' hiov hend⟩
    · rw [if_neg hend]
      obtain ⟨s'', hloop, hdone⟩ := ih hs' (hturned.mode.trans hmode) hend hless
      exact ⟨s'', hloop, hturned.trans hiov hdone⟩

theorem nbfLoop_done (hdev : Accepts dev) {k : Nat} (h : s.Good) (hmode : s.mode = .nbf)
    (h0 : resid iov ≠ 0) (hk : 2 * resid iov + s.full < k) :
    ∃ s', nbfLoop dev k iov s = some (false, s') ∧ Done iov s s' := by
  induction k generalizing iov s with
  | zero => omega
  | succ k ih =>
    obtain ⟨p, rest, hget, hp, hiov⟩ := getiov_cons h0
    have hlen := List.length_pos_iff.2 hp
    have hn : 0 < min p.length bufsiz := Nat.lt_min.2 ⟨hlen, by decide⟩
    obtain ⟨t, s', hwrite, hpos, -, hs', hturned⟩ :=
      h.direct hdev (h.empty hmode) hn (Nat.min_le_left _ _)
    have hnot : ¬ (t : Int) ≤ 0 := by omega
    have hless : 2 * resid (p.drop t :: rest) + s'.full < k :=
      hturned.lt (by rwa [resid, hiov, List.length_append] at hk)
    simp only [nbfLoop, hget, hwrite, if_neg hnot, Int.toNat_natCast]
    by_cases hend : resid (p.drop t :: rest) = 0
    · rw [if_pos hend]
      exact ⟨s', rfl, hturned.done hs' hiov hend⟩
    · rw [if_neg hend]
      obtain ⟨s'', hloop, hdone⟩ := ih hs' (hturned.mode.trans hmode) hend hless
      exact ⟨s'', hloop, hturned.trans hiov hdone⟩

/-! ### Lines -/

theorem newlineDistance_cons (c : Byte) (p : List Byte) :
    newlineDistance (c :: p) = if c = newline then 1 else newlineDistance p + 1 := by
  by_cases hc : c = newline
  · simp [newlineDistance, List.idxOf?_cons, hc]
  · cases h : p.idxOf? newline <;> simp [newlineDistance, List.idxOf?_cons, hc, h]

theorem newlineDistance_pos (p : List Byte) : 0 < newlineDistance p := by
  unfold newlineDistance
  split <;> omega

theorem newlineDistance_drop {p : List Byte} {w : Nat} (hw : w < newlineDistance p)
    (hle : w ≤ p.length) :
    newline ∉ p.take w ∧ newlineDistance (p.drop w) = newlineDistance p - w := by
  induction p generalizing w with
  | nil =>
    have : w = 0 := by simpa using hle
    simp [this]
  | cons c p ih =>
    cases w with
    | zero => simp
    | succ w =>
      rw [newlineDistance_cons] at hw ⊢
      by_cases hc : c = newline
      · rw [if_pos hc] at hw
        omega
      · rw [if_neg hc] at hw ⊢
        obtain ⟨hn, hd⟩ := ih (Nat.lt_of_succ_lt_succ hw) (Nat.le_of_succ_le_succ hle)
        refine ⟨?_, ?_⟩
        · rw [List.take_succ_cons, List.mem_cons, not_or]
          exact ⟨fun h => hc h.symm, hn⟩
        · rw [List.drop_succ_cons, hd]
          omega

theorem Good.lbfTurn (hdev : Accepts dev) (h : s.Good) (hmode : s.mode = .lbf) {p : List Byte} {n : Nat}
    (hn : 0 < n) (hle : n ≤ p.length) :
    ∃ w s', s.lbfTurn dev p n = (some w, s') ∧ s'.Set ∧ w ≤ n ∧ Turned p s w s' ∧
      (newline ∉ p.take w → s'.Good) := by
  have hw := h.w
  have hple := h.le
  simp only [room, hmode] at hw
  unfold Stream.lbfTurn
  by_cases hfill : 0 < s.p ∧ s.w + s.size < n
  · obtain ⟨s', heq, hs', hturn⟩ := h.fill hdev (p := p) (w := (s.w + s.size).toNat) (by omega) (by omega)
    simp only [if_pos hfill, heq]
    exact ⟨_, s', rfl, hs'.toSet, by omega, hturn, fun _ => hs'⟩
  · simp only [if_neg hfill]
    by_cases hdirect : s.size ≤ n
    · obtain ⟨t, s', hwrite, hpos, ht, hs', hturn⟩ := h.direct hdev (by omega) h.pos
        (Nat.le_trans hdirect hle)
      have hnot : ¬ (t : Int) ≤ 0 := by omega
      simp only [if_pos hdirect, hwrite, if_neg hnot, Int.toNat_natCast]
      exact ⟨t, s', rfl, hs'.toSet, Nat.le_trans ht hdirect, hturn, fun _ => hs'⟩
    · simp only [if_neg hdirect]
      have hlen : (p.take n).length = n := List.length_take_of_le hle
      obtain ⟨hset, hw', hle', hlines⟩ := h.copy (p.take n) (by simp [hmode]) (by omega)
      rw [hlen] at hset hw' hle'
      refine ⟨n, _, rfl, hset, Nat.le_refl n, ⟨hle, ?_, rfl, .inl hn⟩, fun hnl => ?_⟩
      · change (s.copy (p.take n)).text = _
        exact copy_text
      · exact ⟨hset, hle', hw', fun hm => absurd (hmode.symm.trans hm) (by simp),
          fun hm => hlines hm hnl⟩

theorem Turned.flushed {p : List Byte} {w : Nat} (h : Turned p s w s') (hw : 0 < w) (calls : Nat) :
    Turned p s w (s'.flushed calls) :=
  ⟨h.le, by rw [flushed_text, h.text], h.mode, .inl hw⟩

theorem lbfLoop_done (hdev : Accepts dev) {k : Nat} (known : Option Nat) (h : s.Good)
    (hmode : s.mode = .lbf) (h0 : resid iov ≠ 0) (hk : 2 * resid iov + s.full < k)
    (hknown : ∀ d, known = some d → iov.headD [] ≠ [] → d = newlineDistance (iov.headD [])) :
    ∃ s', lbfLoop dev k known iov s = some (false, s') ∧ Done iov s s' := by
  induction k generalizing iov s known with
  | zero => omega
  | succ k ih =>
    obtain ⟨p, rest, hget, hp, hiov⟩ := getiov_cons h0
    have hlen := List.length_pos_iff.2 hp
    -- The distance is that of the piece, known or not.
    have hdist : (if (iov.headD []).isEmpty then none else known).getD (newlineDistance p) =
        newlineDistance p := by
      cases iov with
      | nil => exact absurd rfl h0
      | cons q iov =>
        by_cases hq : q = []
        · simp [hq]
        · have hpq : p = q := by
            have : getiov (q :: iov) = q :: iov := by simp [getiov, hq]
            rw [this] at hget
            exact (List.cons.inj hget).1.symm
          cases known with
          | none => simp
          | some d =>
            have := hknown d rfl (by simpa using hq)
            simp [hq, hpq, this]
    have hpos := newlineDistance_pos p
    obtain ⟨w, s₁, hturn, hset, hwn, hturned, hgood⟩ := h.lbfTurn hdev hmode (p := p)
      (n := min p.length (newlineDistance p)) (by omega) (Nat.min_le_left _ _)
    have hle := hturned.le
    -- After the flush at the end of a line, or without it, the stream is good again.
    have hend : ∃ s', (if newlineDistance p - w = 0 then s₁.sflush dev else (false, s₁)) = (false, s') ∧
        s'.Good ∧ Turned p s w s' := by
      by_cases hline : newlineDistance p - w = 0
      · obtain ⟨calls, heq⟩ := sflush_eq hdev hset.base
        rw [if_pos hline, heq]
        exact ⟨_, rfl, hset.flushed calls, hturned.flushed (by omega) calls⟩
      · rw [if_neg hline]
        exact ⟨s₁, rfl, hgood (newlineDistance_drop (by omega) hle).1, hturned⟩
    obtain ⟨s', hflush, hs', hturned'⟩ := hend
    have hless : 2 * resid (p.drop w :: rest) + s'.full < k :=
      hturned'.lt (by rwa [resid, hiov, List.length_append] at hk)
    simp only [lbfLoop, hget, hdist, hturn, hflush, Bool.false_eq_true, if_false]
    by_cases hdone : resid (p.drop w :: rest) = 0
    · rw [if_pos hdone]
      exact ⟨s', rfl, hturned'.done hs' hiov hdone⟩
    · rw [if_neg hdone]
      obtain ⟨s'', hloop, hfinal⟩ := ih
        (if newlineDistance p - w = 0 then none else some (newlineDistance p - w)) hs'
        (hturned'.mode.trans hmode) hdone hless (by
          intro d hd _
          by_cases hline : newlineDistance p - w = 0
          · simp [hline] at hd
          · rw [if_neg hline] at hd
            rw [← Option.some.inj hd]
            exact (newlineDistance_drop (by omega) hle).2.symm)
      exact ⟨s'', hloop, hturned'.trans hiov hfinal⟩

/-! ### Runs -/

def Sound (s : Stream) : Prop := s.Fresh ∨ s.Good

theorem Good.sfvwrite (hdev : Accepts dev) (h : s.Good) (h0 : resid iov ≠ 0) :
    ∃ s', s.sfvwrite dev (2 * resid iov + 2) iov = some (false, s') ∧ Done iov s s' := by
  have hready : s.ready = s := if_pos h.base
  have hk : 2 * resid iov + s.full < 2 * resid iov + 2 := by
    unfold full
    split <;> omega
  unfold Stream.sfvwrite
  rw [if_neg h0, hready]
  cases hm : s.mode with
  | nbf =>
    simp only [hm]
    exact nbfLoop_done hdev h hm h0 hk
  | lbf =>
    simp only [hm]
    exact lbfLoop_done hdev none h hm h0 hk (by simp)
  | fbf =>
    simp only [hm]
    exact fbfLoop_done hdev h hm h0 hk

theorem Sound.step (hdev : Accepts dev) (h : s.Sound) (op : Op) :
    ∃ s', s.step dev op = some (false, s') ∧ s'.Sound ∧ s'.text = s.text ++ op.bytes := by
  cases op with
  | putc c =>
    rcases h with h | h
    · have hswbuf : s.putc dev c = Stream.swbuf dev c { s with w := s.w - 1 } := by
        rw [putc_eq, h.w, h.lbfsize]
        simp
      obtain ⟨s', heq, hs', -, htext⟩ := h.swbuf (c := c) hdev (s.w - 1)
      exact ⟨s', by rw [Stream.step, hswbuf, heq], .inr hs', htext⟩
    · obtain ⟨s', heq, hs', -, htext⟩ := h.putc hdev c
      exact ⟨s', by rw [Stream.step, heq], .inr hs', htext⟩
  | sfvwrite iov =>
    by_cases h0 : resid iov = 0
    · have hnil : iov.flatten = [] := List.length_eq_zero_iff.1 h0
      exact ⟨s, by rw [Stream.step, Stream.sfvwrite, if_pos h0], h, by simp [Op.bytes, hnil]⟩
    · rcases h with h | h
      · -- The buffer is made first; after that the stream is as one with a buffer.
        have hgood := h.swsetup
        obtain ⟨s', heq, hs', -, htext⟩ := hgood.sfvwrite hdev h0
        refine ⟨s', ?_, .inr hs', by rw [htext, swsetup_text]; rfl⟩
        rw [Stream.step, ← heq]
        have hready : s.ready = s.swsetup.ready := by
          rw [ready, ready, h.base, hgood.base]
          rfl
        simp only [Stream.sfvwrite, hready, if_neg h0]
      · obtain ⟨s', heq, hs', -, htext⟩ := h.sfvwrite hdev h0
        exact ⟨s', heq, .inr hs', htext⟩
  | fflush =>
    rcases h with h | h
    · exact ⟨s, by simp [Stream.step, sflush, h.base], .inl h, by simp [Op.bytes]⟩
    · obtain ⟨calls, heq⟩ := sflush_eq hdev h.base
      exact ⟨_, by rw [Stream.step, heq], .inr (h.toSet.flushed calls), by simp [Op.bytes]⟩

end Stream

/-- A stream as `fopen` leaves it: the buffer will have the given kind and size. -/
def opened (mode : Mode) (size : Nat) (mem : Nat → Byte) : Stream :=
  ⟨false, size, mode, false, false, 0, 0, 0, mem, 0, []⟩

/-- `uio_resid` is an `int`. -/
def Op.Fits : Op → Prop
  | .sfvwrite iov => Stream.resid iov ≤ 2147483647
  | _ => True

/-- The streams reached by operations, before or after `setvbuf`, with the bytes output. Without a
buffer the size is 1. -/
inductive Reached (dev : Device) : Stream → List Byte → Prop
  | fopen {mode : Mode} {size : Nat} (mem : Nat → Byte) :
      0 < size → (mode = .nbf → size = 1) → Reached dev (opened mode size mem) []
  | setvbuf {mode : Mode} {size : Nat} (mem : Nat → Byte) :
      0 < size → (mode = .nbf → size = 1) → Reached dev (opened mode size mem).swsetup []
  | step {s s' : Stream} {sent : List Byte} {op : Op} {failed : Bool} :
      Reached dev s sent → op.Fits → s.step dev op = some (failed, s') →
      Reached dev s' (sent ++ op.bytes)

theorem fresh_opened {mode : Mode} {size : Nat} (mem : Nat → Byte) (hpos : 0 < size)
    (hone : mode = .nbf → size = 1) : (opened mode size mem).Fresh :=
  ⟨rfl, hpos, hone, rfl, rfl, rfl, rfl⟩

theorem Reached.sound {dev : Device} (hdev : Accepts dev) {s : Stream} {sent : List Byte}
    (h : Reached dev s sent) : s.Sound ∧ s.text = sent := by
  induction h with
  | fopen mem hpos hone => exact ⟨.inl (fresh_opened mem hpos hone), rfl⟩
  | setvbuf mem hpos hone =>
    exact ⟨.inr (fresh_opened mem hpos hone).swsetup, Stream.swsetup_text⟩
  | step h hfits hstep ih =>
    obtain ⟨hs, htext⟩ := ih
    obtain ⟨s', heq, hs', htext'⟩ := hs.step hdev _
    rw [hstep] at heq
    cases heq
    exact ⟨hs', by rw [htext', htext]⟩

/-- What is promised of a stream: the bytes taken and those in the buffer are the bytes output, no
line waits in a line buffer, and every operation succeeds. -/
structure Faithful (dev : Device) (room : Stream → Int) (s : Stream) (sent : List Byte) : Prop where
  text : s.out ++ slice s.mem 0 s.p = sent
  le : s.p ≤ s.size
  w : s.base = true → s.w = room s
  lines : s.mode = .lbf → newline ∉ slice s.mem 0 s.p
  total : ∀ op : Op, op.Fits → ∃ s', s.step dev op = some (false, s')

theorem output_faithful (dev : Device) (hdev : Accepts dev) (s : Stream) (sent : List Byte)
    (h : Reached dev s sent) : Faithful dev Stream.room s sent := by
  obtain ⟨hs, htext⟩ := h.sound hdev
  have htotal : ∀ op : Op, op.Fits → ∃ s', s.step dev op = some (false, s') := by
    intro op _
    obtain ⟨s', heq, -⟩ := hs.step hdev op
    exact ⟨s', heq⟩
  rcases hs with hs | hs
  · refine ⟨htext, by simp [hs.p], ?_, by simp [hs.p], htotal⟩
    intro hbase
    simp [hs.base] at hbase
  · exact ⟨htext, hs.le, fun _ => hs.w, hs.lines, htotal⟩

def slowly : Device := fun _ n => min 1 n

theorem accepts_slowly : Accepts slowly := fun _ n hn => by
  unfold slowly
  omega

theorem output_faithful_lines : ∃ s, Reached slowly s [97, newline, 98] ∧
    Faithful slowly Stream.room s [97, newline, 98] := by
  have h₀ : Reached slowly (opened .lbf 4 fun _ => 0) [] := .fopen _ (by decide) (by decide)
  obtain ⟨s, hstep, -⟩ := (h₀.sound accepts_slowly).1.step accepts_slowly (.sfvwrite [[97, newline, 98]])
  have h₁ := h₀.step (show Op.Fits (.sfvwrite [[97, newline, 98]]) from by simp [Op.Fits, Stream.resid])
    hstep
  exact ⟨s, h₁, output_faithful slowly accepts_slowly s _ h₁⟩

/-- Without a buffer `_w` stays 0, although the one byte there is free. -/
theorem output_unbuffered : ¬ ∀ (s : Stream) (sent : List Byte), Reached slowly s sent →
    Faithful slowly (fun s => if s.mode = .lbf then -s.p else s.size - s.p) s sent := by
  intro h
  have h₀ : Reached slowly (opened .nbf 1 fun _ => 0).swsetup [] := .setvbuf _ (by decide) (by decide)
  have := (h _ _ h₀).w rfl
  exact absurd this (by decide)

end Bsdi.Stdio
