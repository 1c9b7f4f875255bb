import Bsdi.Lib.Ensures
import Bsdi.Lib.Memory

/-!
# Writing an archive

The output side of `buf_subs.c`: headers, file data and padding go through one buffer of the
size of an archive block, which `buf_flush` hands to the archive device. The device is known
by its answers: how much each `ar_write` takes, and the block size after each `ar_next`.
-/

namespace Bsdi.Pax

open Lib

abbrev Byte := UInt8

def maxblk : Nat := 64 * 1024

def blkmult : Nat := 512

structure BlockSize where
  size : Nat
  pos : 0 < size
  le : size ≤ maxblk

inductive Stop
  /-- A call returned -1. -/
  | failed
  /-- The device has not answered yet. -/
  | waiting
  /-- The bound on the turns of a loop is used up. -/
  | fuel
  deriving DecidableEq, Repr

/-- What does not change while an archive is written. -/
structure Config where
  /-- `frmt->blkalgn`. -/
  blkalgn : Nat
  wrlimit : Nat

/-- The buffer. Offsets count from `buf`. -/
structure Writer where
  mem : Nat → Byte
  bufpt : Nat
  bufend : Nat
  blksz : Nat
  wrcnt : Nat
  /-- The bytes the device accepted, over all volumes. -/
  out : List Byte
  /-- How much the next calls of `ar_write` take at most; 0 at the end of a volume or after
  an error. -/
  writes : List Nat
  /-- The block size after the next calls of `ar_next`, or that they fail. -/
  volumes : List (Option BlockSize)
  /-- A byte was stored at or beyond `bufend`. -/
  past : Bool

/-- `ar_write(buf, blksz)`: how much was taken. -/
def arWrite (s : Writer) : Except Stop (Nat × Writer) :=
  match s.writes with
  | [] => .error .waiting
  | room :: writes =>
    .ok (min room s.blksz,
      { s with writes := writes, out := s.out ++ slice s.mem 0 (min room s.blksz) })

/-- `ar_next()`: whether there is a next volume. -/
def arNext (s : Writer) : Except Stop (Bool × Writer) :=
  match s.volumes with
  | [] => .error .waiting
  | none :: volumes => .ok (false, { s with volumes := volumes })
  | some b :: volumes => .ok (true, { s with volumes := volumes, blksz := b.size })

/-- The loop of `buf_flush`; `none` stands for -1. -/
def bufFlushLoop (c : Config) (bufcnt : Nat) :
    Nat → Writer → Nat → Nat → Except Stop (Option Nat × Writer)
  | 0, _, _, _ => .error .fuel
  | fuel + 1, s, push, totcnt => do
    let (cnt, s) ← arWrite s
    if cnt = s.blksz then
      let s := { s with wrcnt := s.wrcnt + cnt }
      if 0 < push then
        let s := { s with mem := store s.mem 0 (slice s.mem s.bufend push), bufpt := push }
        if s.blksz ≤ push then
          bufFlushLoop c bufcnt fuel s (push - s.blksz) (totcnt + cnt)
        else
          .ok (some (totcnt + cnt), s)
      else
        .ok (some (totcnt + cnt), { s with bufpt := 0 })
    else if 0 < cnt then
      let left := bufcnt - cnt
      let s := { s with
        wrcnt := s.wrcnt + cnt
        mem := store s.mem 0 (slice s.mem cnt left)
        bufpt := left }
      if c.blkalgn = 0 ∨ left % c.blkalgn = 0 then .ok (some (totcnt + cnt), s) else .ok (none, s)
    else
      let (more, s) ← arNext { s with wrcnt := 0 }
      if more then
        let s := { s with bufend := s.blksz }
        if bufcnt < s.blksz then
          .ok (some 0, s)
        else
          bufFlushLoop c bufcnt fuel s (if s.blksz < bufcnt then bufcnt - s.blksz else push) totcnt
      else
        .ok (none, s)

/-- `buf_flush(bufcnt)`. Every turn of the loop calls `ar_write`. -/
def bufFlush (c : Config) (s : Writer) (bufcnt : Nat) : Except Stop (Option Nat × Writer) := do
  if 0 < c.wrlimit ∧ c.wrlimit < s.wrcnt then
    let (more, s) ← arNext s
    let s := { s with wrcnt := 0 }
    if more then
      let s := { s with bufend := s.blksz }
      if bufcnt < s.blksz then
        .ok (some 0, s)
      else
        bufFlushLoop c bufcnt (s.writes.length + 1) s
          (if s.blksz < bufcnt then bufcnt - s.blksz else 0) 0
    else
      .ok (none, s)
  else
    bufFlushLoop c bufcnt (s.writes.length + 1) s 0 0

/-- `bcopy(out, bufpt, cnt); bufpt += cnt`. -/
def Writer.append (s : Writer) (bytes : List Byte) : Writer :=
  { s with
    mem := store s.mem s.bufpt bytes
    bufpt := s.bufpt + bytes.length
    past := s.past || (decide (0 < bytes.length) && decide (s.bufend < s.bufpt + bytes.length)) }

/-- The loop of `wr_rdbuf`, and with zeros that of `wr_skip`. -/
def fillLoop (c : Config) : Nat → Writer → List Byte → Except Stop Writer
  | 0, _, _ => .error .fuel
  | fuel + 1, s, bytes =>
    if bytes = [] then
      .ok s
    else if s.bufend ≤ s.bufpt then do
      let (cnt, s) ← bufFlush c s s.blksz
      match cnt with
      | none => .error .failed
      | some cnt => fillLoop c fuel (s.append (bytes.take cnt)) (bytes.drop cnt)
    else
      let cnt := s.bufend - s.bufpt
      fillLoop c fuel (s.append (bytes.take cnt)) (bytes.drop cnt)

/-- More turns than a loop can make: each one stores a byte or uses an answer of the device. -/
def Writer.turns (s : Writer) (bytes : List Byte) : Nat :=
  bytes.length + s.writes.length + s.volumes.length + 1

def wrRdbuf (c : Config) (s : Writer) (out : List Byte) : Except Stop Writer :=
  fillLoop c (s.turns out) s out

def wrSkip (c : Config) (s : Writer) (skcnt : Nat) : Except Stop Writer :=
  wrRdbuf c s (List.replicate skcnt 0)

/-- `wr_fin()`. The result of the flush is ignored. -/
def wrFin (c : Config) (s : Writer) : Except Stop Writer :=
  if 0 < s.bufpt then do
    let s := { s with
      mem := store s.mem s.bufpt (List.replicate (s.bufend - s.bufpt) 0)
      bufpt := s.bufend }
    let (_, s) ← bufFlush c s s.blksz
    .ok s
  else
    .ok s

/-- The state after `wr_start`, with the answers the device is going to give. -/
def wrStart (b : BlockSize) (writes : List Nat) (volumes : List (Option BlockSize)) : Writer where
  mem _ := 0
  bufpt := 0
  bufend := b.size
  blksz := b.size
  wrcnt := 0
  out := []
  writes := writes
  volumes := volumes
  past := false

inductive Call
  | rdbuf (out : List Byte)
  | skip (skcnt : Nat)

def Call.bytes : Call → List Byte
  | .rdbuf out => out
  | .skip skcnt => List.replicate skcnt 0

def step (c : Config) (s : Writer) : Call → Except Stop Writer
  | .rdbuf out => wrRdbuf c s out
  | .skip skcnt => wrSkip c s skcnt

def fill (c : Config) (s : Writer) (calls : List Call) : Except Stop Writer := calls.foldlM (step c) s

/-- An archive: the calls, and `wr_fin` at the end. -/
def archive (c : Config) (s : Writer) (calls : List Call) : Except Stop Writer := do
  let s ← fill c s calls
  wrFin c s

def Growing : Nat → List (Option BlockSize) → Prop
  | b, some b' :: volumes => b ≤ b'.size ∧ Growing b'.size volumes
  | _, _ => True

/-- What holds between the calls: the bytes accepted and those in the buffer are all that
was stored so far. -/
structure Holds (s : Writer) (sent : List Byte) : Prop where
  out : s.out ++ slice s.mem 0 s.bufpt = sent
  le : s.bufpt ≤ s.bufend
  bufend : s.bufend = s.blksz
  growing : Growing s.blksz s.volumes
  past : s.past = false

variable {c : Config} {s : Writer} {sent bytes : List Byte}

theorem arNext_cases (s : Writer) :
    arNext s = .error .waiting ∨
      (∃ volumes, s.volumes = none :: volumes ∧
        arNext s = .ok (false, { s with volumes := volumes })) ∨
      ∃ b volumes, s.volumes = some b :: volumes ∧
        arNext s = .ok (true, { s with volumes := volumes, blksz := b.size }) := by
  rw [arNext]
  cases hv : s.volumes with
  | nil => exact .inl rfl
  | cons v volumes =>
    cases v with
    | none => exact .inr (.inl ⟨volumes, rfl, rfl⟩)
    | some b => exact .inr (.inr ⟨b, volumes, rfl, rfl⟩)

theorem Holds.volume {b : BlockSize} {volumes : List (Option BlockSize)} (h : Holds s sent)
    (hfull : s.bufpt = s.blksz) (hv : s.volumes = some b :: volumes) :
    s.blksz ≤ b.size ∧
      Holds { s with volumes := volumes, blksz := b.size, bufend := b.size } sent := by
  obtain ⟨hle, hgrow⟩ : s.blksz ≤ b.size ∧ Growing b.size volumes := by
    have := h.growing
    rwa [hv, Growing] at this
  exact ⟨hle, h.out, hfull ▸ hle, rfl, hgrow, h.past⟩

/-- What a flush leaves: the buffer holds the rest, and there is at least the room it
returns. -/
structure Flushed (s : Writer) (sent : List Byte) (r : Option Nat × Writer) : Prop where
  holds : ∀ cnt, r.1 = some cnt → Holds r.2 sent ∧ cnt ≤ r.2.bufend - r.2.bufpt
  fewer : r.2.writes.length + r.2.volumes.length < s.writes.length + s.volumes.length

theorem bufFlushLoop_spec {fuel : Nat} (h : Holds s sent) (hfull : s.bufpt = s.blksz)
    (hfuel : s.writes.length < fuel) :
    Ensures (· = .waiting) (bufFlushLoop c s.blksz fuel s 0 0) (Flushed s sent) := by
  induction fuel generalizing s with
  | zero => omega
  | succ fuel ih =>
    rw [bufFlushLoop, arWrite]
    cases hw : s.writes with
    | nil => rfl
    | cons room writes =>
      simp only [ok_bind, Nat.lt_irrefl, if_false, Nat.zero_add]
      have hout : slice s.mem 0 s.bufpt = slice s.mem 0 (min room s.blksz) ++
          slice s.mem (min room s.blksz) (s.blksz - min room s.blksz) := by
        have hsum : s.blksz = min room s.blksz + (s.blksz - min room s.blksz) := by omega
        conv_lhs => rw [hfull, hsum, slice_append, Nat.zero_add]
      split_ifs with hall hsome halign
      · -- the whole block was taken
        refine ⟨fun cnt hcnt => ?_, by simp [hw]⟩
        obtain rfl := Option.some.inj hcnt
        rw [hall, Nat.sub_self, slice_zero, List.append_nil] at hout
        refine ⟨⟨?_, Nat.zero_le _, h.bufend, h.growing, h.past⟩, ?_⟩
        · simpa [hall, hout] using h.out
        · simp [hall, h.bufend]
      · -- a part was taken, the rest moves to the front
        refine ⟨fun cnt hcnt => ?_, by simp [hw]⟩
        obtain rfl := Option.some.inj hcnt
        refine ⟨⟨?_, ?_, h.bufend, h.growing, h.past⟩, ?_⟩
        · have hmoved : slice (store s.mem 0 (slice s.mem (min room s.blksz)
              (s.blksz - min room s.blksz))) 0
                (slice s.mem (min room s.blksz) (s.blksz - min room s.blksz)).length =
              slice s.mem (min room s.blksz) (s.blksz - min room s.blksz) := slice_store
          rw [length_slice] at hmoved
          dsimp only
          rw [hmoved, List.append_assoc, ← hout]
          exact h.out
        · dsimp only
          rw [h.bufend]
          exact Nat.sub_le _ _
        · dsimp only
          rw [h.bufend]
          omega
      · exact ⟨fun cnt hcnt => (by cases hcnt), by simp [hw]⟩
      · -- the volume is full
        have hzero : min room s.blksz = 0 := by omega
        rw [hzero, slice_zero, List.append_nil]
        have h₁ : Holds { s with writes := writes, wrcnt := 0 } sent := { h with }
        rcases arNext_cases { s with writes := writes, wrcnt := 0 } with
          heq | ⟨volumes, hv, heq⟩ | ⟨b, volumes, hv, heq⟩
        · rw [heq]
          rfl
        · rw [heq]
          dsimp only at hv
          exact ⟨fun cnt hcnt => (by cases hcnt), by simp only [hw, hv, List.length_cons]; omega⟩
        · rw [heq]
          obtain ⟨hle, h₂⟩ := h₁.volume hfull hv
          dsimp only at hv hle h₂
          simp only [ok_bind, if_true]
          split_ifs with hbig hsmall
          · refine ⟨fun cnt hcnt => ?_, by simp only [hw, hv, List.length_cons]; omega⟩
            obtain rfl := Option.some.inj hcnt
            exact ⟨h₂, Nat.zero_le _⟩
          · omega
          · have hsame : s.blksz = b.size := by omega
            have hloop := ih h₂ (hfull.trans hsame) (by simpa [hw] using hfuel)
            rw [hsame]
            refine hloop.mono fun r hr => ⟨hr.holds, ?_⟩
            have hfewer := hr.fewer
            simp only [hw, hv, List.length_cons] at hfewer ⊢
            omega

theorem bufFlush_spec (h : Holds s sent) (hfull : s.bufpt = s.blksz) :
    Ensures (· = .waiting) (bufFlush c s s.blksz) (Flushed s sent) := by
  rw [bufFlush]
  split_ifs with hlimit
  · rcases arNext_cases s with heq | ⟨volumes, hv, heq⟩ | ⟨b, volumes, hv, heq⟩
    · rw [heq]
      rfl
    · rw [heq]
      exact ⟨fun cnt hcnt => (by cases hcnt), by simp [hv]⟩
    · rw [heq]
      obtain ⟨hle, h₁⟩ := h.volume hfull hv
      have h₂ : Holds { s with volumes := volumes, blksz := b.size, bufend := b.size, wrcnt := 0 }
          sent := { h₁ with }
      simp only [ok_bind, if_true]
      split_ifs with hbig hsmall
      · refine ⟨fun cnt hcnt => ?_, by simp [hv]⟩
        obtain rfl := Option.some.inj hcnt
        exact ⟨h₂, Nat.zero_le _⟩
      · omega
      · have hsame : s.blksz = b.size := by omega
        have hloop := bufFlushLoop_spec (c := c) h₂ (hfull.trans hsame) (Nat.lt_succ_self _)
        rw [hsame]
        refine hloop.mono fun r hr => ⟨hr.holds, ?_⟩
        have hfewer := hr.fewer
        simp only [hv, List.length_cons] at hfewer ⊢
        omega
  · exact bufFlushLoop_spec h hfull (Nat.lt_succ_self _)

theorem Holds.append (h : Holds s sent) (bytes : List Byte)
    (hroom : bytes.length ≤ s.bufend - s.bufpt) : Holds (s.append bytes) (sent ++ bytes) where
  out := by
    rw [Writer.append, slice_store_append, ← List.append_assoc, h.out]
  le := by
    have := h.le
    simp only [Writer.append]
    omega
  bufend := h.bufend
  growing := h.growing
  past := by
    have := h.le
    simp only [Writer.append, h.past, Bool.false_or, Bool.and_eq_false_iff, decide_eq_false_iff_not]
    omega

theorem fillLoop_spec {fuel : Nat} (h : Holds s sent) (hfuel : s.turns bytes ≤ fuel) :
    Ensures (· ≠ .fuel) (fillLoop c fuel s bytes) fun s' => Holds s' (sent ++ bytes) := by
  induction fuel generalizing s sent bytes with
  | zero => simp [Writer.turns] at hfuel
  | succ fuel ih =>
    rw [Writer.turns] at hfuel
    rw [fillLoop]
    split_ifs with hnil hroom
    · simpa [hnil] using h
    · have hfull : s.bufpt = s.blksz := by
        have := h.le
        have := h.bufend
        omega
      cases hflush : bufFlush c s s.blksz with
      | error e =>
        have hspec := bufFlush_spec (c := c) h hfull
        rw [hflush, Ensures.error_iff] at hspec
        simp [hspec]
      | ok r =>
        obtain ⟨cnt, s₁⟩ := r
        have hspec : Flushed s sent (cnt, s₁) := (bufFlush_spec h hfull).post hflush
        have hfewer := hspec.fewer
        dsimp only at hfewer
        cases cnt with
        | none => simp
        | some cnt =>
          obtain ⟨h₁, hcnt⟩ := hspec.holds cnt rfl
          have h₂ := h₁.append (bytes.take cnt) (by
            rw [List.length_take]
            exact Nat.le_trans (Nat.min_le_left _ _) hcnt)
          have hturns : (s₁.append (bytes.take cnt)).turns (bytes.drop cnt) ≤ fuel := by
            simp only [Writer.turns, Writer.append, List.length_drop]
            omega
          have hrest := ih h₂ hturns
          rwa [List.append_assoc, List.take_append_drop] at hrest
    · have h₂ := h.append (bytes.take (s.bufend - s.bufpt)) (by
        rw [List.length_take]
        exact Nat.min_le_left _ _)
      have hpos : 0 < bytes.length := List.length_pos_iff.2 hnil
      have hturns : (s.append (bytes.take (s.bufend - s.bufpt))).turns
          (bytes.drop (s.bufend - s.bufpt)) ≤ fuel := by
        simp only [Writer.turns, Writer.append, List.length_drop]
        omega
      have hrest := ih h₂ hturns
      rwa [List.append_assoc, List.take_append_drop] at hrest

theorem step_spec (h : Holds s sent) (call : Call) :
    Ensures (· ≠ .fuel) (step c s call) fun s' => Holds s' (sent ++ call.bytes) := by
  cases call with
  | rdbuf out => exact fillLoop_spec h (Nat.le_refl _)
  | skip skcnt => exact fillLoop_spec h (Nat.le_refl _)

theorem fill_spec (h : Holds s sent) (calls : List Call) :
    Ensures (· ≠ .fuel) (fill c s calls) fun s' => Holds s' (sent ++ calls.flatMap Call.bytes) := by
  induction calls generalizing s sent with
  | nil => simpa [fill, pure, Except.pure] using h
  | cons call calls ih =>
    rw [fill, List.foldlM_cons]
    refine (step_spec h call).bind fun s₁ h₁ => ?_
    simpa [fill] using ih h₁

/-- The first write that takes anything takes the `data` bytes at the start of the buffer, and
no volume changes the size of the blocks. -/
def takes (data blksz : Nat) : List Nat → List (Option BlockSize) → Bool
  | [], _ => true
  | room :: writes, volumes =>
    if min room blksz = 0 then
      match volumes with
      | [] => true
      | none :: _ => false
      | some b :: volumes => decide (b.size = blksz) && takes data blksz writes volumes
    else
      decide (data ≤ min room blksz)

/-- The flush of `wr_fin` takes what is left in the buffer. -/
def lastTakes (c : Config) (s : Writer) : Bool :=
  decide (s.bufpt = 0) ||
    if 0 < c.wrlimit ∧ c.wrlimit < s.wrcnt then
      match s.volumes with
      | [] => true
      | none :: _ => false
      | some b :: volumes => decide (b.size = s.blksz) && takes s.bufpt s.blksz s.writes volumes
    else
      takes s.bufpt s.blksz s.writes s.volumes

def Last (data : Nat) (s : Writer) (r : Option Nat × Writer) : Prop :=
  (∃ m, data ≤ m ∧ m ≤ s.blksz ∧ r.2.out = s.out ++ slice s.mem 0 m) ∧ r.2.past = s.past

theorem bufFlushLoop_last {fuel data : Nat} (hdata : data ≤ s.blksz)
    (htakes : takes data s.blksz s.writes s.volumes = true) (hfuel : s.writes.length < fuel) :
    Ensures (· = .waiting) (bufFlushLoop c s.blksz fuel s 0 0) (Last data s) := by
  induction fuel generalizing s with
  | zero => omega
  | succ fuel ih =>
    rw [bufFlushLoop, arWrite]
    cases hw : s.writes with
    | nil => rfl
    | cons room writes =>
      rw [hw, takes.eq_def] at htakes
      dsimp only at htakes
      simp only [ok_bind, Nat.lt_irrefl, if_false, Nat.zero_add]
      split_ifs with hall hsome halign
      · exact ⟨⟨s.blksz, hdata, Nat.le_refl _, by rw [hall]⟩, rfl⟩
      · rw [if_neg (by omega), decide_eq_true_eq] at htakes
        exact ⟨⟨_, htakes, Nat.min_le_right _ _, rfl⟩, rfl⟩
      · rw [if_neg (by omega), decide_eq_true_eq] at htakes
        exact ⟨⟨_, htakes, Nat.min_le_right _ _, rfl⟩, rfl⟩
      · have hzero : min room s.blksz = 0 := by omega
        rw [if_pos hzero] at htakes
        rw [hzero, slice_zero, List.append_nil]
        rcases arNext_cases { s with writes := writes, wrcnt := 0 } with
          heq | ⟨volumes, hv, heq⟩ | ⟨b, volumes, hv, heq⟩
        · rw [heq]
          rfl
        · dsimp only at hv
          simp [hv] at htakes
        · dsimp only at hv
          rw [hv, Bool.and_eq_true, decide_eq_true_eq] at htakes
          obtain ⟨hsize, htakes⟩ := htakes
          rw [heq]
          simp only [ok_bind, if_true, hsize, Nat.lt_irrefl, if_false]
          exact ih (s := { s with
            writes := writes, wrcnt := 0, volumes := volumes, blksz := s.blksz, bufend := s.blksz })
            hdata htakes (by simpa [hw] using hfuel)

theorem wrFin_spec (h : Holds s sent) (hlast : lastTakes c s = true) :
    Ensures (· = .waiting) (wrFin c s) fun s' =>
      (∃ k, s'.out = sent ++ List.replicate k 0) ∧ s'.past = false := by
  rw [lastTakes, Bool.or_eq_true, decide_eq_true_eq] at hlast
  rw [wrFin]
  split_ifs with hpos
  · replace hlast := hlast.resolve_left (Nat.pos_iff_ne_zero.1 hpos)
    have hle : s.bufpt ≤ s.blksz := h.bufend ▸ h.le
    let z := List.replicate (s.bufend - s.bufpt) (0 : Byte)
    have hblock : slice (store s.mem s.bufpt z) 0 s.blksz = slice s.mem 0 s.bufpt ++ z := by
      have hlen : s.blksz = s.bufpt + z.length := by
        simp only [z, List.length_replicate, h.bufend]
        omega
      rw [hlen, slice_store_append]
    -- any first part that covers the data is the data and zeros
    have hpart : ∀ m, s.bufpt ≤ m → m ≤ s.blksz → ∃ k,
        slice (store s.mem s.bufpt z) 0 m = slice s.mem 0 s.bufpt ++ List.replicate k 0 := by
      intro m hm hmax
      have hsplit : slice (store s.mem s.bufpt z) 0 m =
          (slice (store s.mem s.bufpt z) 0 s.blksz).take m := by
        rw [show s.blksz = m + (s.blksz - m) by omega, slice_append, List.take_left' (by simp)]
      refine ⟨min (m - s.bufpt) (s.bufend - s.bufpt), ?_⟩
      rw [hsplit, hblock, List.take_append, List.take_of_length_le (by simpa using hm)]
      simp [z, List.take_replicate]
    have hdone : ∀ r : Option Nat × Writer,
        Last s.bufpt { s with mem := store s.mem s.bufpt z, bufpt := s.bufend } r →
        (∃ k, r.2.out = sent ++ List.replicate k 0) ∧ r.2.past = false := by
      rintro r ⟨⟨m, hm, hmax, hout⟩, hpast⟩
      obtain ⟨k, hk⟩ := hpart m hm hmax
      refine ⟨⟨k, ?_⟩, hpast.trans h.past⟩
      rw [hout, hk, ← List.append_assoc, h.out]
    have hflush : Ensures (· = .waiting)
        (bufFlush c { s with mem := store s.mem s.bufpt z, bufpt := s.bufend } s.blksz)
        (Last s.bufpt { s with mem := store s.mem s.bufpt z, bufpt := s.bufend }) := by
      rw [bufFlush]
      dsimp only
      split_ifs at hlast ⊢ with hlimit
      · rcases arNext_cases { s with mem := store s.mem s.bufpt z, bufpt := s.bufend } with
          heq | ⟨volumes, hv, heq⟩ | ⟨b, volumes, hv, heq⟩
        · rw [heq]
          rfl
        · dsimp only at hv
          simp [hv] at hlast
        · dsimp only at hv
          rw [hv, Bool.and_eq_true, decide_eq_true_eq] at hlast
          obtain ⟨hsize, htakes⟩ := hlast
          rw [heq]
          simp only [ok_bind, if_true, hsize, Nat.lt_irrefl, if_false]
          exact bufFlushLoop_last (s := { s with
            mem := store s.mem s.bufpt z, bufpt := s.bufend, wrcnt := 0, volumes := volumes
            blksz := s.blksz, bufend := s.blksz }) hle htakes (Nat.lt_succ_self _)
      · exact bufFlushLoop_last (s := { s with mem := store s.mem s.bufpt z, bufpt := s.bufend })
          hle hlast (Nat.lt_succ_self _)
    exact hflush.bind fun r hr => hdone r hr
  · have hzero : s.bufpt = 0 := Nat.eq_zero_of_not_pos hpos
    refine ⟨⟨0, ?_⟩, h.past⟩
    simpa [hzero] using h.out

theorem holds_start {b : BlockSize} {writes : List Nat} {volumes : List (Option BlockSize)}
    (hgrow : Growing b.size volumes) : Holds (wrStart b writes volumes) [] where
  out := rfl
  le := Nat.zero_le _
  bufend := rfl
  growing := hgrow
  past := rfl

/-- The device gets the bytes of the calls, in order, and zeros, when no volume has smaller
blocks than the one before and the last flush takes what is left. -/
theorem archive_out (c : Config) (b : BlockSize) (writes : List Nat)
    (volumes : List (Option BlockSize)) (calls : List Call) (hgrow : Growing b.size volumes)
    (hlast : ∀ s, fill c (wrStart b writes volumes) calls = .ok s → lastTakes c s = true) :
    Ensures (· ≠ .fuel) (archive c (wrStart b writes volumes) calls) fun s =>
      (∃ k, s.out = calls.flatMap Call.bytes ++ List.replicate k 0) ∧ s.past = false := by
  refine (fill_spec (holds_start hgrow) calls).with_eq.bind fun s hs => ?_
  have hfin := wrFin_spec hs.2 (hlast s hs.1)
  cases heq : wrFin c s with
  | error e =>
    rw [heq, Ensures.error_iff] at hfin
    simp [hfin]
  | ok s' =>
    rw [heq] at hfin
    simpa using hfin

def smallBlock : BlockSize := ⟨512, by decide, by decide⟩

def largeBlock : BlockSize := ⟨1024, by decide, by decide⟩

def fillsTo (c : Config) (s : Writer) (calls : List Call) (check : Writer → Bool) : Bool :=
  match fill c s calls with
  | .ok s => check s
  | .error _ => true

theorem of_fillsTo {calls : List Call} {check : Writer → Bool}
    (h : fillsTo c s calls check = true) (s' : Writer) (heq : fill c s calls = .ok s') :
    check s' = true := by
  rw [fillsTo, heq] at h
  exact h

theorem archive_out_volumes :
    Ensures (· ≠ .fuel)
      (archive ⟨0, 0⟩ (wrStart smallBlock [512, 100, 0, 1024, 1024] [some largeBlock])
        [.rdbuf (List.replicate 1200 7), .skip 500])
      fun s => (∃ k, s.out = [Call.rdbuf (List.replicate 1200 7), .skip 500].flatMap Call.bytes ++
        List.replicate k 0) ∧ s.past = false := by
  have hlast : fillsTo ⟨0, 0⟩ (wrStart smallBlock [512, 100, 0, 1024, 1024] [some largeBlock])
      [.rdbuf (List.replicate 1200 7), .skip 500] (lastTakes ⟨0, 0⟩) = true := by decide +kernel
  generalize [Call.rdbuf (List.replicate 1200 7), Call.skip 500] = calls at hlast ⊢
  exact archive_out ⟨0, 0⟩ smallBlock [512, 100, 0, 1024, 1024] [some largeBlock] calls
    ⟨by decide, trivial⟩ (of_fillsTo hlast)

/-- A short write in the last flush loses what is left in the buffer. -/
theorem archive_loses :
    ¬ ∀ (c : Config) (b : BlockSize) (writes : List Nat) (volumes : List (Option BlockSize))
      (calls : List Call), Ensures (· ≠ .fuel) (archive c (wrStart b writes volumes) calls) fun s =>
        (∃ k, s.out = calls.flatMap Call.bytes ++ List.replicate k 0) ∧ s.past = false := by
  intro h
  have hlen : (archive ⟨512, 0⟩ (wrStart largeBlock [512] []) [.rdbuf (List.replicate 600 7)]).map
      (fun s => s.out.length) = .ok 512 := by decide +kernel
  have hbytes : ([Call.rdbuf (List.replicate 600 7)].flatMap Call.bytes).length = 600 := by
    decide +kernel
  generalize [Call.rdbuf (List.replicate 600 7)] = calls at hlen hbytes
  have hrun := h ⟨512, 0⟩ largeBlock [512] [] calls
  cases hres : archive ⟨512, 0⟩ (wrStart largeBlock [512] []) calls with
  | error e => simp [hres, Except.map] at hlen
  | ok s =>
    rw [hres] at hrun hlen
    obtain ⟨⟨k, hout⟩, -⟩ := hrun
    have hshort : s.out.length = 512 := Except.ok.inj hlen
    rw [hout, List.length_append, hbytes] at hshort
    omega

end Bsdi.Pax
