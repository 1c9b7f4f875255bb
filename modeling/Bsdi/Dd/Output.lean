import Bsdi.Dd.Dd

/-!
# Writing blocks

`dd_out` writes whole blocks from the start of the output buffer and moves what is left to the
start.
-/

namespace Bsdi.Dd

open Lib

variable {c : Config} {s s' s'' : Dd} {bytes bytes' : List Byte} {E : Stop → Prop}

def Config.WritesFail (c : Config) : Prop := c.tape = true ∨ ∃ i, (c.device i).room = none

theorem within_ok {hi size : Nat} (h : hi ≤ size) : within hi size = .ok () := if_pos h

theorem slice_store_self {mem mem' : Nat → Byte} {i j n : Nat} :
    slice (store mem i (slice mem' j n)) i n = slice mem' j n := by
  have h : slice (store mem i (slice mem' j n)) i (slice mem' j n).length = slice mem' j n :=
    slice_store
  rwa [length_slice] at h

theorem store_of_ge {mem : Nat → Byte} {i j : Nat} (h : i + bytes.length ≤ j) :
    store mem i bytes j = mem j := by
  have hnone : bytes[j - i]? = none := List.getElem?_eq_none (by omega)
  rw [store, if_neg (by omega), List.getD_eq_getElem?_getD, hnone]
  rfl

theorem slice_split {mem : Nat → Byte} {n m : Nat} (h : m ≤ n) :
    slice mem 0 n = slice mem 0 m ++ slice mem m (n - m) := by
  have happend : slice mem 0 (m + (n - m)) = slice mem 0 m ++ slice mem (0 + m) (n - m) :=
    slice_append _
  rwa [Nat.add_sub_cancel' h, Nat.zero_add] at happend

structure Wrote (s s' : Dd) (bytes : List Byte) : Prop where
  inp : s'.inp = s.inp
  out : s'.out = s.out
  intrunc : s'.intrunc = s.intrunc
  blocks : s'.blocks = s.blocks
  written : s'.written = s.written ++ bytes
  calls : ∃ new, s'.calls = s.calls ++ new ∧
    ∀ p ∈ new, 0 < p.2 ∧ p.2 ≤ bytes.length ∧ p.1 + p.2 = s.written.length + bytes.length

theorem writeLoop_spec (hE : c.WritesFail → E .writeError) {n fuel outp cnt : Nat}
    (hcnt : 0 < cnt) (hle : cnt ≤ n) (hfuel : cnt ≤ fuel) (hsize : outp + cnt ≤ c.outSize) :
    Ensures E (writeLoop c n fuel outp cnt s) fun p =>
      p.1 = outp + cnt ∧ Wrote s p.2 (slice s.out.mem outp cnt) := by
  induction fuel generalizing outp cnt s with
  | zero => omega
  | succ fuel ih =>
    rw [writeLoop, within_ok hsize, ok_bind]
    dsimp only
    by_cases htape : c.tape = true ∧ (c.device s.writes).interrupts ≠ 0
    · rw [if_pos htape]
      exact hE (.inl htape.1)
    rw [if_neg htape]
    cases hroom : (c.device s.writes).room with
    | none => exact hE (.inr ⟨_, hroom⟩)
    | some room =>
      obtain ⟨nw, hnw⟩ : ∃ nw, nw = min (room + 1) cnt := ⟨_, rfl⟩
      have hcalls : ∀ k, ∀ p ∈ List.replicate k (s.written.length, cnt),
          0 < p.2 ∧ p.2 ≤ cnt ∧ p.1 + p.2 = s.written.length + cnt := by
        intro k p hp
        rw [List.eq_of_mem_replicate hp]
        exact ⟨hcnt, (Nat.le_refl _), rfl⟩
      dsimp only
      rw [← hnw]
      by_cases hdone : nw = cnt
      · have hwrote : Wrote s { s with
            writes := s.writes + 1
            calls := s.calls ++ List.replicate ((c.device s.writes).interrupts + 1)
              (s.written.length, cnt)
            written := s.written ++ slice s.out.mem outp nw } (slice s.out.mem outp cnt) := by
          refine ⟨rfl, rfl, rfl, rfl, by rw [hdone], _, rfl, fun p hp => ?_⟩
          rw [length_slice]
          exact hcalls _ p hp
        split_ifs with hn
        · exact ⟨by rw [hdone], hwrote⟩
        · exact ⟨by rw [hdone], hwrote⟩
      · rw [if_neg (by omega), if_neg hdone]
        split_ifs with htape'
        · exact hE (.inl htape')
        · refine (ih (by omega) (by omega) (by omega) (by omega)).mono ?_
          rintro ⟨outp', s'⟩ ⟨houtp, hwrote⟩
          obtain ⟨new, hnew, hmem⟩ := hwrote.calls
          refine ⟨by omega, hwrote.inp, hwrote.out, hwrote.intrunc, hwrote.blocks, ?_, _,
            hnew.trans (List.append_assoc ..), fun p hp => ?_⟩
          · rw [hwrote.written, List.append_assoc, ← slice_append, Nat.add_sub_cancel' (by omega)]
          · rw [length_slice]
            rcases List.mem_append.mp hp with hp | hp
            · exact hcalls _ p hp
            · obtain ⟨h1, h2, h3⟩ := hmem p hp
              simp only [length_slice, List.length_append] at h2 h3
              omega

structure Flushed (c : Config) (s s' : Dd) (bytes : List Byte) : Prop where
  inp : s'.inp = s.inp
  intrunc : s'.intrunc = s.intrunc
  blocks : s'.blocks = s.blocks
  written : s'.written = s.written ++ bytes
  calls : ∃ new, s'.calls = s.calls ++ new ∧
    ∀ p ∈ new, 0 < p.2 ∧ p.2 ≤ c.obs ∧ c.obs ∣ p.1 + p.2

theorem outLoop_spec (hE : c.WritesFail → E .writeError) {fuel outp : Nat}
    (hfull : c.obs ≤ s.out.dbcnt) (hfuel : s.out.dbcnt ≤ fuel)
    (hsize : outp + s.out.dbcnt ≤ c.outSize) (haligned : c.obs ∣ s.written.length) :
    Ensures E (outLoop c fuel c.obs outp s) fun s' =>
      ∃ m, c.obs ∣ m ∧ m ≤ s.out.dbcnt ∧ s.out.dbcnt - m < c.obs ∧
        s'.out = { s.out with dbcnt := s.out.dbcnt - m } ∧
        Flushed c s s' (slice s.out.mem outp m) := by
  have hobs := c.obs_pos
  induction fuel generalizing outp s with
  | zero => omega
  | succ fuel ih =>
    rw [outLoop]
    refine (writeLoop_spec hE hobs (Nat.le_refl _) (Nat.le_refl _) (by omega)).bind ?_
    rintro ⟨outp', s₁⟩ ⟨houtp, hwrote⟩
    obtain rfl : outp' = outp + c.obs := houtp
    dsimp only
    have hlen : s₁.written.length = s.written.length + c.obs := by
      rw [hwrote.written, List.length_append, length_slice]
    obtain ⟨new, hnew, hmem⟩ := hwrote.calls
    have hcalls : ∀ p ∈ new, 0 < p.2 ∧ p.2 ≤ c.obs ∧ c.obs ∣ p.1 + p.2 := by
      intro p hp
      obtain ⟨h1, h2, h3⟩ := hmem p hp
      rw [length_slice] at h2 h3
      exact ⟨h1, h2, h3 ▸ Nat.dvd_add haligned (Nat.dvd_refl _)⟩
    split_ifs with hlt
    · refine ⟨c.obs, (Nat.dvd_refl _), hfull, hwrote.out ▸ hlt, ?_, hwrote.inp, hwrote.intrunc,
        hwrote.blocks, hwrote.written, new, hnew, hcalls⟩
      rw [hwrote.out]
    · rw [hwrote.out] at hlt ⊢
      obtain ⟨s₂, hs₂⟩ : ∃ s₂ : Dd, s₂ =
          { s₁ with out := { s.out with dbcnt := s.out.dbcnt - c.obs } } := ⟨_, rfl⟩
      rw [← hs₂]
      have hleft : s₂.out.dbcnt = s.out.dbcnt - c.obs := hs₂ ▸ rfl
      have hwritten : s₂.written.length = s₁.written.length := hs₂ ▸ rfl
      refine (ih (by omega) (by omega) (by omega)
        (hwritten ▸ hlen ▸ Nat.dvd_add haligned (Nat.dvd_refl _))).mono ?_
      subst hs₂
      rintro s' ⟨m, hm, hle, hrest, hout, hflushed⟩
      obtain ⟨new', hnew', hmem'⟩ := hflushed.calls
      dsimp only at hle hrest hout hflushed hnew'
      refine ⟨c.obs + m, Nat.dvd_add (Nat.dvd_refl _) hm, by omega, by omega, ?_,
        hflushed.inp.trans hwrote.inp, hflushed.intrunc.trans hwrote.intrunc,
        hflushed.blocks.trans hwrote.blocks, ?_, new ++ new', ?_, fun p hp => ?_⟩
      · rw [hout, Nat.sub_sub]
      · rw [hflushed.written]
        dsimp only
        rw [hwrote.written, List.append_assoc, ← slice_append]
      · rw [hnew', hnew, List.append_assoc]
      · exact (List.mem_append.mp hp).elim (hcalls p) (hmem' p)

theorem ddOut_spec (hE : c.WritesFail → E .writeError) (hfull : c.obs ≤ s.out.dbcnt)
    (hsize : s.out.dbcnt ≤ c.outSize) (hdbp : s.out.dbp = s.out.dbcnt)
    (haligned : c.obs ∣ s.written.length) :
    Ensures E (ddOut c false s) fun s' =>
      s'.out.dbp = s'.out.dbcnt ∧ s'.out.dbcnt < c.obs ∧ c.obs ∣ s'.written.length ∧
      s'.written ++ slice s'.out.mem 0 s'.out.dbcnt =
        s.written ++ slice s.out.mem 0 s.out.dbcnt ∧
      ∃ bytes, Flushed c s s' bytes := by
  rw [ddOut, if_neg Bool.false_ne_true]
  refine (outLoop_spec hE hfull (Nat.le_succ _) (by omega) haligned).bind ?_
  rintro s₁ ⟨m, hm, hle, hrest, hout, hflushed⟩
  have hlen : c.obs ∣ s₁.written.length := by
    rw [hflushed.written, List.length_append, length_slice]
    exact Nat.dvd_add haligned hm
  have hpending : slice s.out.mem 0 s.out.dbcnt =
      slice s.out.mem 0 m ++ slice s.out.mem m (s.out.dbcnt - m) := slice_split hle
  refine ⟨rfl, ?_, hlen, ?_, _, ⟨hflushed.inp, hflushed.intrunc, hflushed.blocks,
    hflushed.written, hflushed.calls⟩⟩
  · rw [hout]
    exact hrest
  · dsimp only
    rw [hflushed.written, hout, hpending, List.append_assoc]
    dsimp only
    congr 2
    split_ifs with hzero
    · rw [hzero, slice_zero, slice_zero]
    · have hback : s.out.dbp - (s.out.dbcnt - m) = m := by omega
      rw [hback]
      exact slice_store_self

theorem ddOut_last (hE : c.WritesFail → E .writeError) (hpos : 0 < s.out.dbcnt)
    (hsize : s.out.dbcnt ≤ c.outSize) :
    Ensures E (ddOut c true s) fun s' =>
      s'.out.dbcnt = 0 ∧ s'.written = s.written ++ slice s.out.mem 0 s.out.dbcnt ∧
      ∃ new, s'.calls = s.calls ++ new ∧
        ∀ p ∈ new, 0 < p.2 ∧ p.2 ≤ s.out.dbcnt ∧ p.1 + p.2 = s'.written.length := by
  have hobs := c.obs_pos
  rw [ddOut, if_pos rfl, outLoop]
  simp only [bind_assoc]
  refine (writeLoop_spec hE hpos (Nat.le_refl _) (Nat.le_refl _) (by omega)).bind ?_
  rintro ⟨outp', s₁⟩ ⟨houtp, hwrote⟩
  dsimp only
  have hout := hwrote.out
  rw [if_pos (by rw [hout]; omega), ok_bind]
  refine ⟨by dsimp only; rw [hout, Nat.sub_self], hwrote.written, ?_⟩
  obtain ⟨new, hnew, hmem⟩ := hwrote.calls
  refine ⟨new, hnew, fun p hp => ?_⟩
  obtain ⟨h1, h2, h3⟩ := hmem p hp
  rw [length_slice] at h2
  exact ⟨h1, h2, by rw [h3]; dsimp only; rw [hwrote.written, List.length_append]⟩

theorem flush_spec (hE : c.WritesFail → E .writeError) (hsize : s.out.dbcnt ≤ c.outSize) :
    Ensures E (flush c s) fun s' =>
      s'.written = s.written ++ slice s.out.mem 0 s.out.dbcnt ∧
      ∃ new, s'.calls = s.calls ++ new ∧
        ∀ p ∈ new, 0 < p.2 ∧ p.2 ≤ s.out.dbcnt ∧ p.1 + p.2 = s'.written.length := by
  rw [flush]
  split_ifs with hzero
  · refine ⟨?_, [], (List.append_nil _).symm, nofun⟩
    rw [hzero, slice_zero, List.append_nil]
  · exact (ddOut_last hE (by omega) hsize).mono fun s' hs' => hs'.2

/-- The output buffer begins with what is pending; `bytes` is all that has been put out. -/
structure OutInv (c : Config) (s : Dd) (bytes : List Byte) : Prop where
  dbp : s.out.dbp = s.out.dbcnt
  lt : s.out.dbcnt < c.obs
  aligned : c.obs ∣ s.written.length
  bytes : s.written ++ slice s.out.mem 0 s.out.dbcnt = bytes

theorem outIfFull_spec (hE : c.WritesFail → E .writeError) (hsize : s.out.dbcnt ≤ c.outSize)
    (hdbp : s.out.dbp = s.out.dbcnt) (haligned : c.obs ∣ s.written.length)
    (hbytes : s.written ++ slice s.out.mem 0 s.out.dbcnt = bytes) :
    Ensures E (outIfFull c s) fun s' =>
      OutInv c s' bytes ∧ s'.inp = s.inp ∧ s'.intrunc = s.intrunc ∧ s'.blocks = s.blocks := by
  rw [outIfFull]
  split_ifs with hfull
  · refine (ddOut_spec hE hfull hsize hdbp haligned).mono ?_
    rintro s' ⟨hdbp', hlt, haligned', hwritten, _, hflushed⟩
    exact ⟨⟨hdbp', hlt, haligned', hwritten.trans hbytes⟩, hflushed.inp, hflushed.intrunc,
      hflushed.blocks⟩
  · exact ⟨⟨hdbp, by omega, haligned, hbytes⟩, rfl, rfl, rfl⟩

end Bsdi.Dd
