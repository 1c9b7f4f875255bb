import Bsdi.Dd.Blocks

/-!
# Copying with one buffer

Between two blocks the buffer begins with what is pending, less than a block of the output. `def`
translates a new block behind it and lets `dd_out` write what is complete.
-/

namespace Bsdi.Dd

open Lib

variable {c : Config} {s : Dd} {done : List Byte} {E : Stop → Prop}
  {reads : List (Option (Chunk c.ibs))} {imem omem : Nat → Byte}

/-- Between two blocks, where `done` has been handed on. -/
structure PlainInv (c : Config) (s : Dd) (done : List Byte) : Prop where
  dbp : s.inp.dbp = s.inp.dbcnt
  lt : s.inp.dbcnt < c.obs
  out_dbp : s.out.dbp = s.inp.dbcnt
  out_dbcnt : s.out.dbcnt = s.inp.dbcnt
  aligned : c.obs ∣ s.written.length
  bytes : s.written ++ slice s.inp.mem 0 s.inp.dbcnt = done.map c.table
  calls : ∀ p ∈ s.calls, 0 < p.2 ∧ p.2 ≤ c.obs ∧ c.obs ∣ p.1 + p.2

theorem plainInv_start : PlainInv c (start imem omem) [] :=
  ⟨rfl, c.obs_pos, rfl, rfl, Nat.dvd_zero _, rfl, nofun⟩

theorem size_plain (hplain : c.cfunc = .plain) : c.inSize = c.obs + c.ibs - 1 ∧
    c.outSize = c.obs + c.ibs - 1 := by
  rw [Config.inSize, Config.outSize, if_pos hplain, if_pos hplain]
  exact ⟨rfl, rfl⟩

theorem slice_translate {mem : Nat → Byte} {n : Nat} {b : List Byte}
    (hb : slice mem n b.length = b) :
    slice (translate c mem n b.length) 0 (n + b.length) = slice mem 0 n ++ b.map c.table := by
  rw [translate]
  cases hctab : c.ctab with
  | none =>
    have htable : c.table = id := by
      funext x
      rw [Config.table, hctab]
      rfl
    dsimp only
    rw [slice_append, Nat.zero_add, hb, htable, List.map_id]
  | some t =>
    have htable : c.table = t := by
      funext x
      rw [Config.table, hctab]
      rfl
    have happend := @slice_store_append Byte mem n (b.map t)
    rw [List.length_map] at happend
    dsimp only
    rw [hb, happend, htable]

theorem plain_takes (hplain : c.cfunc = .plain) (hE : c.WritesFail → E .writeError) :
    Takes c E (PlainInv c) := by
  rintro s done i b hinv hle hdbp hdbcnt hdbrcnt hbefore hblock
  obtain ⟨hin, hout⟩ := size_plain hplain
  have hlt := hinv.lt
  have hsame := hinv.dbp
  have hconvert : ∀ s', convert c s' = plainConv c s' := fun s' => by rw [convert, hplain]
  rw [hconvert, plainConv, within_ok (by dsimp only; omega), ok_bind]
  dsimp only
  have hstart : i.dbp - i.dbrcnt = s.inp.dbcnt := by omega
  rw [hstart, hdbrcnt]
  rw [hsame] at hblock hbefore
  have htranslate := slice_translate (c := c) hblock
  have hpending : slice i.mem 0 s.inp.dbcnt = slice s.inp.mem 0 s.inp.dbcnt :=
    slice_congr fun k _ hk => hbefore k (by omega)
  rw [hpending] at htranslate
  generalize translate c i.mem s.inp.dbcnt b.length = mem at htranslate ⊢
  have hbytes : s.written ++ slice mem 0 i.dbcnt = (done ++ b).map c.table := by
    rw [hdbcnt, htranslate, ← List.append_assoc, hinv.bytes, List.map_append]
  split_ifs with hfull
  · obtain ⟨s₁, hs₁⟩ : ∃ s₁ : Dd, s₁ = { s with
        inp := ⟨mem, i.dbp, i.dbcnt, b.length⟩
        out := ⟨mem, i.dbp, i.dbcnt, s.out.dbrcnt⟩
        blocks := s.blocks + 1 } := ⟨_, rfl⟩
    have hspec := ddOut_spec (s := s₁) hE (by rw [hs₁]; exact hfull)
      (by rw [hs₁]; dsimp only; omega)
      (by rw [hs₁]; dsimp only; omega) (by rw [hs₁]; exact hinv.aligned)
    rw [← hs₁]
    refine hspec.bind ?_
    rintro s' ⟨hdbp', hlt', haligned, hwritten, bytes, hflushed⟩
    obtain ⟨new, hnew, hmem'⟩ := hflushed.calls
    refine ⟨⟨hdbp', hlt', hdbp', rfl, haligned, ?_, fun p hp => ?_⟩, ?_⟩
    · dsimp only
      rw [hwritten, hs₁]
      exact hbytes
    · dsimp only at hp
      rw [hnew, hs₁] at hp
      exact (List.mem_append.mp hp).elim (hinv.calls p) (hmem' p)
    · dsimp only
      rw [hflushed.blocks, hs₁]
  · refine ⟨⟨?_, by dsimp only; omega, ?_, rfl, hinv.aligned, hbytes, hinv.calls⟩, rfl⟩
    · dsimp only
      omega
    · dsimp only
      omega

def osyncPad (c : Config) (n : Nat) : List Byte :=
  if c.osync then List.replicate (c.obs - n % c.obs) 0 else []

/-- Every `write` asks for the bytes up to the end of a block, or of the output. -/
def Blocked (c : Config) (s : Dd) : Prop :=
  ∀ p ∈ s.calls, 0 < p.2 ∧ p.2 ≤ c.obs ∧ (p.2 = c.obs → c.obs ∣ p.1) ∧
    (c.obs ∣ p.1 + p.2 ∨ p.1 + p.2 = s.written.length)

theorem blocked_of_calls {new : List (Nat × Nat)}
    (h : ∀ p ∈ s.calls, 0 < p.2 ∧ p.2 ≤ c.obs ∧ c.obs ∣ p.1 + p.2) {s' : Dd}
    (hnew : s'.calls = s.calls ++ new)
    (hlast : ∀ p ∈ new, 0 < p.2 ∧ p.2 ≤ c.obs ∧ p.1 + p.2 = s'.written.length)
    (hfull : ∀ p ∈ new, p.2 = c.obs → c.obs ∣ s'.written.length) : Blocked c s' := by
  intro p hp
  rw [hnew] at hp
  rcases List.mem_append.mp hp with hp | hp
  · obtain ⟨h1, h2, h3⟩ := h p hp
    refine ⟨h1, h2, fun heq => ?_, .inl h3⟩
    rw [heq] at h3
    exact (Nat.dvd_add_left (Nat.dvd_refl _)).mp h3
  · obtain ⟨h1, h2, h3⟩ := hlast p hp
    refine ⟨h1, h2, fun heq => ?_, .inr h3⟩
    have hdvd := hfull p hp heq
    rw [← h3, heq] at hdvd
    exact (Nat.dvd_add_left (Nat.dvd_refl _)).mp hdvd

theorem PlainInv.close (hplain : c.cfunc = .plain) (hE : c.WritesFail → E .writeError)
    (h : PlainInv c s done) :
    Ensures E (ddClose c s) fun s' =>
      s'.written = done.map c.table ++ osyncPad c done.length ∧ Blocked c s' := by
  have hobs := c.obs_pos
  have hlt := h.lt
  have hsize := (size_plain hplain).2
  have hibs := c.ibs_pos
  have hclose : Bsdi.Dd.close c s =
      { s with out := { s.out with mem := s.inp.mem, dbcnt := s.inp.dbcnt } } := by
    rw [Bsdi.Dd.close, hplain]
    dsimp only [plainClose]
    split_ifs with hzero
    · rw [hzero, ← h.out_dbcnt.trans hzero]
    · rfl
  -- the length of what is pending
  have hmod : done.length % c.obs = s.inp.dbcnt := by
    have hlen := congrArg List.length h.bytes
    rw [List.length_append, length_slice, List.length_map] at hlen
    obtain ⟨k, hk⟩ := h.aligned
    rw [← hlen, hk, Nat.mul_add_mod, Nat.mod_eq_of_lt hlt]
  rw [ddClose, hclose, osyncFill]
  dsimp only
  by_cases hosync : c.osync = true
  · rw [if_pos ⟨hosync, hlt⟩, osyncPad, if_pos hosync, hmod]
    refine (flush_spec hE (by dsimp only; omega)).mono ?_
    rintro s' ⟨hwritten, new, hnew, hmem⟩
    dsimp only at hwritten hnew hmem
    have hslice : slice (store s.inp.mem s.out.dbp (List.replicate (c.obs - s.inp.dbcnt) 0)) 0
        c.obs = slice s.inp.mem 0 s.inp.dbcnt ++ List.replicate (c.obs - s.inp.dbcnt) 0 := by
      have happend := @slice_store_append Byte s.inp.mem s.inp.dbcnt
        (List.replicate (c.obs - s.inp.dbcnt) 0)
      rw [List.length_replicate, Nat.add_sub_cancel' (Nat.le_of_lt hlt)] at happend
      rw [h.out_dbp, happend]
    have hlength : c.obs ∣ s'.written.length := by
      rw [hwritten, List.length_append, length_slice]
      exact Nat.dvd_add h.aligned (Nat.dvd_refl _)
    rw [hslice, ← List.append_assoc, h.bytes] at hwritten
    exact ⟨hwritten, blocked_of_calls h.calls hnew hmem fun _ _ _ => hlength⟩
  · rw [if_neg fun h => hosync h.1, osyncPad, if_neg hosync, List.append_nil]
    refine (flush_spec hE (by dsimp only; omega)).mono ?_
    rintro s' ⟨hwritten, new, hnew, hmem⟩
    dsimp only at hwritten hnew hmem
    refine ⟨hwritten.trans h.bytes, blocked_of_calls h.calls hnew (fun p hp => ?_)
      fun p hp heq => ?_⟩
    · obtain ⟨h1, h2, h3⟩ := hmem p hp
      exact ⟨h1, by omega, h3⟩
    · have := (hmem p hp).2.1
      omega

theorem dd_plain (hplain : c.cfunc = .plain) (hbs : c.bs = false)
    (hfits : Fits c reads (start imem omem)) :
    Ensures (Stops c reads) (dd c reads imem omem) fun s =>
      s.written = (handed c 0 reads).map c.table ++ osyncPad c (handed c 0 reads).length ∧
        Blocked c s := by
  have hin := (size_plain hplain).1
  refine (ddIn_spec (PlainInv c) hbs (plain_takes hplain fun h => h) ?_ ?_
    (fun h hmem => ⟨h, hmem⟩) plainInv_start hfits).bind fun s hinv =>
      PlainInv.close hplain (fun h => h) hinv
  · intro s done hinv
    have hlt := hinv.lt
    have hsame := hinv.dbp
    omega
  · intro s done hinv
    refine ⟨?_, ?_, ?_, ?_, hinv.aligned, ?_, hinv.calls⟩
    · dsimp only
      rw [prefill_dbp, prefill_dbcnt]
      exact hinv.dbp
    · dsimp only
      rw [prefill_dbcnt]
      exact hinv.lt
    · dsimp only
      rw [prefill_dbcnt]
      exact hinv.out_dbp
    · dsimp only
      rw [prefill_dbcnt]
      exact hinv.out_dbcnt
    · dsimp only
      rw [prefill_dbcnt, slice_prefill (Nat.le_of_eq hinv.dbp.symm)]
      exact hinv.bytes

/-- Without `swab` and `sync`, `dd` writes the translated input and, for `osync`, fills up the last
block if it is not complete. No access leaves the buffer. -/
theorem dd_copied (hplain : c.cfunc = .plain) (hbs : c.bs = false) (hsync : c.sync = false)
    (hswab : c.swab = false) :
    Ensures (Stops c reads) (dd c reads imem omem) fun s =>
      (c.osync = false → s.written = (input c 0 reads).map c.table) ∧
      (c.osync = true → ¬ c.obs ∣ (input c 0 reads).length →
        s.written = (input c 0 reads).map c.table ++
          List.replicate (c.obs - (input c 0 reads).length % c.obs) 0) ∧
      Blocked c s := by
  refine (dd_plain hplain hbs (fits_of_not hsync hswab reads _)).mono ?_
  rintro s ⟨hwritten, hblocked⟩
  rw [handed_eq_input hsync hswab] at hwritten
  refine ⟨fun hosync => ?_, fun hosync _ => ?_, hblocked⟩
  · rw [hwritten, osyncPad, hosync, if_neg Bool.false_ne_true, List.append_nil]
  · rw [hwritten, osyncPad, if_pos hosync]

/-- Blocks of 2 and 3 bytes and records of 3, where each write is interrupted and takes a byte. -/
def small (cfunc : Conv) (sync swab osync : Bool) : Config where
  ibs := 2
  obs := 3
  cbs := 3
  ibs_pos := by decide
  obs_pos := by decide
  cbs_pos := by decide
  ctab := some fun b => b + 1
  cfunc := cfunc
  noerror := false
  sync := sync
  swab := swab
  bs := false
  bs_swab := nofun
  osync := osync
  tape := false
  count := 0
  device _ := ⟨1, some 0⟩
  decrements := true

theorem dd_copied_small : Ensures (Stops (small .plain false false false)
      [some ⟨[97, 98], by decide⟩, some ⟨[99], by decide⟩, some ⟨[100, 101], by decide⟩])
    (dd (small .plain false false false)
      [some ⟨[97, 98], by decide⟩, some ⟨[99], by decide⟩, some ⟨[100, 101], by decide⟩]
        (fun _ => 0) fun _ => 0) fun s => s.written = [98, 99, 100, 101, 102] :=
  (dd_copied rfl rfl rfl rfl).mono fun _ h => h.1 rfl

/-- With `osync` there are zeros behind the input. -/
theorem dd_copied_osync : ¬ ∀ (c : Config) (reads : List (Option (Chunk c.ibs)))
    (imem omem : Nat → Byte) (s : Dd), c.cfunc = .plain → c.bs = false → c.sync = false →
      c.swab = false → dd c reads imem omem = .ok s →
        s.written = (input c 0 reads).map c.table := by
  intro h
  obtain ⟨s, hs, hwritten⟩ : ∃ s, dd (small .plain false false true) [some ⟨[97], by decide⟩]
      (fun _ => 0) (fun _ => 0) = .ok s ∧ s.written = [98, 0, 0] := ⟨_, rfl, by decide⟩
  have hexact := h _ _ _ _ s rfl rfl rfl rfl hs
  rw [hwritten] at hexact
  exact absurd hexact (by decide)

end Bsdi.Dd
