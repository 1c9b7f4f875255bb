import Bsdi.Dd.Block

/-!
# The end of `conv=block`

`block_close` puts the last line without a newline into the output buffer, but it leaves `out.dbp`
behind and does not translate the line. `dd_close` then fills up the last block for `osync`.
-/

namespace Bsdi.Dd

open Lib

variable {c : Config} {s : Dd} {done : List Byte} {E : Stop → Prop}
  {reads : List (Option (Chunk c.ibs))} {imem omem : Nat → Byte}

/-- With `osync` an output is filled up to a multiple of `obs`. -/
def filled (c : Config) (l : List Byte) : List Byte :=
  l ++ if c.osync then List.replicate ((c.obs - l.length % c.obs) % c.obs) 0 else []

/-- For an input `l` the output is closed as it is to be, where `mem` is the output buffer at the
end of the input: a last line without a newline is not translated, and the zeros of `osync` are put
where its record begins. -/
def ClosesRight (c : Config) (l : List Byte) (mem : Nat → Byte) : Prop :=
  let line := (cut l).2
  let n := (records c l).length % c.obs
  if line = [] ∨ c.cbs ≤ line.length then c.osync = true → ¬ c.obs ∣ (blocked c l).length
  else if c.osync = true ∧ n + c.cbs < c.obs then
    let zeros := c.obs - (n + c.cbs)
    (∀ b ∈ (record c line).take zeros, b = 0) ∧ (∀ b ∈ line.drop zeros, c.table b = b) ∧
      ∀ k < c.obs, n + max zeros c.cbs ≤ k → mem k = 0
  else (∀ b ∈ line, c.table b = b) ∧ (c.osync = true → c.obs ∣ n + c.cbs)

theorem map_table_eq_iff {line : List Byte} :
    line = line.map c.table ↔ ∀ b ∈ line, c.table b = b := by
  induction line with
  | nil => simp
  | cons b line ih => simp only [List.map_cons, List.cons.injEq, List.forall_mem_cons, ih, eq_comm]

theorem slice_blockClose {mem : Nat → Byte} {n : Nat} {line : List Byte}
    (hshort : line.length ≤ c.cbs) :
    slice (store (store mem n line) (n + line.length)
      (List.replicate (c.cbs - line.length) (c.table space))) 0 (n + c.cbs) =
        slice mem 0 n ++ (line ++ List.replicate (c.cbs - line.length) (c.table space)) := by
  have hpad := @slice_store_append Byte (store mem n line) (n + line.length)
    (List.replicate (c.cbs - line.length) (c.table space))
  rw [List.length_replicate, slice_store_append, List.append_assoc] at hpad
  rw [← hpad]
  congr 1
  omega

theorem tail_mod {bytes l : List Byte} (haligned : c.obs ∣ bytes.length) :
    (c.obs - (bytes ++ l).length % c.obs) % c.obs = (c.obs - l.length % c.obs) % c.obs := by
  obtain ⟨k, hk⟩ := haligned
  rw [List.length_append, hk, Nat.mul_add_mod]

theorem tail_eq_zero_iff {n : Nat} : (c.obs - n % c.obs) % c.obs = 0 ↔ c.obs ∣ n := by
  have hobs := c.obs_pos
  have hlt := Nat.mod_lt n hobs
  rw [Nat.dvd_iff_mod_eq_zero]
  rcases Nat.eq_zero_or_pos (n % c.obs) with hzero | hpos
  · rw [hzero, Nat.sub_zero, Nat.mod_self]
  · rw [Nat.mod_eq_of_lt (by omega)]
    exact iff_of_false (by omega) (by omega)

theorem blocked_of_long {l : List Byte} (hlong : c.cbs ≤ (cut l).2.length) :
    blocked c l = ready c l := by
  have hpos := c.cbs_pos
  have hne : (cut l).2 ≠ [] := List.ne_nil_of_length_pos (by omega)
  rw [blocked, ready, if_neg hne, if_pos hlong]

theorem blocked_of_short {l : List Byte} (hshort : (cut l).2.length < c.cbs) :
    blocked c l = ready c l ++ if (cut l).2 = [] then [] else record c (cut l).2 := by
  rw [blocked, ready, if_neg (Nat.not_le.mpr hshort), List.append_nil]

theorem drop_slice {mem : Nat → Byte} {i n m : Nat} (h : m ≤ n) :
    (slice mem i n).drop m = slice mem (i + m) (n - m) := by
  have happend := @slice_append Byte mem i m (n - m)
  rw [Nat.add_sub_cancel' h] at happend
  rw [happend]
  exact List.drop_left' length_slice

theorem slice_eq_replicate_iff {mem : Nat → Byte} {i n : Nat} {b : Byte} :
    slice mem i n = List.replicate n b ↔ ∀ k < i + n, i ≤ k → mem k = b := by
  rw [List.eq_replicate_iff]
  constructor
  · rintro ⟨-, h⟩ k hk hik
    exact h _ (mem_slice.mpr ⟨k - i, by omega, by rw [Nat.add_sub_cancel' hik]⟩)
  · intro h
    refine ⟨length_slice, fun a ha => ?_⟩
    obtain ⟨k, hk, rfl⟩ := mem_slice.mp ha
    exact h _ (by omega) (by omega)

theorem append_eq_iff {l₁ l₂ m₁ m₂ : List Byte} (h : l₁.length = l₂.length) :
    l₁ ++ m₁ = l₂ ++ m₂ ↔ l₁ = l₂ ∧ m₁ = m₂ :=
  ⟨fun heq => List.append_inj heq h, fun heq => heq.1 ▸ heq.2 ▸ rfl⟩

theorem overwritten_iff {mem : Nat → Byte} {n zeros : Nat} {line : List Byte}
    (hshort : line.length ≤ c.cbs) :
    slice (store (store (store mem n line) (n + line.length)
      (List.replicate (c.cbs - line.length) (c.table space))) n (List.replicate zeros 0)) n
        (c.cbs + zeros) = record c line ++ List.replicate zeros 0 ↔
      (∀ b ∈ (record c line).take zeros, b = 0) ∧ (∀ b ∈ line.drop zeros, c.table b = b) ∧
        ∀ k < n + c.cbs + zeros, n + max zeros c.cbs ≤ k → mem k = 0 := by
  have hrecord := length_record (c := c) line
  obtain ⟨pad, hpad⟩ : ∃ pad, pad = List.replicate (c.cbs - line.length) (c.table space) :=
    ⟨_, rfl⟩
  have hlenpad : line.length + pad.length = c.cbs := by
    rw [hpad, List.length_replicate]
    omega
  obtain ⟨mem₁, hmem₁⟩ :
      ∃ mem₁, mem₁ = store (store mem n line) (n + line.length) pad := ⟨_, rfl⟩
  -- what the record and the old contents of the buffer leave behind the zeros
  have hold : slice mem₁ n (c.cbs + zeros) = line ++ pad ++ slice mem (n + c.cbs) zeros := by
    have hstored : slice mem₁ n c.cbs = line ++ pad := by
      have hline : slice mem₁ n line.length = line := by
        rw [hmem₁, slice_store_before (Nat.le_refl _), slice_store]
      have hrest : slice mem₁ (n + line.length) pad.length = pad := by
        rw [hmem₁, slice_store]
      rw [← hlenpad, slice_append, hline, hrest]
    rw [slice_append, hstored, hmem₁]
    congr 1
    refine slice_congr fun k hk _ => ?_
    rw [store_of_ge (by omega), store_of_ge (by omega)]
  have hzeros : slice (store mem₁ n (List.replicate zeros 0)) n (c.cbs + zeros) =
      List.replicate zeros 0 ++ ((line.drop zeros ++ pad.drop (zeros - line.length)) ++
        slice mem (n + max zeros c.cbs) (min zeros c.cbs)) := by
    have hfirst : slice (store mem₁ n (List.replicate zeros (0 : Byte))) n
        (List.replicate zeros (0 : Byte)).length = List.replicate zeros 0 := slice_store
    rw [List.length_replicate] at hfirst
    rw [Nat.add_comm c.cbs, slice_append, hfirst]
    congr 1
    have hbehind : slice (store mem₁ n (List.replicate zeros (0 : Byte))) (n + zeros) c.cbs =
        (slice mem₁ n (c.cbs + zeros)).drop zeros := by
      rw [drop_slice (by omega), Nat.add_sub_cancel]
      refine slice_congr fun k hk _ => store_of_ge ?_
      rwa [List.length_replicate]
    rw [hbehind, hold, List.drop_append, List.drop_append, List.length_append, hlenpad,
      drop_slice (by omega)]
    congr 2
    · omega
    · omega
  have hexpected : record c line ++ List.replicate zeros 0 =
      ((record c line).take zeros ++ List.replicate (zeros - c.cbs) 0) ++
        (((line.drop zeros).map c.table ++ pad.drop (zeros - line.length)) ++
          List.replicate (min zeros c.cbs) 0) := by
    have hdrop : (record c line).drop zeros =
        (line.drop zeros).map c.table ++ pad.drop (zeros - line.length) := by
      rw [record, List.take_of_length_le hshort, ← hpad, List.drop_append, List.length_map,
        List.map_drop]
    have hmin : min (zeros - c.cbs) zeros = zeros - c.cbs := by omega
    have hleft : zeros - (zeros - c.cbs) = min zeros c.cbs := by omega
    rw [← hdrop]
    calc record c line ++ List.replicate zeros 0
        = (record c line ++ List.replicate zeros 0).take zeros ++
            (record c line ++ List.replicate zeros 0).drop zeros :=
          (List.take_append_drop _ _).symm
      _ = _ := by
          rw [List.take_append, List.drop_append, hrecord, List.take_replicate,
            List.drop_replicate, hmin, hleft]
  have hfirst : List.replicate zeros (0 : Byte) =
      (record c line).take zeros ++ List.replicate (zeros - c.cbs) 0 ↔
        ∀ b ∈ (record c line).take zeros, b = 0 := by
    rw [eq_comm, List.append_eq_replicate_iff, List.eq_replicate_iff]
    simp
    omega
  rw [← hpad, ← hmem₁, hzeros, hexpected, append_eq_iff, append_eq_iff, append_eq_iff,
    map_table_eq_iff, hfirst, slice_eq_replicate_iff, and_assoc]
  · have hend : n + max zeros c.cbs + min zeros c.cbs = n + c.cbs + zeros := by omega
    simp only [hend, true_and]
  · simp
  · simp
  · simp
    omega

theorem OutInv.length_mod {bytes : List Byte} (hout : OutInv c s bytes) :
    bytes.length % c.obs = s.out.dbcnt := by
  obtain ⟨k, hk⟩ := hout.aligned
  rw [← hout.bytes, List.length_append, hk, Nat.mul_add_mod, length_slice,
    Nat.mod_eq_of_lt hout.lt]

theorem close_empty (hE : c.WritesFail → E .writeError) {bytes : List Byte}
    (hout : OutInv c s bytes) (hclose : close c s = s) (hsize : c.obs ≤ c.outSize) :
    Ensures E (ddClose c s) fun s' =>
      s'.written = filled c bytes ↔ (c.osync = true → ¬ c.obs ∣ bytes.length) := by
  have hobs := c.obs_pos
  have hlt := hout.lt
  rw [ddClose, hclose, osyncFill, filled, Nat.dvd_iff_mod_eq_zero, hout.length_mod]
  by_cases hosync : c.osync = true
  · rw [if_pos ⟨hosync, hlt⟩, if_pos hosync]
    refine (flush_spec hE hsize).mono ?_
    rintro s' ⟨hwritten, -⟩
    dsimp only at hwritten
    have happend := @slice_store_append Byte s.out.mem s.out.dbcnt
      (List.replicate (c.obs - s.out.dbcnt) 0)
    rw [List.length_replicate, Nat.add_sub_cancel' (Nat.le_of_lt hlt)] at happend
    rw [hwritten, hout.dbp, happend, ← List.append_assoc, hout.bytes,
      List.append_cancel_left_eq]
    constructor
    · intro heq _ hzero
      have hlen := congrArg List.length heq
      rw [hzero, List.length_replicate, List.length_replicate, Nat.sub_zero,
        Nat.mod_self] at hlen
      omega
    · intro hne
      rw [Nat.mod_eq_of_lt (by have := hne hosync; omega)]
  · rw [if_neg fun h => hosync h.1, if_neg hosync, List.append_nil]
    refine (flush_spec hE (by omega)).mono ?_
    rintro s' ⟨hwritten, -⟩
    exact iff_of_true (hwritten.trans hout.bytes) fun h => absurd h hosync

theorem BlockInv.close (hblock : c.cfunc = .block) (hE : c.WritesFail → E .writeError)
    (h : BlockInv c s done) :
    Ensures E (ddClose c s) fun s' =>
      s'.written = filled c (blocked c done) ↔ ClosesRight c done s.out.mem := by
  have hpos := c.cbs_pos
  obtain ⟨hout, hwaiting⟩ := h
  have hsize := (size_block hblock).2
  have hlt := hout.lt
  have hclose : Bsdi.Dd.close c s = blockClose c s := by rw [Bsdi.Dd.close, hblock]
  by_cases hnone : (cut done).2 = [] ∨ c.cbs ≤ (cut done).2.length
  · -- the last line has been put out, or there is none
    obtain ⟨hblocked, hzero⟩ : blocked c done = ready c done ∧ s.inp.dbcnt = 0 := by
      rcases Nat.lt_or_ge (cut done).2.length c.cbs with hshort | hlong
      · have hnil := hnone.resolve_right (Nat.not_le.mpr hshort)
        rw [hnil] at hwaiting
        rw [blocked_of_short hshort, if_pos hnil, List.append_nil]
        exact ⟨rfl, (waiting_nil.mp hwaiting).2.1⟩
      · rw [Waiting, if_pos hlong] at hwaiting
        exact ⟨blocked_of_long hlong, hwaiting.2.1⟩
    rw [ClosesRight]
    dsimp only
    rw [if_pos hnone, hblocked]
    exact close_empty hE hout (by rw [hclose, blockClose, if_pos hzero]) (by omega)
  · have hshort : (cut done).2.length < c.cbs := Nat.not_le.mp fun h => hnone (.inr h)
    have hne : (cut done).2 ≠ [] := fun h => hnone (.inl h)
    rw [Waiting, if_neg (Nat.not_le.mpr hshort)] at hwaiting
    obtain ⟨-, hcnt, hdbp, hline⟩ := hwaiting
    have hn : (records c done).length % c.obs = s.out.dbcnt := by
      rw [← hout.length_mod, ready, if_neg (Nat.not_le.mpr hshort), List.append_nil]
    rw [ClosesRight]
    dsimp only
    rw [if_neg hnone, hn]
    obtain ⟨line, hline'⟩ : ∃ line, line = (cut done).2 := ⟨_, rfl⟩
    rw [← hline'] at hcnt hdbp hline hshort hne ⊢
    have hzero : s.inp.dbcnt ≠ 0 := by
      rw [hcnt]
      exact fun h => hne (List.length_eq_zero_iff.mp h)
    have hblocked : blocked c done = ready c done ++ record c line := by
      rw [blocked_of_short (hline' ▸ hshort), ← hline', if_neg hne]
    -- the tail that `osync` is to add
    have htail : (c.obs - (blocked c done).length % c.obs) % c.obs =
        (c.obs - (s.out.dbcnt + c.cbs) % c.obs) % c.obs := by
      rw [hblocked, ← hout.bytes, List.append_assoc, tail_mod hout.aligned, List.length_append,
        length_slice, length_record]
    have hstart : s.inp.dbp - s.inp.dbcnt = 0 := by omega
    rw [ddClose, hclose, blockClose, if_neg hzero, hstart, hcnt, hline, filled, htail, osyncFill]
    dsimp only
    by_cases hover : c.osync = true ∧ s.out.dbcnt + c.cbs < c.obs
    · obtain ⟨zeros, hzeros⟩ : ∃ zeros, zeros = c.obs - (s.out.dbcnt + c.cbs) := ⟨_, rfl⟩
      have hmod : (c.obs - (s.out.dbcnt + c.cbs) % c.obs) % c.obs = zeros := by
        rw [Nat.mod_eq_of_lt hover.2, Nat.mod_eq_of_lt (by omega), hzeros]
      have hobs' : c.obs = s.out.dbcnt + (c.cbs + zeros) := by omega
      rw [if_pos hover, if_pos hover, if_pos hover.1, hmod, ← hzeros]
      refine (flush_spec hE (by dsimp only; omega)).mono ?_
      rintro s' ⟨hwritten, -⟩
      dsimp only at hwritten
      have hsplit : ∀ mem : Nat → Byte, (∀ k < s.out.dbcnt, mem k = s.out.mem k) →
          slice mem 0 c.obs =
            slice s.out.mem 0 s.out.dbcnt ++ slice mem s.out.dbcnt (c.cbs + zeros) := by
        intro mem hbefore
        rw [hobs', slice_append, Nat.zero_add, slice_congr fun k _ hk => hbefore k (by omega)]
      rw [hwritten, hout.dbp, hsplit, hblocked, ← hout.bytes]
      · simp only [List.append_assoc, List.append_cancel_left_eq]
        rw [overwritten_iff (Nat.le_of_lt hshort), Nat.add_assoc, ← hobs']
      · intro k hk
        rw [store_of_lt hk, store_of_lt (by omega), store_of_lt hk]
    · rw [if_neg hover, if_neg hover]
      refine (flush_spec hE (by dsimp only; omega)).mono ?_
      rintro s' ⟨hwritten, -⟩
      dsimp only at hwritten
      have hrecord : record c line =
          line.map c.table ++ List.replicate (c.cbs - line.length) (c.table space) := by
        rw [record, List.take_of_length_le (Nat.le_of_lt hshort)]
      have htail' : ([] : List Byte) = (if c.osync = true then
          List.replicate ((c.obs - (s.out.dbcnt + c.cbs) % c.obs) % c.obs) (0 : Byte) else []) ↔
            (c.osync = true → c.obs ∣ s.out.dbcnt + c.cbs) := by
        split_ifs with hosync
        · rw [eq_comm, List.replicate_eq_nil_iff, tail_eq_zero_iff]
          exact ⟨fun h _ => h, fun h => h hosync⟩
        · exact iff_of_true rfl fun h => absurd h hosync
      rw [hwritten, hout.dbp, slice_blockClose (Nat.le_of_lt hshort), ← List.append_assoc,
        hout.bytes, hblocked, List.append_assoc (ready c done), List.append_cancel_left_eq,
        ← List.append_nil (line ++ _), append_eq_iff (by rw [hrecord]; simp), hrecord,
        append_eq_iff (by rw [List.length_map]), map_table_eq_iff, htail']
      exact ⟨fun h => ⟨h.1.1, h.2⟩, fun h => ⟨⟨h.1, rfl⟩, h.2⟩⟩

theorem table_of_none (hctab : c.ctab = none) (b : Byte) : c.table b = b := by
  rw [Config.table, hctab]
  rfl

theorem closesRight_of_none (hctab : c.ctab = none) (hosync : c.osync = false) (l : List Byte)
    (mem : Nat → Byte) : ClosesRight c l mem := by
  have hoff : ¬ c.osync = true := by simp [hosync]
  rw [ClosesRight]
  dsimp only
  split_ifs with hnone hover
  · exact fun h => absurd h hoff
  · exact absurd hover.1 hoff
  · exact ⟨fun b _ => table_of_none hctab b, fun h => absurd h hoff⟩

theorem dd_block (hblock : c.cfunc = .block) (hbs : c.bs = false) (hctab : c.ctab = none)
    (hosync : c.osync = false) (hfits : Fits c reads (start imem omem)) :
    Ensures (Stops c reads) (dd c reads imem omem) fun s =>
      s.written = blocked c (handed c 0 reads) := by
  refine (blockIn_spec hblock hbs hfits).bind fun s hinv => ?_
  refine (hinv.close hblock fun h => h).mono fun s' hiff => ?_
  rw [hiff.mpr (closesRight_of_none hctab hosync _ _), filled, hosync,
    if_neg Bool.false_ne_true, List.append_nil]

/-- The output of `conv=block` is the records of the lines, filled up for `osync`, exactly if it is
closed as it is to be. No access leaves a buffer. -/
theorem blocked_written_iff (hblock : c.cfunc = .block) (hbs : c.bs = false)
    (hsync : c.sync = false) (hswab : c.swab = false) :
    Ensures (Stops c reads) (ddIn c reads (start imem omem)) fun s =>
      Ensures (Stops c reads) (ddClose c s) fun s' =>
        s'.written = filled c (blocked c (input c 0 reads)) ↔
          ClosesRight c (input c 0 reads) s.out.mem := by
  refine (blockIn_spec hblock hbs (fits_of_not hsync hswab reads _)).mono ?_
  rintro s hinv
  rw [handed_eq_input hsync hswab] at hinv
  exact hinv.close hblock fun h => h

theorem blocked_written_small : Ensures (Stops (small .block false false false)
      [some ⟨[97, 98], by decide⟩, some ⟨[99, 100], by decide⟩, some ⟨[10, 97], by decide⟩])
    (ddIn (small .block false false false)
      [some ⟨[97, 98], by decide⟩, some ⟨[99, 100], by decide⟩, some ⟨[10, 97], by decide⟩]
        (start (fun _ => 0) fun _ => 0)) fun s =>
    Ensures (Stops (small .block false false false)
      [some ⟨[97, 98], by decide⟩, some ⟨[99, 100], by decide⟩, some ⟨[10, 97], by decide⟩])
      (ddClose (small .block false false false) s) fun s' =>
        s'.written = [98, 99, 100, 98, 33, 33] ↔
          ClosesRight (small .block false false false) [97, 98, 99, 100, 10, 97] s.out.mem :=
  blocked_written_iff rfl rfl rfl rfl

/-- A last line without a newline is not translated. -/
theorem blocked_not_written : ¬ ∀ (c : Config) (reads : List (Option (Chunk c.ibs)))
    (imem omem : Nat → Byte) (s : Dd), c.cfunc = .block → c.bs = false → c.sync = false →
      c.swab = false → dd c reads imem omem = .ok s →
        s.written = filled c (blocked c (input c 0 reads)) := by
  intro h
  obtain ⟨s, hs, hwritten⟩ : ∃ s, dd (small .block false false false) [some ⟨[97], by decide⟩]
      (fun _ => 0) (fun _ => 0) = .ok s ∧ s.written = [97, 33, 33] := ⟨_, rfl, by decide⟩
  have hexact := h _ _ _ _ s rfl rfl rfl rfl hs
  rw [hwritten] at hexact
  exact absurd hexact (by decide)

end Bsdi.Dd
