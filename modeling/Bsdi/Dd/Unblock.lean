import Bsdi.Dd.Blockclose
import Mathlib.Data.List.DropRight

/-!
# `conv=unblock`

Each record of `cbs` bytes becomes a line. Between two blocks the input buffer holds the beginning
of a record.
-/

namespace Bsdi.Dd

open Lib

variable {c : Config} {s : Dd} {done bytes : List Byte} {E : Stop → Prop}
  {reads : List (Option (Chunk c.ibs))} {imem omem : Nat → Byte}

def trim (record : List Byte) : List Byte := record.rdropWhile (· = space)

/-- The records of `cbs` bytes, and what is behind them. -/
def chop (c : Config) (l : List Byte) : List (List Byte) × List Byte :=
  if c.cbs ≤ l.length then (l.take c.cbs :: (chop c (l.drop c.cbs)).1, (chop c (l.drop c.cbs)).2)
  else ([], l)
termination_by l.length
decreasing_by
  all_goals
    have hpos := c.cbs_pos
    rw [List.length_drop]
    omega

theorem chop_of_le {l : List Byte} (h : c.cbs ≤ l.length) :
    chop c l = (l.take c.cbs :: (chop c (l.drop c.cbs)).1, (chop c (l.drop c.cbs)).2) := by
  rw [chop, if_pos h]

theorem chop_of_lt {l : List Byte} (h : l.length < c.cbs) : chop c l = ([], l) := by
  rw [chop, if_neg (Nat.not_le.mpr h)]

theorem length_chop (l : List Byte) : (chop c l).2.length < c.cbs := by
  induction l using chop.induct c with
  | case1 l h ih =>
    rw [chop_of_le h]
    exact ih
  | case2 l h =>
    rw [chop_of_lt (Nat.not_le.mp h)]
    exact Nat.not_le.mp h

theorem chop_append (l l' : List Byte) :
    chop c (l ++ l') =
      ((chop c l).1 ++ (chop c ((chop c l).2 ++ l')).1, (chop c ((chop c l).2 ++ l')).2) := by
  induction l using chop.induct c with
  | case1 l h ih =>
    rw [chop_of_le h, chop_of_le (by rw [List.length_append]; omega),
      List.take_append_of_le_length h, List.drop_append_of_le_length h, ih]
    rfl
  | case2 l h => rw [chop_of_lt (Nat.not_le.mp h), List.nil_append]

def lines (c : Config) (l : List Byte) : List Byte :=
  ((chop c l).1.map fun record => trim record ++ [newline]).flatten

/-- What `conv=unblock` is to make of an input. -/
def unblocked (c : Config) (l : List Byte) : List Byte :=
  lines c l ++ if (chop c l).2 = [] then [] else trim (chop c l).2 ++ [newline]

theorem lines_of_le {l : List Byte} (h : c.cbs ≤ l.length) :
    lines c l = (trim (l.take c.cbs) ++ [newline]) ++ lines c (l.drop c.cbs) := by
  rw [lines, chop_of_le h]
  rfl

theorem lines_of_lt {l : List Byte} (h : l.length < c.cbs) : lines c l = [] := by
  rw [lines, chop_of_lt h]
  rfl

theorem lines_append (l l' : List Byte) :
    lines c (l ++ l') = lines c l ++ lines c ((chop c l).2 ++ l') := by
  rw [lines, lines, lines, chop_append, List.map_append, List.flatten_append]

theorem slice_trimmed (mem : Nat → Byte) (inp n : Nat) :
    slice mem inp (trimmed mem inp n) = trim (slice mem inp n) ∧ trimmed mem inp n ≤ n := by
  induction n with
  | zero => exact ⟨rfl, Nat.le_refl _⟩
  | succ n ih =>
    rw [trimmed, slice_succ, trim, List.rdropWhile_concat]
    split_ifs with hspace hnot hnot
    · exact ⟨ih.1, Nat.le_succ_of_le ih.2⟩
    · simp [hspace] at hnot
    · simp [hspace] at hnot
    · exact ⟨slice_succ, Nat.le_refl _⟩

theorem slice_putRecord (inp n : Nat) (hdbp : s.out.dbp = s.out.dbcnt) :
    slice (putRecord s inp n).out.mem 0 (putRecord s inp n).out.dbcnt =
        slice s.out.mem 0 s.out.dbcnt ++ (trim (slice s.inp.mem inp n) ++ [newline]) ∧
      (putRecord s inp n).out.dbp = (putRecord s inp n).out.dbcnt ∧
      (putRecord s inp n).out.dbcnt ≤ s.out.dbcnt + n + 1 := by
  obtain ⟨htrim, hle⟩ := slice_trimmed s.inp.mem inp n
  obtain ⟨line, hline⟩ : ∃ line, line = trim (slice s.inp.mem inp n) := ⟨_, rfl⟩
  have hlen : trimmed s.inp.mem inp n = line.length := by
    rw [hline, ← htrim, length_slice]
  rw [putRecord]
  dsimp only
  rw [htrim, ← hline, hlen, hdbp]
  refine ⟨?_, rfl, by omega⟩
  have htext : slice (store s.out.mem s.out.dbcnt line) 0 (s.out.dbcnt + line.length) =
      slice s.out.mem 0 s.out.dbcnt ++ line := slice_store_append
  have hend : slice (store (store s.out.mem s.out.dbcnt line) (s.out.dbcnt + line.length)
      [newline]) 0 (s.out.dbcnt + line.length + [newline].length) =
        slice (store s.out.mem s.out.dbcnt line) 0 (s.out.dbcnt + line.length) ++ [newline] :=
    slice_store_append
  rw [htext, List.append_assoc] at hend
  exact hend

theorem size_unblock (hunblock : c.cfunc = .unblock) : c.inSize = max c.ibs c.cbs + c.cbs ∧
    c.outSize = c.obs + c.cbs := by
  rw [Config.inSize, Config.outSize, if_neg (by simp [hunblock]), if_neg (by simp [hunblock])]
  exact ⟨rfl, rfl⟩

theorem unblockLoop_spec (hunblock : c.cfunc = .unblock) (hE : c.WritesFail → E .writeError)
    {fuel inp : Nat} (hout : OutInv c s bytes) (hfuel : s.inp.dbcnt < fuel) :
    Ensures E (unblockLoop c fuel inp s) fun s' =>
      OutInv c s' (bytes ++ lines c (slice s.inp.mem inp s.inp.dbcnt)) ∧
        s'.inp.mem = s.inp.mem ∧ s'.inp.dbp = s.inp.dbp ∧ s'.inp.dbcnt ≤ s.inp.dbcnt ∧
        slice s.inp.mem (inp + s.inp.dbcnt - s'.inp.dbcnt) s'.inp.dbcnt =
          (chop c (slice s.inp.mem inp s.inp.dbcnt)).2 ∧ s'.blocks = s.blocks := by
  have hpos := c.cbs_pos
  induction fuel generalizing inp s bytes with
  | zero => omega
  | succ fuel ih =>
    have hlen : (slice s.inp.mem inp s.inp.dbcnt).length = s.inp.dbcnt := length_slice
    rw [unblockLoop]
    split_ifs with hmore
    · have hle : c.cbs ≤ (slice s.inp.mem inp s.inp.dbcnt).length := by omega
      rw [lines_of_le hle, chop_of_le hle, take_slice hmore, drop_slice hmore,
        ← List.append_assoc]
      obtain ⟨hslice, hdbp, hcnt⟩ := slice_putRecord inp c.cbs hout.dbp
      have hlt := hout.lt
      have hsize := (size_unblock hunblock).2
      have hbytes : (putRecord s inp c.cbs).written ++
          slice (putRecord s inp c.cbs).out.mem 0 (putRecord s inp c.cbs).out.dbcnt =
            bytes ++ (trim (slice s.inp.mem inp c.cbs) ++ [newline]) := by
        rw [hslice, ← hout.bytes, List.append_assoc]
        rfl
      refine (outIfFull_spec hE (by omega) hdbp hout.aligned hbytes).bind ?_
      rintro s₁ ⟨hout₁, hinp, -, hblocks⟩
      refine (ih (s := { s₁ with inp := { s₁.inp with dbcnt := s₁.inp.dbcnt - c.cbs } })
        ⟨hout₁.dbp, hout₁.lt, hout₁.aligned, hout₁.bytes⟩ ?_).mono ?_
      · dsimp only
        rw [hinp]
        dsimp only [putRecord]
        omega
      · rintro s' ⟨hout', hmem', hdbp', hcnt', hrest', hblocks'⟩
        dsimp only at hout' hmem' hdbp' hcnt' hrest' hblocks'
        rw [hinp] at hout' hmem' hdbp' hcnt' hrest'
        dsimp only [putRecord] at hout' hmem' hdbp' hcnt' hrest'
        refine ⟨hout', hmem', hdbp', by omega, ?_, hblocks'.trans hblocks⟩
        rw [← hrest']
        congr 1
        omega
    · have hlt : (slice s.inp.mem inp s.inp.dbcnt).length < c.cbs := by omega
      rw [lines_of_lt hlt, chop_of_lt hlt, List.append_nil]
      refine ⟨hout, rfl, rfl, Nat.le_refl _, ?_, rfl⟩
      rw [Nat.add_sub_cancel]

/-- Between two blocks, where `done` has been handed on. -/
structure UnblockInv (c : Config) (s : Dd) (done : List Byte) : Prop where
  out : OutInv c s (lines c done)
  dbcnt : s.inp.dbcnt = (chop c done).2.length
  dbp : s.inp.dbp = s.inp.dbcnt
  rest : slice s.inp.mem 0 s.inp.dbcnt = (chop c done).2

theorem unblockInv_start : UnblockInv c (start imem omem) [] := by
  have hnil : ([] : List Byte).length < c.cbs := c.cbs_pos
  refine ⟨⟨rfl, c.obs_pos, Nat.dvd_zero _, ?_⟩, ?_, rfl, ?_⟩
  · rw [lines_of_lt hnil]
    rfl
  · rw [chop_of_lt hnil]
    rfl
  · rw [chop_of_lt hnil]
    rfl

theorem UnblockInv.unblock (hunblock : c.cfunc = .unblock) (hE : c.WritesFail → E .writeError)
    (h : UnblockInv c s done) {i : Io} {b : List Byte} (hdbp : i.dbp = i.dbcnt)
    (hall : slice (translated c i) 0 i.dbcnt = (chop c done).2 ++ b) :
    Ensures E (unblock c { s with inp := i, blocks := s.blocks + 1 }) fun s' =>
      UnblockInv c s' (done ++ b) ∧ s'.blocks = s.blocks + 1 := by
  obtain ⟨hout, -, -, -⟩ := h
  rw [Bsdi.Dd.unblock]
  dsimp only
  generalize translated c i = mem at hall ⊢
  have hstart : OutInv c { s with inp := { i with mem := mem }, blocks := s.blocks + 1 }
      (lines c done) := ⟨hout.dbp, hout.lt, hout.aligned, hout.bytes⟩
  refine (unblockLoop_spec hunblock hE hstart (Nat.lt_succ_self _)).bind ?_
  rintro s' ⟨hout', hmem, hdbp', hle, hrest', hblocks⟩
  dsimp only at hout' hmem hdbp' hle hrest' hblocks
  rw [hall, ← lines_append] at hout'
  have hchop : (chop c (done ++ b)).2 = (chop c ((chop c done).2 ++ b)).2 := by rw [chop_append]
  rw [hall, ← hchop, Nat.zero_add] at hrest'
  have hlen := congrArg List.length hrest'
  rw [length_slice] at hlen
  have hsame' : s'.inp.dbp = i.dbcnt := by omega
  refine ⟨⟨⟨hout'.dbp, hout'.lt, hout'.aligned, hout'.bytes⟩, hlen, rfl, ?_⟩, hblocks⟩
  dsimp only
  rw [hmem, hsame', hrest']
  split_ifs with hzero
  · rw [hzero] at hrest' ⊢
    rw [← hrest']
    rfl
  · have hstored : slice (store mem 0 (chop c (done ++ b)).2) 0 (chop c (done ++ b)).2.length =
        (chop c (done ++ b)).2 := slice_store
    rwa [← hlen] at hstored

theorem unblock_takes (hunblock : c.cfunc = .unblock) (hctab : c.ctab = none)
    (hE : c.WritesFail → E .writeError) : Takes c E (UnblockInv c) := by
  rintro s done i b hinv - hdbp hdbcnt - hbefore hb
  have hconvert : ∀ s', convert c s' = unblock c s' := fun s' => by rw [convert, hunblock]
  have hsame := hinv.dbp
  rw [hconvert]
  refine hinv.unblock hunblock hE (by omega) ?_
  rw [translated, hctab, hdbcnt, slice_append, Nat.zero_add, ← hsame, hb,
    slice_congr fun j _ hj => hbefore j (by omega), hsame, hinv.rest]

theorem UnblockInv.close (hunblock : c.cfunc = .unblock) (hosync : c.osync = false)
    (hE : c.WritesFail → E .writeError) (h : UnblockInv c s done) :
    Ensures E (ddClose c s) fun s' => s'.written = unblocked c done := by
  obtain ⟨hout, hcnt, -, hrest⟩ := h
  have hclose : Bsdi.Dd.close c s = unblockClose s := by rw [Bsdi.Dd.close, hunblock]
  have hsize := (size_unblock hunblock).2
  have hlt := hout.lt
  have hshort := length_chop (c := c) done
  rw [ddClose, hclose, osyncFill, hosync, if_neg (fun h => Bool.false_ne_true h.1), unblockClose,
    unblocked]
  by_cases hzero : s.inp.dbcnt = 0
  · rw [if_pos hzero, if_pos (List.length_eq_zero_iff.mp (hcnt ▸ hzero)), List.append_nil]
    refine (flush_spec hE (by omega)).mono ?_
    rintro s' ⟨hwritten, -⟩
    exact hwritten.trans hout.bytes
  · have hne : (chop c done).2 ≠ [] := fun h => hzero (by rw [hcnt, h, List.length_nil])
    obtain ⟨hslice, -, hle⟩ := slice_putRecord 0 s.inp.dbcnt hout.dbp
    rw [if_neg hzero, if_neg hne]
    refine (flush_spec hE (by omega)).mono ?_
    rintro s' ⟨hwritten, -⟩
    rw [hwritten, hslice, hrest, ← hout.bytes, List.append_assoc]
    rfl

theorem dd_unblock (hunblock : c.cfunc = .unblock) (hbs : c.bs = false) (hctab : c.ctab = none)
    (hosync : c.osync = false) (hfits : Fits c reads (start imem omem)) :
    Ensures (Stops c reads) (dd c reads imem omem) fun s =>
      s.written = unblocked c (handed c 0 reads) := by
  refine (ddIn_spec (UnblockInv c) hbs (unblock_takes hunblock hctab fun h => h) ?_ ?_
    (fun h hmem => ⟨h, hmem⟩) unblockInv_start hfits).bind fun s hinv =>
      hinv.close hunblock hosync fun h => h
  · rintro s done ⟨-, hcnt, hsame, -⟩
    have hshort := length_chop (c := c) done
    rw [(size_unblock hunblock).1]
    omega
  · rintro s done ⟨hout, hcnt, hsame, hrest⟩
    refine ⟨⟨hout.dbp, hout.lt, hout.aligned, hout.bytes⟩, ?_, ?_, ?_⟩
    · dsimp only
      rw [prefill_dbcnt]
      exact hcnt
    · dsimp only
      rw [prefill_dbp, prefill_dbcnt]
      exact hsame
    · dsimp only
      rw [prefill_dbcnt, slice_prefill (by omega)]
      exact hrest

def trimLines (l : List Byte) : List Byte :=
  ((cut l).1.map fun line => trim line ++ [newline]).flatten ++
    if (cut l).2 = [] then [] else trim (cut l).2 ++ [newline]

theorem trim_record (hctab : c.ctab = none) {line : List Byte} (h : line.length ≤ c.cbs) :
    trim (record c line) = trim line := by
  have htable : ∀ b, c.table b = b := fun b => by
    rw [Config.table, hctab]
    rfl
  have hmap : line.map c.table = line := (map_table_eq_iff.mpr fun b _ => htable b).symm
  rw [record, List.take_of_length_le h, hmap, htable]
  generalize c.cbs - line.length = n
  induction n with
  | zero => rw [List.replicate_zero, List.append_nil]
  | succ n ih =>
    rw [List.replicate_succ', ← List.append_assoc, trim, List.rdropWhile_concat_pos]
    · exact ih
    · simp

theorem chop_record {r : List Byte} (hlen : r.length = c.cbs) (l : List Byte) :
    chop c (r ++ l) = (r :: (chop c l).1, (chop c l).2) := by
  rw [chop_of_le (by rw [List.length_append]; omega), ← hlen, List.take_left, List.drop_left]

theorem unblocked_record {r : List Byte} (hlen : r.length = c.cbs) (l : List Byte) :
    unblocked c (r ++ l) = (trim r ++ [newline]) ++ unblocked c l := by
  rw [unblocked, lines, chop_record hlen, unblocked, lines]
  simp only [List.map_cons, List.flatten_cons, List.append_assoc]

theorem unblocked_nil : unblocked c [] = [] := by
  have hnil : ([] : List Byte).length < c.cbs := c.cbs_pos
  rw [unblocked, lines, chop_of_lt hnil]
  rfl

theorem unblocked_blocked {c' : Config} (hcbs : c'.cbs = c.cbs) (hctab : c.ctab = none)
    {l : List Byte} (hlines : ∀ line ∈ (cut l).1, line.length ≤ c.cbs)
    (hlast : (cut l).2.length ≤ c.cbs) : unblocked c' (blocked c l) = trimLines l := by
  have hrecord : ∀ line, (record c line).length = c'.cbs := fun line => by
    rw [hcbs, length_record]
  -- a record for each line
  have hall : ∀ (texts : List (List Byte)) (rest : List Byte),
      (∀ line ∈ texts, line.length ≤ c.cbs) →
        unblocked c' ((texts.map (record c)).flatten ++ rest) =
          (texts.map fun line => trim line ++ [newline]).flatten ++ unblocked c' rest := by
    intro texts rest htexts
    induction texts with
    | nil => rfl
    | cons line texts ih =>
      rw [List.map_cons, List.flatten_cons, List.append_assoc, unblocked_record (hrecord line),
        ih fun line' h => htexts line' (List.mem_cons_of_mem _ h),
        trim_record hctab (htexts line List.mem_cons_self), List.map_cons, List.flatten_cons,
        List.append_assoc _ _ (unblocked c' rest)]
  rw [blocked, records, trimLines, hall _ _ hlines]
  congr 1
  split_ifs
  · exact unblocked_nil
  · have hone := unblocked_record (hrecord (cut l).2) []
    rwa [List.append_nil, unblocked_nil, List.append_nil, trim_record hctab hlast] at hone

/-- Only the conversion `k` is asked for. -/
structure Config.Only (c : Config) (k : Conv) : Prop where
  cfunc : c.cfunc = k
  bs : c.bs = false
  ctab : c.ctab = none
  osync : c.osync = false
  sync : c.sync = false
  swab : c.swab = false

/-- `conv=unblock` makes a line of each record, the last included. What `conv=block` made of a text
whose lines fit in a record it gives back without the spaces at the end of each line, and with a
newline behind the last one. -/
theorem unblocked_written (hunblock : c.Only .unblock) :
    Ensures (Stops c reads) (dd c reads imem omem) fun s =>
      s.written = unblocked c (input c 0 reads) ∧
      ∀ (c' : Config) (text : List (Option (Chunk c'.ibs))) (imem' omem' : Nat → Byte) (s' : Dd),
        c'.Only .block → c'.cbs = c.cbs → dd c' text imem' omem' = .ok s' →
          s'.written = input c 0 reads →
          (∀ line ∈ (cut (input c' 0 text)).1, line.length ≤ c.cbs) →
          (cut (input c' 0 text)).2.length ≤ c.cbs → s.written = trimLines (input c' 0 text) := by
  refine (dd_unblock hunblock.cfunc hunblock.bs hunblock.ctab hunblock.osync
    (fits_of_not hunblock.sync hunblock.swab reads _)).mono ?_
  rintro s hwritten
  rw [handed_eq_input hunblock.sync hunblock.swab] at hwritten
  refine ⟨hwritten, ?_⟩
  rintro c' text imem' omem' s' hblock hcbs hdd hinput hlines hlast
  have hblocked := (dd_block hblock.cfunc hblock.bs hblock.ctab hblock.osync
    (fits_of_not hblock.sync hblock.swab text _)).post hdd
  rw [handed_eq_input hblock.sync hblock.swab] at hblocked
  rw [hwritten, ← hinput, hblocked, unblocked_blocked hcbs.symm hblock.ctab]
  · rwa [hcbs]
  · rwa [hcbs]

/-- `small` without a table. -/
def untabled (cfunc : Conv) : Config := { small cfunc false false false with ctab := none }

theorem untabled_only (cfunc : Conv) : (untabled cfunc).Only cfunc := ⟨rfl, rfl, rfl, rfl, rfl, rfl⟩

theorem unblocked_written_small : Ensures (Stops (untabled .unblock)
      [some ⟨[97, 32], by decide⟩, some ⟨[32, 98], by decide⟩])
    (dd (untabled .unblock) [some ⟨[97, 32], by decide⟩, some ⟨[32, 98], by decide⟩]
      (fun _ => 0) fun _ => 0) fun s =>
        s.written = unblocked (untabled .unblock) [97, 32, 32, 98] :=
  (unblocked_written (untabled_only .unblock)).mono fun _ h => h.1

/-- A text that does not end with a newline comes back with one. -/
theorem unblocked_newline : ¬ ∀ (c c' : Config) (text : List (Option (Chunk c'.ibs)))
    (reads : List (Option (Chunk c.ibs))) (imem omem imem' omem' : Nat → Byte) (s s' : Dd),
      c.Only .unblock → c'.Only .block → c'.cbs = c.cbs → dd c' text imem' omem' = .ok s' →
        s'.written = input c 0 reads → dd c reads imem omem = .ok s →
        (∀ line ∈ (cut (input c' 0 text)).1, line.length ≤ c.cbs) →
        (cut (input c' 0 text)).2.length ≤ c.cbs →
          s.written = ((cut (input c' 0 text)).1.map fun line => trim line ++ [newline]).flatten ++
            trim (cut (input c' 0 text)).2 := by
  intro h
  obtain ⟨s', hs', hwritten'⟩ : ∃ s, dd (untabled .block) [some ⟨[97], by decide⟩]
      (fun _ => 0) (fun _ => 0) = .ok s ∧ s.written = [97, 32, 32] := ⟨_, rfl, by decide⟩
  obtain ⟨s, hs, hwritten⟩ : ∃ s, dd (untabled .unblock)
      [some ⟨[97, 32], by decide⟩, some ⟨[32], by decide⟩] (fun _ => 0) (fun _ => 0) = .ok s ∧
        s.written = [97, 10] := ⟨_, rfl, by decide⟩
  have hexact := h _ _ _ _ _ _ _ _ s s' (untabled_only .unblock) (untabled_only .block) rfl hs'
    (by rw [hwritten']; rfl) hs (by decide) (by decide)
  rw [hwritten] at hexact
  exact absurd hexact (by decide)

end Bsdi.Dd
