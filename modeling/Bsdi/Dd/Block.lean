import Bsdi.Dd.Plain

/-!
# `conv=block`

Each line becomes a record of `cbs` bytes. Between two blocks of the input the buffer holds the
beginning of a line, or the rest of a line that was cut is being skipped.
-/

namespace Bsdi.Dd

open Lib

variable {c : Config} {s : Dd} {done : List Byte} {E : Stop → Prop}
  {reads : List (Option (Chunk c.ibs))} {imem omem : Nat → Byte}

/-- The lines that end with a newline, without it, and what is behind the last newline. -/
def cut : List Byte → List (List Byte) × List Byte
  | [] => ([], [])
  | b :: l =>
    if b = newline then ([] :: (cut l).1, (cut l).2)
    else match (cut l).1 with
      | [] => ([], b :: (cut l).2)
      | line :: lines => ((b :: line) :: lines, (cut l).2)

theorem cut_append (l l' : List Byte) :
    cut (l ++ l') = ((cut l).1 ++ (cut ((cut l).2 ++ l')).1, (cut ((cut l).2 ++ l')).2) := by
  induction l with
  | nil => rfl
  | cons b l ih =>
    rw [List.cons_append, cut, cut, ih]
    by_cases hb : b = newline
    · rw [if_pos hb, if_pos hb]
      rfl
    · rw [if_neg hb, if_neg hb]
      cases hlines : (cut l).1 with
      | nil =>
        dsimp only
        rw [List.nil_append, List.cons_append, cut, if_neg hb]
        rfl
      | cons line lines => rfl

theorem cut_of_not_mem {l : List Byte} (h : newline ∉ l) : cut l = ([], l) := by
  induction l with
  | nil => rfl
  | cons b l ih =>
    rw [List.mem_cons, not_or] at h
    rw [cut, if_neg (Ne.symm h.1), ih h.2]

theorem cut_line {l l' : List Byte} (h : newline ∉ l) :
    cut (l ++ newline :: l') = (l :: (cut l').1, (cut l').2) := by
  rw [cut_append, cut_of_not_mem h]
  induction l with
  | nil => simp [cut]
  | cons b l ih =>
    rw [List.mem_cons, not_or] at h
    have ih := ih h.2
    rw [Prod.mk.injEq] at ih ⊢
    rw [List.cons_append, cut, if_neg (Ne.symm h.1)]
    dsimp only at ih ⊢
    rw [List.nil_append] at ih ⊢
    rw [ih.1]
    exact ⟨rfl, ih.2⟩

theorem not_mem_cut (l : List Byte) : newline ∉ (cut l).2 := by
  induction l with
  | nil => simp [cut]
  | cons b l ih =>
    rw [cut]
    split_ifs with hb
    · exact ih
    · cases hlines : (cut l).1 with
      | nil =>
        rw [List.mem_cons, not_or]
        exact ⟨Ne.symm hb, ih⟩
      | cons line lines => exact ih

def record (c : Config) (line : List Byte) : List Byte :=
  (line.take c.cbs).map c.table ++ List.replicate (c.cbs - line.length) (c.table space)

theorem length_record (line : List Byte) : (record c line).length = c.cbs := by
  rw [record, List.length_append, List.length_map, List.length_take, List.length_replicate]
  omega

theorem record_append {line : List Byte} (h : c.cbs ≤ line.length) (rest : List Byte) :
    record c (line ++ rest) = record c line := by
  rw [record, record, List.take_append_of_le_length h, List.length_append,
    Nat.sub_eq_zero_of_le h, Nat.sub_eq_zero_of_le (by omega)]

def records (c : Config) (l : List Byte) : List Byte := ((cut l).1.map (record c)).flatten

/-- What `conv=block` is to make of an input. -/
def blocked (c : Config) (l : List Byte) : List Byte :=
  records c l ++ if (cut l).2 = [] then [] else record c (cut l).2

section
variable {mem : Nat → Byte}

theorem exists_newline (mem : Nat → Byte) (inp n : Nat) :
    (newline ∉ slice mem inp n) ∨ ∃ k < n, newline ∉ slice mem inp k ∧ mem (inp + k) = newline := by
  induction n with
  | zero => exact .inl (by simp)
  | succ n ih =>
    rcases ih with hnot | ⟨k, hk, h⟩
    · by_cases hlast : mem (inp + n) = newline
      · exact .inr ⟨n, Nat.lt_succ_self n, hnot, hlast⟩
      · refine .inl ?_
        rw [slice_succ, List.mem_append, List.mem_singleton, not_or]
        exact ⟨hnot, Ne.symm hlast⟩
    · exact .inr ⟨k, by omega, h⟩

theorem toss_of_not_mem {inp n : Nat} (h : newline ∉ slice mem inp n) :
    toss mem n inp = (0, inp + n) := by
  induction n generalizing inp with
  | zero => rfl
  | succ n ih =>
    rw [slice_cons, List.mem_cons, not_or] at h
    rw [toss, if_pos (Ne.symm h.1), ih h.2, Nat.add_assoc, Nat.add_comm 1]

theorem toss_of_newline {inp n k : Nat} (hk : k < n) (h : newline ∉ slice mem inp k)
    (hnl : mem (inp + k) = newline) : toss mem n inp = (n - k, inp + k + 1) := by
  induction k generalizing inp n with
  | zero =>
    obtain ⟨n, rfl⟩ := Nat.exists_eq_succ_of_ne_zero (by omega : n ≠ 0)
    rw [Nat.add_zero] at hnl
    rw [toss, if_neg (not_not.mpr hnl)]
    rfl
  | succ k ih =>
    obtain ⟨n, rfl⟩ := Nat.exists_eq_succ_of_ne_zero (by omega : n ≠ 0)
    rw [slice_cons, List.mem_cons, not_or] at h
    have hnext : inp + 1 + k = inp + (k + 1) := by omega
    rw [toss, if_pos (Ne.symm h.1), ih (by omega) h.2 (hnext ▸ hnl), hnext]
    congr 1
    omega

theorem copyRecord_of_not_mem {f : Byte → Byte} {k inp : Nat} (outp : Nat) (omem : Nat → Byte)
    (h : newline ∉ slice mem inp k) :
    copyRecord f mem k inp outp omem = (k, false, store omem outp ((slice mem inp k).map f)) := by
  induction k generalizing inp outp omem with
  | zero => simp [copyRecord]
  | succ k ih =>
    rw [slice_cons, List.mem_cons, not_or] at h
    rw [copyRecord, if_neg (Ne.symm h.1), ih _ _ h.2, slice_cons, List.map_cons, store_cons]

theorem copyRecord_of_newline {f : Byte → Byte} {k n inp : Nat} (outp : Nat) (omem : Nat → Byte)
    (hk : k < n) (h : newline ∉ slice mem inp k) (hnl : mem (inp + k) = newline) :
    copyRecord f mem n inp outp omem = (k, true, store omem outp ((slice mem inp k).map f)) := by
  induction k generalizing inp outp omem n with
  | zero =>
    obtain ⟨n, rfl⟩ := Nat.exists_eq_succ_of_ne_zero (by omega : n ≠ 0)
    rw [Nat.add_zero] at hnl
    simp [copyRecord, hnl]
  | succ k ih =>
    obtain ⟨n, rfl⟩ := Nat.exists_eq_succ_of_ne_zero (by omega : n ≠ 0)
    rw [slice_cons, List.mem_cons, not_or] at h
    have hnext : inp + 1 + k = inp + (k + 1) := by omega
    rw [copyRecord, if_neg (Ne.symm h.1), ih _ _ (by omega) h.2 (hnext ▸ hnl), slice_cons,
      List.map_cons, store_cons]

end

theorem size_block (hblock : c.cfunc = .block) : c.inSize = max c.ibs c.cbs + c.cbs ∧
    c.outSize = c.obs + c.cbs := by
  rw [Config.inSize, Config.outSize, if_neg (by simp [hblock]), if_neg (by simp [hblock])]
  exact ⟨rfl, rfl⟩

/-- What is put out of the input so far: a line that is too long is not waited for. -/
def ready (c : Config) (l : List Byte) : List Byte :=
  records c l ++ if c.cbs ≤ (cut l).2.length then record c (cut l).2 else []

/-- The state when `line` is what is behind the last newline. -/
def Waiting (c : Config) (s : Dd) (line : List Byte) : Prop :=
  if c.cbs ≤ line.length then s.intrunc = true ∧ s.inp.dbcnt = 0 ∧ s.inp.dbp = 0
  else s.intrunc = false ∧ s.inp.dbcnt = line.length ∧ s.inp.dbp = line.length ∧
    slice s.inp.mem 0 line.length = line

theorem records_line {line l : List Byte} (h : newline ∉ line) :
    records c (line ++ newline :: l) = record c line ++ records c l := by
  rw [records, cut_line h]
  rfl

theorem ready_line {line l : List Byte} (h : newline ∉ line) :
    ready c (line ++ newline :: l) = record c line ++ ready c l := by
  rw [ready, records_line h, cut_line h, ready, List.append_assoc]

/-- The output buffer when the record of a line has been put behind what is pending. -/
structure PutRecord (c : Config) (s s' : Dd) (line : List Byte) : Prop where
  mem : slice s'.out.mem 0 (s.out.dbcnt + c.cbs) =
    slice s.out.mem 0 s.out.dbcnt ++ record c line
  dbp : s'.out.dbp = s.out.dbp + c.cbs
  dbcnt : s'.out.dbcnt = s.out.dbcnt + c.cbs
  written : s'.written = s.written
  blocks : s'.blocks = s.blocks
  imem : s'.inp.mem = s.inp.mem
  idbp : s'.inp.dbp = s.inp.dbp

theorem record_of_le {line : List Byte} (h : c.cbs ≤ line.length) :
    record c line = (line.take c.cbs).map c.table := by
  rw [record, Nat.sub_eq_zero_of_le h]
  exact List.append_nil _

theorem blockLoop_line {inp k : Nat} (hk : k < s.inp.dbcnt) (h : newline ∉ slice s.inp.mem inp k)
    (hnl : s.inp.mem (inp + k) = newline) (hdbp : s.out.dbp = s.out.dbcnt) :
    ∃ s₁, (∀ fuel, blockLoop c (fuel + 1) inp s =
        outIfFull c s₁ >>= fun s => blockLoop c fuel (inp + k + 1) s) ∧
      PutRecord c s s₁ (slice s.inp.mem inp k) ∧ s₁.inp.dbcnt = s.inp.dbcnt - k - 1 ∧
      s₁.intrunc = s.intrunc := by
  have hmore : ¬ s.inp.dbcnt = 0 := by omega
  rcases Nat.lt_or_ge k c.cbs with hshort | hlong
  · have hcopy := fun omem => copyRecord_of_newline (f := c.table) (n := min c.cbs s.inp.dbcnt)
      s.out.dbp omem (by omega) h hnl
    obtain ⟨line, hline⟩ : ∃ line, line = slice s.inp.mem inp k := ⟨_, rfl⟩
    have hlen : line.length = k := hline ▸ length_slice
    refine ⟨{ s with
        inp := { s.inp with dbcnt := s.inp.dbcnt - k - 1 }
        out := { s.out with
          mem := store (store s.out.mem s.out.dbp (line.map c.table)) (s.out.dbp + k)
            (List.replicate (c.cbs - k) (c.table space))
          dbp := s.out.dbp + c.cbs
          dbcnt := s.out.dbcnt + c.cbs } }, fun fuel => ?_,
      ⟨?_, rfl, rfl, rfl, rfl, rfl, rfl⟩, rfl, rfl⟩
    · rw [blockLoop, if_neg hmore]
      dsimp only
      rw [hcopy, ← hline]
      dsimp only
      rw [if_neg (by simp), finishRecord, if_pos hshort]
      rfl
    · dsimp only
      rw [← hline, record, hlen, List.take_of_length_le (by omega), hdbp]
      have hpad := @slice_store_append Byte
        (store s.out.mem s.out.dbcnt (line.map c.table)) (s.out.dbcnt + k)
        (List.replicate (c.cbs - k) (c.table space))
      have htext := @slice_store_append Byte s.out.mem s.out.dbcnt (line.map c.table)
      rw [List.length_map, hlen] at htext
      rw [List.length_replicate, htext, List.append_assoc] at hpad
      rw [← hpad]
      congr 1
      omega
  · have hlen : (slice s.inp.mem inp k).length = k := length_slice
    have htake : (slice s.inp.mem inp k).take c.cbs = slice s.inp.mem inp c.cbs := take_slice hlong
    have hsplit : slice s.inp.mem inp k =
        slice s.inp.mem inp c.cbs ++ slice s.inp.mem (inp + c.cbs) (k - c.cbs) := by
      rw [← slice_append, Nat.add_sub_cancel' hlong]
    rw [hsplit, List.mem_append, not_or] at h
    have hcopy := fun omem => copyRecord_of_not_mem (f := c.table) s.out.dbp omem h.1
    have htoss : toss s.inp.mem (s.inp.dbcnt - c.cbs) (inp + c.cbs) =
        (s.inp.dbcnt - k, inp + k + 1) := by
      rw [toss_of_newline (k := k - c.cbs) (by omega) h.2
        (by rwa [Nat.add_assoc, Nat.add_sub_cancel' hlong])]
      congr 1 <;> omega
    refine ⟨{ s with
        inp := { s.inp with dbcnt := s.inp.dbcnt - k - 1 }
        out := { s.out with
          mem := store s.out.mem s.out.dbp ((slice s.inp.mem inp c.cbs).map c.table)
          dbp := s.out.dbp + c.cbs
          dbcnt := s.out.dbcnt + c.cbs } }, fun fuel => ?_,
      ⟨?_, rfl, rfl, rfl, rfl, rfl, rfl⟩, rfl, rfl⟩
    · rw [blockLoop, if_neg hmore, Nat.min_eq_left (by omega : c.cbs ≤ s.inp.dbcnt)]
      dsimp only
      rw [hcopy]
      dsimp only
      rw [if_neg (by omega), finishRecord, if_neg (Nat.lt_irrefl _)]
      dsimp only [Bool.toNat_false]
      rw [Nat.add_zero, Nat.sub_zero, htoss]
      dsimp only
      rw [if_neg (by omega)]
    · dsimp only
      rw [record_of_le (by omega), htake, hdbp]
      have htext := @slice_store_append Byte s.out.mem s.out.dbcnt
        ((slice s.inp.mem inp c.cbs).map c.table)
      rwa [List.length_map, length_slice] at htext

theorem blockLoop_rest {inp : Nat} (h : newline ∉ slice s.inp.mem inp s.inp.dbcnt)
    (hlong : c.cbs ≤ s.inp.dbcnt) (hdbp : s.out.dbp = s.out.dbcnt) :
    ∃ s₁ inp', (∀ fuel, blockLoop c (fuel + 1) inp s =
        outIfFull c s₁ >>= fun s => blockLoop c fuel inp' s) ∧
      PutRecord c s s₁ (slice s.inp.mem inp s.inp.dbcnt) ∧ s₁.inp.dbcnt = 0 ∧
      s₁.intrunc = true := by
  have hpos := c.cbs_pos
  have hsplit : slice s.inp.mem inp s.inp.dbcnt =
      slice s.inp.mem inp c.cbs ++ slice s.inp.mem (inp + c.cbs) (s.inp.dbcnt - c.cbs) := by
    rw [← slice_append, Nat.add_sub_cancel' hlong]
  have htake : (slice s.inp.mem inp s.inp.dbcnt).take c.cbs = slice s.inp.mem inp c.cbs :=
    take_slice hlong
  have hlen : (slice s.inp.mem inp s.inp.dbcnt).length = s.inp.dbcnt := length_slice
  have h' := h
  rw [hsplit, List.mem_append, not_or] at h'
  have hcopy := fun omem => copyRecord_of_not_mem (f := c.table) s.out.dbp omem h'.1
  have htoss := toss_of_not_mem h'.2
  refine ⟨{ s with
      inp := { s.inp with dbcnt := 0 }
      out := { s.out with
        mem := store s.out.mem s.out.dbp ((slice s.inp.mem inp c.cbs).map c.table)
        dbp := s.out.dbp + c.cbs
        dbcnt := s.out.dbcnt + c.cbs }
      intrunc := true }, inp + c.cbs + (s.inp.dbcnt - c.cbs), fun fuel => ?_,
    ⟨?_, rfl, rfl, rfl, rfl, rfl, rfl⟩, rfl, rfl⟩
  · rw [blockLoop, if_neg (by omega), Nat.min_eq_left hlong]
    dsimp only
    rw [hcopy]
    dsimp only
    rw [if_neg (by omega), finishRecord, if_neg (Nat.lt_irrefl _)]
    dsimp only [Bool.toNat_false]
    rw [Nat.add_zero, Nat.sub_zero, htoss]
    rfl
  · dsimp only
    rw [record_of_le (by omega), htake, hdbp]
    have htext := @slice_store_append Byte s.out.mem s.out.dbcnt
      ((slice s.inp.mem inp c.cbs).map c.table)
    rwa [List.length_map, length_slice] at htext

theorem blockLoop_short {inp : Nat} (fuel : Nat) (h : newline ∉ slice s.inp.mem inp s.inp.dbcnt)
    (hmore : 0 < s.inp.dbcnt) (hshort : s.inp.dbcnt < c.cbs)
    (hdbp : s.inp.dbp = inp + s.inp.dbcnt) :
    ∃ omem, (∀ j < s.out.dbp, omem j = s.out.mem j) ∧
      blockLoop c (fuel + 1) inp s = .ok { s with
        inp := { s.inp with
          mem := store s.inp.mem 0 (slice s.inp.mem inp s.inp.dbcnt)
          dbp := s.inp.dbcnt }
        out := { s.out with mem := omem } } := by
  have hcopy := fun omem => copyRecord_of_not_mem (f := c.table) s.out.dbp omem h
  refine ⟨store s.out.mem s.out.dbp ((slice s.inp.mem inp s.inp.dbcnt).map c.table),
    fun j hj => store_of_lt hj, ?_⟩
  rw [blockLoop, if_neg (by omega), Nat.min_eq_right (by omega)]
  dsimp only
  rw [hcopy]
  dsimp only
  rw [if_pos ⟨rfl, hshort⟩, hdbp, Nat.add_sub_cancel]

theorem slice_line {mem : Nat → Byte} {inp n k : Nat} (hk : k < n)
    (hnl : mem (inp + k) = newline) :
    slice mem inp n = slice mem inp k ++ newline :: slice mem (inp + k + 1) (n - k - 1) := by
  have happend := @slice_append Byte mem inp k (n - k)
  have hrest : n - k = n - k - 1 + 1 := by omega
  rwa [Nat.add_sub_cancel' (Nat.le_of_lt hk), hrest, slice_cons, hnl] at happend

theorem ready_of_not_mem {line : List Byte} (h : newline ∉ line) :
    ready c line = if c.cbs ≤ line.length then record c line else [] := by
  rw [ready, records, cut_of_not_mem h]
  rfl

theorem ready_nil : ready c [] = [] := by
  have hpos := c.cbs_pos
  rw [ready_of_not_mem List.not_mem_nil, if_neg (by rw [List.length_nil]; omega)]

theorem waiting_nil :
    Waiting c s [] ↔ s.intrunc = false ∧ s.inp.dbcnt = 0 ∧ s.inp.dbp = 0 := by
  have hpos := c.cbs_pos
  rw [Waiting, if_neg (by rw [List.length_nil]; omega)]
  exact ⟨fun h => ⟨h.1, h.2.1, h.2.2.1⟩, fun h => ⟨h.1, h.2.1, h.2.2, rfl⟩⟩

theorem PutRecord.outIfFull {s₁ : Dd} {line bytes : List Byte} (hblock : c.cfunc = .block)
    (hE : c.WritesFail → E .writeError) (hout : OutInv c s bytes) (hput : PutRecord c s s₁ line) :
    Ensures E (outIfFull c s₁) fun s' =>
      OutInv c s' (bytes ++ record c line) ∧ s'.inp = s₁.inp ∧ s'.intrunc = s₁.intrunc ∧
        s'.blocks = s₁.blocks := by
  have hlt := hout.lt
  refine outIfFull_spec hE ?_ ?_ ?_ ?_
  · rw [hput.dbcnt, (size_block hblock).2]
    omega
  · rw [hput.dbp, hput.dbcnt, hout.dbp]
  · rw [hput.written]
    exact hout.aligned
  · rw [hput.dbcnt, hput.mem, hput.written, ← List.append_assoc, hout.bytes]

theorem blockLoop_spec (hblock : c.cfunc = .block) (hE : c.WritesFail → E .writeError)
    {fuel inp : Nat} {bytes : List Byte} (hout : OutInv c s bytes)
    (hdbp : s.inp.dbp = inp + s.inp.dbcnt) (hfuel : s.inp.dbcnt < fuel)
    (htrunc : s.intrunc = false) :
    Ensures E (blockLoop c fuel inp s) fun s' =>
      OutInv c s' (bytes ++ ready c (slice s.inp.mem inp s.inp.dbcnt)) ∧
        Waiting c s' (cut (slice s.inp.mem inp s.inp.dbcnt)).2 ∧ s'.blocks = s.blocks := by
  have hpos := c.cbs_pos
  induction fuel generalizing inp s bytes with
  | zero => omega
  | succ fuel ih =>
    rcases exists_newline s.inp.mem inp s.inp.dbcnt with hnot | ⟨k, hk, hnot, hnl⟩
    · have hlen : (slice s.inp.mem inp s.inp.dbcnt).length = s.inp.dbcnt := length_slice
      rw [ready_of_not_mem hnot, cut_of_not_mem hnot, hlen]
      rcases Nat.lt_or_ge s.inp.dbcnt c.cbs with hshort | hlong
      · rw [if_neg (by omega), List.append_nil]
        rcases Nat.eq_zero_or_pos s.inp.dbcnt with hzero | hmore
        · rw [blockLoop, if_pos hzero, hzero]
          exact ⟨⟨hout.dbp, hout.lt, hout.aligned, hout.bytes⟩,
            waiting_nil.mpr ⟨htrunc, hzero, rfl⟩, rfl⟩
        · obtain ⟨omem, hbefore, hturn⟩ := blockLoop_short fuel hnot hmore hshort hdbp
          rw [hturn]
          refine ⟨⟨hout.dbp, hout.lt, hout.aligned, ?_⟩, ?_, rfl⟩
          · rw [← hout.bytes]
            dsimp only
            congr 1
            refine slice_congr fun j _ hj => hbefore j ?_
            rw [hout.dbp]
            omega
          · rw [Waiting, hlen, if_neg (by omega)]
            refine ⟨htrunc, rfl, rfl, ?_⟩
            dsimp only
            exact slice_store_self
      · rw [if_pos hlong]
        obtain ⟨s₁, inp', hturn, hput, hcnt, htrunc₁⟩ := blockLoop_rest hnot hlong hout.dbp
        rw [hturn]
        refine (hput.outIfFull hblock hE hout).bind ?_
        rintro s₂ ⟨hout₂, hinp, htrunc₂, hblocks⟩
        obtain ⟨fuel, rfl⟩ := Nat.exists_eq_succ_of_ne_zero (by omega : fuel ≠ 0)
        have hzero : s₂.inp.dbcnt = 0 := by rw [hinp, hcnt]
        rw [blockLoop, if_pos hzero]
        refine ⟨⟨hout₂.dbp, hout₂.lt, hout₂.aligned, hout₂.bytes⟩, ?_,
          hblocks.trans hput.blocks⟩
        rw [Waiting, hlen, if_pos hlong]
        exact ⟨htrunc₂.trans htrunc₁, hzero, rfl⟩
    · rw [slice_line hk hnl, ready_line hnot, cut_line hnot, ← List.append_assoc]
      obtain ⟨s₁, hturn, hput, hcnt, htrunc₁⟩ := blockLoop_line hk hnot hnl hout.dbp
      rw [hturn]
      refine (hput.outIfFull hblock hE hout).bind ?_
      rintro s₂ ⟨hout₂, hinp, htrunc₂, hblocks⟩
      have hcnt₂ : s₂.inp.dbcnt = s.inp.dbcnt - k - 1 := by rw [hinp, hcnt]
      have hmem₂ : s₂.inp.mem = s.inp.mem := by rw [hinp, hput.imem]
      have hdbp₂ : s₂.inp.dbp = s.inp.dbp := by rw [hinp, hput.idbp]
      have hdbp₃ : s₂.inp.dbp = inp + k + 1 + s₂.inp.dbcnt := by omega
      have hloop := ih hout₂ hdbp₃ (by omega)
        (by rw [htrunc₂, htrunc₁, htrunc])
      rw [hcnt₂, hmem₂, hblocks, hput.blocks] at hloop
      exact hloop

/-- Between two blocks, where `done` has been handed on. -/
structure BlockInv (c : Config) (s : Dd) (done : List Byte) : Prop where
  out : OutInv c s (ready c done)
  waiting : Waiting c s (cut done).2

theorem blockInv_start : BlockInv c (start imem omem) [] := by
  refine ⟨⟨rfl, c.obs_pos, Nat.dvd_zero _, ?_⟩, waiting_nil.mpr ⟨rfl, rfl, rfl⟩⟩
  rw [ready_nil]
  rfl

theorem ready_append_long {l l' : List Byte} (hlong : c.cbs ≤ (cut l).2.length)
    (h : newline ∉ l') : ready c (l ++ l') = ready c l ∧
      c.cbs ≤ (cut (l ++ l')).2.length := by
  have hboth : newline ∉ (cut l).2 ++ l' := by
    rw [List.mem_append, not_or]
    exact ⟨not_mem_cut l, h⟩
  rw [ready, ready, records, records, cut_append, cut_of_not_mem hboth, List.append_nil,
    if_pos hlong, if_pos (by rw [List.length_append]; omega), record_append hlong,
    List.length_append]
  exact ⟨rfl, by omega⟩

theorem ready_append_newline {l line : List Byte} (hlong : c.cbs ≤ (cut l).2.length)
    (h : newline ∉ line) (l' : List Byte) :
    ready c (l ++ (line ++ newline :: l')) = ready c l ++ ready c l' ∧
      (cut (l ++ (line ++ newline :: l'))).2 = (cut l').2 := by
  have hboth : newline ∉ (cut l).2 ++ line := by
    rw [List.mem_append, not_or]
    exact ⟨not_mem_cut l, h⟩
  have hcut : cut (l ++ (line ++ newline :: l')) =
      ((cut l).1 ++ ((cut l).2 ++ line) :: (cut l').1, (cut l').2) := by
    rw [cut_append, ← List.append_assoc, cut_line hboth]
  rw [hcut]
  refine ⟨?_, rfl⟩
  rw [ready, ready, ready, records, records, records, hcut, if_pos hlong]
  dsimp only
  rw [List.map_append, List.flatten_append, List.map_cons, List.flatten_cons,
    record_append hlong]
  simp only [List.append_assoc]

theorem ready_append_short {l : List Byte} (hshort : (cut l).2.length < c.cbs) (l' : List Byte) :
    ready c (l ++ l') = ready c l ++ ready c ((cut l).2 ++ l') ∧
      (cut (l ++ l')).2 = (cut ((cut l).2 ++ l')).2 := by
  have hready : ready c l = records c l := by
    rw [ready, if_neg (Nat.not_le.mpr hshort), List.append_nil]
  rw [hready, ready, ready, records, records, records, cut_append]
  dsimp only
  rw [List.map_append, List.flatten_append, List.append_assoc]
  exact ⟨rfl, rfl⟩

theorem block_takes (hblock : c.cfunc = .block) (hE : c.WritesFail → E .writeError) :
    Takes c E (BlockInv c) := by
  rintro s done i b ⟨hout, hwaiting⟩ - hdbp hdbcnt hdbrcnt hbefore hb
  have hconvert : ∀ s', convert c s' = block c s' := fun s' => by rw [convert, hblock]
  have hkeep : ∀ s' : Dd, s'.out = s.out → s'.written = s.written →
      OutInv c s' (ready c done) := fun s' h1 h2 => by
    refine ⟨?_, ?_, ?_, ?_⟩
    · rw [h1]
      exact hout.dbp
    · rw [h1]
      exact hout.lt
    · rw [h2]
      exact hout.aligned
    · rw [h1, h2]
      exact hout.bytes
  rw [hconvert, block]
  dsimp only
  rw [Waiting] at hwaiting
  split_ifs at hwaiting with hlong
  · -- the rest of a line is being skipped
    obtain ⟨htrunc, hzero, hstart⟩ := hwaiting
    rw [if_pos htrunc, hdbrcnt]
    rw [hstart] at hb
    rcases exists_newline i.mem 0 b.length with hnot | ⟨k, hk, hnot, hnl⟩
    · rw [toss_of_not_mem hnot, if_pos rfl]
      rw [hb] at hnot
      obtain ⟨hready, hlong'⟩ := ready_append_long hlong hnot
      refine ⟨⟨?_, ?_⟩, rfl⟩
      · rw [hready]
        exact hkeep _ rfl rfl
      · rw [Waiting, if_pos hlong']
        exact ⟨htrunc, rfl, rfl⟩
    · rw [toss_of_newline hk hnot hnl, if_neg (by omega)]
      have hline := slice_line hk hnl
      rw [hb] at hline
      obtain ⟨hready, hcut⟩ := ready_append_newline (l := done) hlong hnot
        (slice i.mem (0 + k + 1) (b.length - k - 1))
      rw [← hline] at hready hcut
      have hinp : 0 + k + 1 + (b.length - k) - 1 - (b.length - k - 1) = 0 + k + 1 := by omega
      rw [hinp]
      refine (blockLoop_spec (s := { s with
        inp := ⟨i.mem, 0 + k + 1 + (b.length - k) - 1, b.length - k - 1, b.length⟩
        intrunc := false
        blocks := s.blocks + 1 }) hblock hE (hkeep _ rfl rfl) ?_ ?_ rfl).mono ?_
      · dsimp only
        omega
      · dsimp only
        omega
      · rintro s' ⟨hout', hwaiting', hblocks⟩
        refine ⟨⟨?_, ?_⟩, hblocks⟩
        · rw [hready]
          exact hout'
        · rw [hcut]
          exact hwaiting'
  · -- the buffer begins with the beginning of a line
    obtain ⟨htrunc, hcnt, hstart, hline⟩ := hwaiting
    rw [if_neg (by rw [htrunc]; exact Bool.false_ne_true)]
    have hinp : i.dbp - i.dbcnt = 0 := by omega
    have hall : slice i.mem 0 i.dbcnt = (cut done).2 ++ b := by
      rw [hdbcnt, hcnt, slice_append, Nat.zero_add, ← hstart, hb,
        slice_congr fun j _ hj => hbefore j (by omega), hstart, hline]
    obtain ⟨hready, hcut⟩ := ready_append_short (Nat.not_le.mp hlong) b
    rw [hinp]
    refine (blockLoop_spec (s := { s with inp := i, blocks := s.blocks + 1 }) hblock hE
      (hkeep _ rfl rfl) ?_ ?_ htrunc).mono ?_
    · dsimp only
      omega
    · exact Nat.lt_succ_self _
    · rintro s' ⟨hout', hwaiting', hblocks⟩
      dsimp only at hout' hwaiting'
      rw [hall] at hout' hwaiting'
      refine ⟨⟨?_, ?_⟩, hblocks⟩
      · rw [hready]
        exact hout'
      · rw [hcut]
        exact hwaiting'

theorem blockIn_spec (hblock : c.cfunc = .block) (hbs : c.bs = false)
    (hfits : Fits c reads (start imem omem)) :
    Ensures (Stops c reads) (ddIn c reads (start imem omem)) fun s =>
      BlockInv c s (handed c 0 reads) := by
  refine ddIn_spec (BlockInv c) hbs (block_takes hblock fun h => h) ?_ ?_
    (fun h hmem => ⟨h, hmem⟩) blockInv_start hfits
  · rintro s done ⟨-, hwaiting⟩
    have hpos := c.cbs_pos
    rw [(size_block hblock).1]
    rw [Waiting] at hwaiting
    split_ifs at hwaiting <;> omega
  · rintro s done ⟨hout, hwaiting⟩
    refine ⟨⟨hout.dbp, hout.lt, hout.aligned, hout.bytes⟩, ?_⟩
    rw [Waiting] at hwaiting ⊢
    dsimp only
    rw [prefill_dbp, prefill_dbcnt]
    split_ifs at hwaiting ⊢
    · exact hwaiting
    · obtain ⟨htrunc, hcnt, hdbp, hline⟩ := hwaiting
      exact ⟨htrunc, hcnt, hdbp, (slice_prefill (Nat.le_of_eq hdbp.symm)).trans hline⟩

end Bsdi.Dd
