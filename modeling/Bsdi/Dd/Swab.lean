import Bsdi.Dd.Unblock

/-!
# `conv=swab` and `conv=sync`

Both work on a block where it lies in the input buffer. `swab` is called for as many bytes as the
buffer holds, and without `noerror` what `sync` adds to a short block is what the buffer held.
-/

namespace Bsdi.Dd

open Lib

variable {c : Config} {s : Dd} {done : List Byte} {E : Stop → Prop}
  {reads : List (Option (Chunk c.ibs))} {imem omem : Nat → Byte}

def AllRight (c : Config) : List (Option (Chunk c.ibs)) → Dd → Prop
  | [], _ => True
  | read :: reads, s => ¬ c.Enough s.blocks → ¬ IsEnd read →
    ((read = none → c.noerror = true ∧ c.sync = true) →
      ∃ i, prepare c read s.inp = .ok i ∧ BlockRight c read s.inp i) ∧
      ∀ s', turn c read s = .ok s' → AllRight c reads s'

/-- The buffer is as one of the conversions leaves it, whatever the blocks were. -/
inductive Tidy (c : Config) (s : Dd) : Prop
  | whole (hbs : c.bs = true) (hdbp : s.inp.dbp = 0) (hdbcnt : s.inp.dbcnt = 0)
  | plain (hbs : c.bs = false) (hplain : c.cfunc = .plain) (done : List Byte)
    (hinv : PlainInv c s done)
  | block (hbs : c.bs = false) (hblock : c.cfunc = .block) (done : List Byte)
    (hinv : BlockInv c s done)
  | unblock (hbs : c.bs = false) (hunblock : c.cfunc = .unblock) (done : List Byte)
    (hinv : UnblockInv c s done)

theorem tidy_start : Tidy c (start imem omem) := by
  cases hbs : c.bs with
  | true => exact .whole hbs rfl rfl
  | false =>
    cases hcfunc : c.cfunc with
    | plain => exact .plain hbs hcfunc [] plainInv_start
    | block => exact .block hbs hcfunc [] blockInv_start
    | unblock => exact .unblock hbs hcfunc [] unblockInv_start

theorem Tidy.room (h : Tidy c s) : s.inp.dbp + c.ibs ≤ c.inSize := by
  have hobs := c.obs_pos
  have hpos := c.cbs_pos
  cases h with
  | whole hbs hdbp hdbcnt =>
    rw [hdbp, Config.inSize]
    split_ifs <;> omega
  | plain hbs hplain done hinv =>
    have hlt := hinv.lt
    have hsame := hinv.dbp
    rw [(size_plain hplain).1]
    omega
  | block hbs hblock done hinv =>
    have hwaiting := hinv.waiting
    rw [Waiting] at hwaiting
    rw [(size_block hblock).1]
    split_ifs at hwaiting <;> omega
  | unblock hbs hunblock done hinv =>
    have hshort := length_chop (c := c) done
    have hsame := hinv.dbp
    have hcnt := hinv.dbcnt
    rw [(size_unblock hunblock).1]
    omega

theorem translateBack_before {t : Byte → Byte} {mem : Nat → Byte} {n inp j : Nat}
    (hj : j + n < inp) : translateBack c t mem n inp j = mem j := by
  induction n generalizing mem inp with
  | zero => rfl
  | succ n ih =>
    rw [translateBack, ih (by omega)]
    exact store_of_lt (by omega)

theorem Tidy.convert (hbs : c.bs = false) (h : Tidy c s) {i : Io} {n : Nat} (hn : n ≤ c.ibs)
    (hdbp : i.dbp = s.inp.dbp + n) (hdbcnt : i.dbcnt = s.inp.dbcnt + n) (hdbrcnt : i.dbrcnt = n)
    (hbefore : ∀ j < s.inp.dbp, i.mem j = s.inp.mem j) {s' : Dd}
    (hok : convert c { s with inp := i, blocks := s.blocks + 1 } = .ok s') : Tidy c s' := by
  obtain ⟨b, hb⟩ : ∃ b, b = slice i.mem s.inp.dbp n := ⟨_, rfl⟩
  have hlen : b.length = n := by rw [hb, length_slice]
  rw [← hlen] at hn hdbp hdbcnt hdbrcnt hb
  cases h with
  | whole hbs' => exact absurd (hbs.symm.trans hbs') (by simp)
  | plain _ hplain done hinv =>
    have htaken := plain_takes (E := fun _ => True) hplain (fun _ => trivial) s done i b hinv hn
      hdbp hdbcnt hdbrcnt hbefore hb.symm
    exact .plain hbs hplain _ (htaken.post hok).1
  | block _ hblock done hinv =>
    have htaken := block_takes (E := fun _ => True) hblock (fun _ => trivial) s done i b hinv hn
      hdbp hdbcnt hdbrcnt hbefore hb.symm
    exact .block hbs hblock _ (htaken.post hok).1
  | unblock _ hunblock done hinv =>
    have hsame := hinv.dbp
    have hkeep : ∀ j < s.inp.dbp, translated c i j = i.mem j := by
      intro j hj
      rw [translated]
      cases c.ctab with
      | none => rfl
      | some t => exact translateBack_before (by omega)
    have hall : slice (translated c i) 0 i.dbcnt =
        (chop c done).2 ++ slice (translated c i) s.inp.dbp b.length := by
      rw [hdbcnt, slice_append, Nat.zero_add, ← hsame,
        slice_congr fun j _ hj => (hkeep j (by omega)).trans (hbefore j (by omega)), hsame,
        hinv.rest]
    have hconvert : Bsdi.Dd.convert c { s with inp := i, blocks := s.blocks + 1 } =
        Bsdi.Dd.unblock c { s with inp := i, blocks := s.blocks + 1 } := by
      rw [Bsdi.Dd.convert, hunblock]
    have htaken := hinv.unblock (E := fun _ => True) hunblock (fun _ => trivial) (by omega) hall
    rw [hconvert] at hok
    exact .unblock hbs hunblock _ (htaken.post hok).1

theorem writeLoop_inp {n fuel outp cnt : Nat} {p : Nat × Dd}
    (hok : writeLoop c n fuel outp cnt s = .ok p) : p.2.inp = s.inp := by
  induction fuel generalizing outp cnt s with
  | zero => exact absurd hok (by simp [writeLoop])
  | succ fuel ih =>
    rw [writeLoop] at hok
    obtain ⟨-, -, hok⟩ := bind_eq_ok.mp hok
    dsimp only at hok
    cases hroom : (c.device s.writes).room with
    | none =>
      rw [hroom] at hok
      split_ifs at hok
    | some room =>
      rw [hroom] at hok
      dsimp only at hok
      split_ifs at hok
      · exact Except.ok.inj hok ▸ rfl
      · exact Except.ok.inj hok ▸ rfl
      · exact (ih hok :)

theorem outLoop_inp {fuel n outp : Nat} {s' : Dd} (hok : outLoop c fuel n outp s = .ok s') :
    s'.inp = s.inp := by
  induction fuel generalizing n outp s with
  | zero => exact absurd hok (by simp [outLoop])
  | succ fuel ih =>
    rw [outLoop] at hok
    obtain ⟨⟨outp', s₁⟩, hwrite, hok⟩ := bind_eq_ok.mp hok
    have hsame := writeLoop_inp hwrite
    dsimp only at hok
    split_ifs at hok
    · exact (Except.ok.inj hok ▸ rfl : s'.inp = s₁.inp).trans hsame
    · exact (ih hok).trans hsame

theorem ddOut_inp {force : Bool} {s' : Dd} (hok : ddOut c force s = .ok s') : s'.inp = s.inp := by
  rw [ddOut] at hok
  obtain ⟨s₁, hloop, hok⟩ := bind_eq_ok.mp hok
  exact (Except.ok.inj hok ▸ rfl : s'.inp = s₁.inp).trans (outLoop_inp hloop)

theorem Tidy.turn {read : Option (Chunk c.ibs)} (h : Tidy c s) {s' : Dd}
    (hok : turn c read s = .ok s') : Tidy c s' := by
  rw [Bsdi.Dd.turn] at hok
  by_cases herror : read.isNone = true ∧ ¬ c.noerror = true
  · rw [if_pos herror] at hok
    cases hok
  rw [if_neg herror] at hok
  by_cases hskip : read.isNone = true ∧ ¬ c.sync = true
  · rw [if_pos hskip] at hok
    obtain ⟨-, -, hok⟩ := bind_eq_ok.mp hok
    obtain rfl := Except.ok.inj hok
    exact h
  · rw [if_neg hskip] at hok
    obtain ⟨i, hprepare, hok⟩ := bind_eq_ok.mp hok
    obtain ⟨hrcnt, hcnt, hdbp, hbefore⟩ := dbrcnt_prepare hprepare
    by_cases hbs : c.bs = true
    · rw [if_pos hbs] at hok
      obtain ⟨s₁, hout, hok⟩ := bind_eq_ok.mp hok
      have hsame := ddOut_inp hout
      dsimp only at hsame
      obtain rfl := Except.ok.inj hok
      cases h with
      | whole _ hzero _ =>
        refine .whole hbs ?_ rfl
        dsimp only
        rw [hsame, hdbp, hzero]
      | plain hbs' | block hbs' | unblock hbs' => exact absurd (hbs'.symm.trans hbs) (by simp)
    · rw [if_neg hbs] at hok
      refine h.convert (by simpa using hbs) (i := { i with dbp := i.dbp + i.dbrcnt })
        (n := (padded c read).length) length_padded_le ?_ hcnt hrcnt hbefore hok
      dsimp only
      rw [hdbp, hrcnt]

theorem allRight_iff_fits (h : Tidy c s) : AllRight c reads s ↔ Fits c reads s := by
  induction reads generalizing s with
  | nil => exact Iff.rfl
  | cons read reads ih =>
    refine forall_congr' fun _ => forall_congr' fun _ => and_congr ?_ ?_
    · exact forall_congr' fun hread => prepare_right_iff hread h.room
    · exact forall_congr' fun s' => forall_congr' fun hok => ih (h.turn hok)

theorem handed_append {pre : List (Option (Chunk c.ibs))}
    (hpre : ∀ read ∈ pre, ¬ IsEnd read ∧ (read = none → c.sync = true)) (n : Nat) :
    handed c n (pre ++ reads) = handed c n pre ++ handed c (n + pre.length) reads := by
  induction pre generalizing n with
  | nil => rfl
  | cons read pre ih =>
    obtain ⟨⟨hend, hskip⟩, hpre⟩ := List.forall_mem_cons.mp hpre
    have hnot : ¬ (read.isNone = true ∧ c.sync = false) := by
      rintro ⟨hnone, hsync⟩
      rw [hskip (by simpa using hnone)] at hsync
      cases hsync
    have hlen : n + (read :: pre).length = n + 1 + pre.length := by
      rw [List.length_cons]
      omega
    rw [List.cons_append, handed, handed, hlen]
    by_cases henough : c.Enough n
    · have hlater : ∀ l, handed c (n + 1 + pre.length) l = [] := by
        intro l
        cases l with
        | nil => rfl
        | cons => rw [handed, if_pos (.inl ⟨henough.1, by have := henough.2; omega⟩)]
      rw [if_pos (.inl henough), if_pos (.inl henough), hlater]
      rfl
    · rw [if_neg (not_or.mpr ⟨henough, hend⟩), if_neg (not_or.mpr ⟨henough, hend⟩), if_neg hnot,
        if_neg hnot, ih hpre, List.append_assoc]

/-- Each block is right in a run exactly if the buffer is fit for it; and then blocks that two
inputs share from some block on have the same output. -/
theorem allRight_iff : (AllRight c reads (start imem omem) ↔ Fits c reads (start imem omem)) ∧
    (c.cfunc = .plain → c.bs = false → Fits c reads (start imem omem) →
      Ensures (Stops c reads) (dd c reads imem omem) fun s =>
        ∀ pre rest, reads = pre ++ rest →
          (∀ read ∈ pre, ¬ IsEnd read ∧ (read = none → c.sync = true)) →
            s.written = (handed c 0 pre).map c.table ++ (handed c pre.length rest).map c.table ++
              osyncPad c (handed c 0 reads).length) := by
  refine ⟨allRight_iff_fits tidy_start, fun hplain hbs hfits => ?_⟩
  refine (dd_plain hplain hbs hfits).mono ?_
  rintro s ⟨hwritten, -⟩ pre rest rfl hpre
  rw [hwritten, handed_append hpre, Nat.zero_add, List.map_append]

/-- `swab` goes beyond the block when the buffer holds more, and `sync` takes in what an earlier
block has left. -/
theorem not_allRight : ¬ AllRight (small .plain false true false)
      [some ⟨[97, 98], by decide⟩, some ⟨[99, 100], by decide⟩] (start (fun _ => 0) fun _ => 0) ∧
    ¬ AllRight (small .plain true false false)
      [some ⟨[97, 98], by decide⟩, some ⟨[99, 100], by decide⟩, some ⟨[101], by decide⟩]
        (start (fun _ => 0) fun _ => 0) := by
  constructor
  · intro h
    obtain ⟨-, h⟩ := h (by decide) (by decide)
    obtain ⟨h, -⟩ := h _ rfl (by decide) (by decide)
    obtain ⟨i, hprepare, -⟩ := h nofun
    exact absurd hprepare nofun
  · intro h
    obtain ⟨-, h⟩ := h (by decide) (by decide)
    obtain ⟨-, h⟩ := h _ rfl (by decide) (by decide)
    obtain ⟨h, -⟩ := h _ rfl (by decide) (by decide)
    obtain ⟨i, hprepare, hright⟩ := h nofun
    obtain rfl := Except.ok.inj hprepare
    exact absurd hright.bytes (by decide)

end Bsdi.Dd
