import Bsdi.Dd.Output

/-!
# Input blocks

A block that has been read is to be filled up for `sync`, and its pairs exchanged for `swab`,
whatever was in the buffer before. `dd_in` fills the buffer only for `noerror` and `sync` together,
and calls `swab` for as many bytes as the buffer holds, from the new block on.
-/

namespace Bsdi.Dd

open Lib

def exchanged : List Byte → List Byte
  | a :: b :: l => b :: a :: exchanged l
  | l => l

theorem exchanged_append (l l' : List Byte) (h : l.length % 2 = 0) :
    exchanged (l ++ l') = exchanged l ++ exchanged l' := by
  induction l using exchanged.induct with
  | case1 a b l ih =>
    rw [List.length_cons, List.length_cons] at h
    simp only [List.cons_append, exchanged]
    rw [ih (by omega)]
  | case2 l hl =>
    match l, hl, h with
    | [], _, _ => rfl
    | [_], _, h => simp at h
    | a :: b :: l, hl, _ => exact absurd rfl (hl a b l)

theorem exchanged_single {l : List Byte} (h : l.length ≤ 1) : exchanged l = l := by
  match l, h with
  | [], _ => rfl
  | [_], _ => rfl

@[simp] theorem exchanged_exchanged (l : List Byte) : exchanged (exchanged l) = l := by
  induction l using exchanged.induct with
  | case1 a b l ih => simp only [exchanged, ih]
  | case2 l hl =>
    match l, hl with
    | [], _ => rfl
    | [_], _ => rfl
    | a :: b :: l, hl => exact absurd rfl (hl a b l)

variable {mem : Nat → Byte}

theorem swab_eq (p len : Nat) : swab mem p len = (swabStep^[len / 2] (mem, p)).1 := by
  rw [swab, ← Function.iterate_mul, ← Function.iterate_add_apply, Nat.add_comm, Nat.mod_add_div]

theorem swabStep_iterate (m p : Nat) (mem : Nat → Byte) :
    (∀ j, j < p ∨ p + 2 * m ≤ j → (swabStep^[m] (mem, p)).1 j = mem j) ∧
      slice (swabStep^[m] (mem, p)).1 p (2 * m) = exchanged (slice mem p (2 * m)) := by
  induction m generalizing mem p with
  | zero => exact ⟨fun _ _ => rfl, rfl⟩
  | succ m ih =>
    rw [Function.iterate_succ_apply]
    change (∀ j, _ → (swabStep^[m] (store mem p [mem (p + 1), mem p], p + 2)).1 j = mem j) ∧ _
    obtain ⟨hother, hslice⟩ := ih (p + 2) (store mem p [mem (p + 1), mem p])
    have hfirst : store mem p [mem (p + 1), mem p] p = mem (p + 1) := by simp [store]
    have hsecond : store mem p [mem (p + 1), mem p] (p + 1) = mem p := by
      rw [store, if_neg (by omega), Nat.add_sub_cancel_left]
      rfl
    have hrest : ∀ j, j < p ∨ p + 2 ≤ j → store mem p [mem (p + 1), mem p] j = mem j := by
      intro j hj
      rcases hj with hj | hj
      · exact store_of_lt hj
      · exact store_of_ge hj
    refine ⟨fun j hj => ?_, ?_⟩
    · rw [hother j (by omega), hrest j (by omega)]
    · change slice (swabStep^[m] (store mem p [mem (p + 1), mem p], p + 2)).1 p (2 * m + 1 + 1) =
        exchanged (slice mem p (2 * m + 1 + 1))
      rw [slice_cons, slice_cons, @slice_cons _ mem, @slice_cons _ mem, exchanged,
        hother p (by omega), hother (p + 1) (by omega), hfirst, hsecond, hslice,
        slice_congr fun j h1 _ => hrest j (by omega)]

theorem slice_swab {p n len : Nat} (heven : n % 2 = 0) (hpairs : n = len ∨ n + 1 = len) :
    slice (swab mem p n) p len = exchanged (slice mem p len) := by
  rw [swab_eq]
  obtain ⟨hother, hslice⟩ := swabStep_iterate (n / 2) p mem
  have hn : 2 * (n / 2) = n := by omega
  rw [hn] at hother hslice
  rcases hpairs with rfl | rfl
  · exact hslice
  · have hlast : exchanged (slice mem (p + n) 1) = slice mem (p + n) 1 :=
      exchanged_single (Nat.le_of_eq length_slice)
    have heven' : (slice mem p n).length % 2 = 0 := by rwa [length_slice]
    rw [slice_append, slice_append, hslice, exchanged_append _ _ heven',
      hlast, slice_congr fun j h1 _ => hother j (.inr h1)]

theorem swab_before {p n j : Nat} (hj : j < p) : swab mem p n j = mem j := by
  rw [swab_eq]
  exact (swabStep_iterate (n / 2) p mem).1 j (.inl hj)

variable {c : Config}

/-- The bytes of a block, filled up for `sync`. -/
def padded (c : Config) : Option (Chunk c.ibs) → List Byte
  | none => List.replicate c.ibs c.fill
  | some chunk =>
    if c.sync then chunk.bytes ++ List.replicate (c.ibs - chunk.bytes.length) c.fill
    else chunk.bytes

def expected (c : Config) (read : Option (Chunk c.ibs)) : List Byte :=
  if c.swab then exchanged (padded c read) else padded c read

/-- A block is right: it is as expected, and `swab` has not touched a byte outside it. -/
structure BlockRight (c : Config) (read : Option (Chunk c.ibs)) (i i' : Io) : Prop where
  bytes : slice i'.mem i.dbp i'.dbrcnt = expected c read
  inside : c.swab = true → swabCount i' ≤ i'.dbrcnt

/-- The condition for that: what is behind a short block has been cleared, or happens to be what
`sync` fills with; and nothing is in the buffer before the block, or one byte and the block is
even. -/
structure BlockFit (c : Config) (read : Option (Chunk c.ibs)) (i : Io) : Prop where
  cleared : ∀ chunk, read = some chunk → c.sync = true → c.noerror = false →
    slice i.mem (i.dbp + chunk.bytes.length) (c.ibs - chunk.bytes.length) =
      List.replicate (c.ibs - chunk.bytes.length) c.fill
  alone : c.swab = true → i.dbcnt = 0 ∨ i.dbcnt = 1 ∧ (padded c read).length % 2 = 0

theorem length_padded {read : Option (Chunk c.ibs)} {i : Io} :
    (padded c read).length = (readBlock c read i).dbrcnt := by
  cases read with
  | none => simp [padded, readBlock]
  | some chunk =>
    have hle := chunk.le
    by_cases hsync : c.sync = true
    · simp [padded, readBlock, hsync, Nat.add_sub_cancel' hle]
    · simp [padded, readBlock, hsync]

@[simp] theorem prefill_dbp {i : Io} : (prefill c i).dbp = i.dbp := by
  rw [prefill]
  split_ifs <;> rfl

@[simp] theorem prefill_dbcnt {i : Io} : (prefill c i).dbcnt = i.dbcnt := by
  rw [prefill]
  split_ifs <;> rfl

theorem slice_prefill {i : Io} {n : Nat} (h : n ≤ i.dbp) :
    slice (prefill c i).mem 0 n = slice i.mem 0 n := by
  refine slice_congr fun k _ hk => ?_
  rw [prefill]
  split_ifs
  · exact store_of_lt (by omega)
  · rfl

theorem readBlock_dbp {read : Option (Chunk c.ibs)} {i : Io} :
    (readBlock c read i).dbp = i.dbp := by
  cases read <;> simp [readBlock]

theorem readBlock_dbcnt {read : Option (Chunk c.ibs)} {i : Io} :
    (readBlock c read i).dbcnt = i.dbcnt + (padded c read).length := by
  rw [length_padded (i := i)]
  cases read <;> simp [readBlock]

theorem readBlock_before {read : Option (Chunk c.ibs)} {i : Io} {j : Nat} (hj : j < i.dbp) :
    (readBlock c read i).mem j = i.mem j := by
  have hfill : (prefill c i).mem j = i.mem j := by
    rw [prefill]
    split_ifs
    · exact store_of_lt hj
    · rfl
  cases read with
  | none => exact hfill
  | some chunk =>
    rw [readBlock]
    dsimp only
    rw [store_of_lt (by rwa [prefill_dbp]), hfill]

theorem slice_readBlock {read : Option (Chunk c.ibs)} {i : Io}
    (hread : read = none → c.noerror = true ∧ c.sync = true) :
    slice (readBlock c read i).mem i.dbp (readBlock c read i).dbrcnt = padded c read ↔
      ∀ chunk, read = some chunk → c.sync = true → c.noerror = false →
        slice i.mem (i.dbp + chunk.bytes.length) (c.ibs - chunk.bytes.length) =
          List.replicate (c.ibs - chunk.bytes.length) c.fill := by
  cases read with
  | none =>
    refine iff_of_true ?_ nofun
    have hfill : slice (store i.mem i.dbp (List.replicate c.ibs c.fill)) i.dbp
        (List.replicate c.ibs c.fill).length = List.replicate c.ibs c.fill := slice_store
    rw [List.length_replicate] at hfill
    simpa [readBlock, prefill, hread rfl, padded] using hfill
  | some chunk =>
    have hle := chunk.le
    have hstored : ∀ mem : Nat → Byte, slice (store mem i.dbp chunk.bytes) i.dbp
        chunk.bytes.length = chunk.bytes := fun mem => slice_store
    have hsplit : ∀ mem : Nat → Byte, slice (store mem i.dbp chunk.bytes) i.dbp c.ibs =
        chunk.bytes ++
          slice mem (i.dbp + chunk.bytes.length) (c.ibs - chunk.bytes.length) := by
      intro mem
      have happend := @slice_append Byte (store mem i.dbp chunk.bytes) i.dbp
        chunk.bytes.length (c.ibs - chunk.bytes.length)
      rw [Nat.add_sub_cancel' hle, hstored] at happend
      rw [happend, slice_congr fun k hk _ => store_of_ge hk]
    by_cases hsync : c.sync = true
    · by_cases hnoerror : c.noerror = true
      · refine iff_of_true ?_ fun _ _ _ h => absurd (hnoerror.symm.trans h) (by simp)
        simp only [readBlock, prefill, hnoerror, hsync, and_self, if_true, padded, hsplit]
        have hfill : ∀ k, i.dbp + chunk.bytes.length ≤ k →
            k < i.dbp + chunk.bytes.length + (c.ibs - chunk.bytes.length) →
              store i.mem i.dbp (List.replicate c.ibs c.fill) k = c.fill := by
          intro k h1 h2
          rw [store, if_neg (by omega), List.getD_eq_getElem?_getD, List.getElem?_replicate,
            if_pos (by omega)]
          rfl
        congr 1
        refine List.eq_replicate_iff.mpr ⟨length_slice, fun b hb => ?_⟩
        obtain ⟨k, hk, rfl⟩ := mem_slice.mp hb
        exact hfill _ (by omega) (by omega)
      · have hoff : c.noerror = false := by simpa using hnoerror
        simp only [readBlock, prefill, hoff, hsync, if_true, padded, hsplit, Bool.false_eq_true,
          false_and, if_false, List.append_cancel_left_eq, Option.some.injEq, forall_eq',
          true_implies]
    · refine iff_of_true ?_ fun _ _ h => absurd h hsync
      simp only [readBlock, padded, prefill, hsync, if_false, Bool.false_eq_true, and_false,
        hstored]

theorem length_padded_le {read : Option (Chunk c.ibs)} : (padded c read).length ≤ c.ibs := by
  cases read with
  | none => simp [padded]
  | some chunk =>
    have hle := chunk.le
    rw [padded]
    split_ifs
    · rw [List.length_append, List.length_replicate]
      omega
    · exact hle

theorem dbrcnt_prepare {read : Option (Chunk c.ibs)} {i i' : Io} (h : prepare c read i = .ok i') :
    i'.dbrcnt = (padded c read).length ∧ i'.dbcnt = i.dbcnt + (padded c read).length ∧
      i'.dbp = i.dbp ∧ ∀ j < i.dbp, i'.mem j = i.mem j := by
  obtain ⟨-, -, h⟩ := bind_eq_ok.mp h
  dsimp only at h
  split_ifs at h
  · obtain ⟨-, -, h⟩ := bind_eq_ok.mp h
    obtain rfl := Except.ok.inj h
    refine ⟨(length_padded).symm, readBlock_dbcnt, readBlock_dbp, fun j hj => ?_⟩
    dsimp only
    rw [swab_before (by rwa [readBlock_dbp]), readBlock_before hj]
  · obtain rfl := Except.ok.inj h
    exact ⟨(length_padded).symm, readBlock_dbcnt, readBlock_dbp, fun j hj => readBlock_before hj⟩

theorem prepare_right_iff {read : Option (Chunk c.ibs)} {i : Io}
    (hread : read = none → c.noerror = true ∧ c.sync = true) (hsize : i.dbp + c.ibs ≤ c.inSize) :
    (∃ i', prepare c read i = .ok i' ∧ BlockRight c read i i') ↔ BlockFit c read i := by
  obtain ⟨i₁, hi₁⟩ : ∃ i₁, i₁ = readBlock c read i := ⟨_, rfl⟩
  have hbytes := hi₁ ▸ slice_readBlock (i := i) hread
  have hlen : i₁.dbrcnt = (padded c read).length := hi₁ ▸ length_padded.symm
  have hcnt : i₁.dbcnt = i.dbcnt + (padded c read).length := hi₁ ▸ readBlock_dbcnt
  have hdbp : i₁.dbp = i.dbp := hi₁ ▸ readBlock_dbp
  have hle : (padded c read).length ≤ c.ibs := length_padded_le
  have hprepare : prepare c read i = if c.swab then do
      within (i.dbp + swabCount i₁) c.inSize
      .ok { i₁ with mem := swab i₁.mem i.dbp (swabCount i₁) } else .ok i₁ := by
    rw [prepare, within_ok hsize, ok_bind, ← hi₁]
    dsimp only
    rw [hdbp]
  rw [hprepare]
  by_cases hswab : c.swab = true
  · rw [if_pos hswab]
    have heven : swabCount i₁ % 2 = 0 := by
      rw [swabCount]
      split_ifs <;> omega
    have hexpected : expected c read = exchanged (padded c read) := if_pos hswab
    -- `swab` stays in the block exactly if the buffer has nothing, or one byte and an even block
    have halone : swabCount i₁ ≤ i₁.dbrcnt ↔
        i.dbcnt = 0 ∨ i.dbcnt = 1 ∧ (padded c read).length % 2 = 0 := by
      rw [swabCount, hlen, hcnt]
      split_ifs <;> omega
    have hswabbed : swabCount i₁ ≤ i₁.dbrcnt →
        slice (swab i₁.mem i.dbp (swabCount i₁)) i.dbp i₁.dbrcnt =
          exchanged (slice i₁.mem i.dbp i₁.dbrcnt) := by
      intro hinside
      refine slice_swab heven ?_
      rw [swabCount] at hinside ⊢
      split_ifs at hinside ⊢ <;> omega
    constructor
    · rintro ⟨i', hok, hright⟩
      obtain ⟨-, -, hok⟩ := bind_eq_ok.mp hok
      obtain rfl := Except.ok.inj hok
      have hinside : swabCount i₁ ≤ i₁.dbrcnt := hright.inside hswab
      refine ⟨hbytes.mp ?_, fun _ => halone.mp hinside⟩
      have hblock := hright.bytes
      dsimp only at hblock
      rw [hswabbed hinside, hexpected] at hblock
      rw [← exchanged_exchanged (slice i₁.mem i.dbp i₁.dbrcnt), hblock, exchanged_exchanged]
    · rintro ⟨hcleared, hfit⟩
      have hinside := halone.mpr (hfit hswab)
      refine ⟨{ i₁ with mem := swab i₁.mem i.dbp (swabCount i₁) },
        by rw [within_ok (by omega), ok_bind], ?_, fun _ => hinside⟩
      dsimp only
      rw [hswabbed hinside, hbytes.mpr hcleared, hexpected]
  · rw [if_neg hswab]
    have hexpected : expected c read = padded c read := if_neg hswab
    constructor
    · rintro ⟨i', hok, hright⟩
      obtain rfl := Except.ok.inj hok
      exact ⟨hbytes.mp (hright.bytes.trans hexpected), fun h => absurd h hswab⟩
    · rintro ⟨hcleared, -⟩
      exact ⟨i₁, rfl, (hbytes.mpr hcleared).trans hexpected.symm, fun h => absurd h hswab⟩

/-- The blocks that are to be handed on, one behind the other, where `n` have been read before. -/
def handed (c : Config) : Nat → List (Option (Chunk c.ibs)) → List Byte
  | _, [] => []
  | n, read :: reads =>
    if c.Enough n ∨ IsEnd read then []
    else if read.isNone = true ∧ c.sync = false then handed c n reads
    else expected c read ++ handed c (n + 1) reads

/-- The bytes of the input: those of the reads up to the end or up to `count` blocks. -/
def input (c : Config) : Nat → List (Option (Chunk c.ibs)) → List Byte
  | _, [] => []
  | n, none :: reads => if c.Enough n then [] else input c n reads
  | n, some chunk :: reads =>
    if c.Enough n ∨ chunk.bytes = [] then [] else chunk.bytes ++ input c (n + 1) reads

theorem handed_eq_input (hsync : c.sync = false) (hswab : c.swab = false) (n : Nat)
    (reads : List (Option (Chunk c.ibs))) : handed c n reads = input c n reads := by
  induction reads generalizing n with
  | nil => rfl
  | cons read reads ih =>
    cases read with
    | none =>
      rw [handed, input, ih]
      simp [IsEnd, hsync]
    | some chunk =>
      rw [handed, input]
      simp [IsEnd, expected, padded, hsync, hswab, ih]

def Fits (c : Config) : List (Option (Chunk c.ibs)) → Dd → Prop
  | [], _ => True
  | read :: reads, s => ¬ c.Enough s.blocks → ¬ IsEnd read →
    ((read = none → c.noerror = true ∧ c.sync = true) → BlockFit c read s.inp) ∧
      ∀ s', turn c read s = .ok s' → Fits c reads s'

theorem fits_of_not (hsync : c.sync = false) (hswab : c.swab = false)
    (reads : List (Option (Chunk c.ibs))) (s : Dd) : Fits c reads s := by
  induction reads generalizing s with
  | nil => trivial
  | cons read reads ih =>
    exact fun _ _ => ⟨fun _ => ⟨fun _ _ h => absurd (hsync.symm.trans h) (by simp),
      fun h => absurd (hswab.symm.trans h) (by simp)⟩, fun s' _ => ih s'⟩

def Stops (c : Config) (reads : List (Option (Chunk c.ibs))) : Stop → Prop
  | .writeError => c.WritesFail
  | .readError => c.noerror = false ∧ none ∈ reads
  | _ => False

section
variable {E : Stop → Prop} {inv : Dd → List Byte → Prop}

/-- A conversion that takes a block from the buffer keeps `inv`, where the second argument is all
that has been handed on. -/
def Takes (c : Config) (E : Stop → Prop) (inv : Dd → List Byte → Prop) : Prop :=
  ∀ s done i b, inv s done → b.length ≤ c.ibs → i.dbp = s.inp.dbp + b.length →
    i.dbcnt = s.inp.dbcnt + b.length → i.dbrcnt = b.length →
    (∀ j < s.inp.dbp, i.mem j = s.inp.mem j) → slice i.mem s.inp.dbp b.length = b →
    Ensures E (convert c { s with inp := i, blocks := s.blocks + 1 }) fun s' =>
      inv s' (done ++ b) ∧ s'.blocks = s.blocks + 1

theorem length_exchanged (l : List Byte) : (exchanged l).length = l.length := by
  induction l using exchanged.induct with
  | case1 a b l ih => simp only [exchanged, List.length_cons, ih]
  | case2 l hl => rw [exchanged.eq_2 l hl]

theorem length_expected {read : Option (Chunk c.ibs)} :
    (expected c read).length = (padded c read).length := by
  rw [expected]
  split_ifs
  · exact length_exchanged _
  · rfl

theorem ddIn_spec (inv : Dd → List Byte → Prop) (hbs : c.bs = false) (htakes : Takes c E inv)
    (hsize : ∀ s done, inv s done → s.inp.dbp + c.ibs ≤ c.inSize)
    (hend : ∀ s done, inv s done → inv { s with inp := { prefill c s.inp with dbrcnt := 0 } } done)
    {reads : List (Option (Chunk c.ibs))} (hE : c.noerror = false → none ∈ reads → E .readError)
    {s : Dd} {done : List Byte} (hinv : inv s done) (hfits : Fits c reads s) :
    Ensures E (ddIn c reads s) fun s' => inv s' (done ++ handed c s.blocks reads) := by
  induction reads generalizing s done with
  | nil =>
    rw [ddIn, handed, List.append_nil]
    split_ifs
    · exact hinv
    · rw [atEnd, within_ok (hsize s done hinv)]
      exact hend s done hinv
  | cons read reads ih =>
    have hE' : c.noerror = false → none ∈ reads → E .readError := fun h hmem =>
      hE h (List.mem_cons_of_mem _ hmem)
    rw [ddIn, handed]
    by_cases henough : c.Enough s.blocks
    · rw [if_pos henough, if_pos (.inl henough), List.append_nil]
      exact hinv
    rw [if_neg henough]
    by_cases hIsEnd : IsEnd read
    · rw [if_pos hIsEnd, if_pos (.inr hIsEnd), List.append_nil, atEnd,
        within_ok (hsize s done hinv)]
      exact hend s done hinv
    rw [if_neg hIsEnd, if_neg (not_or.mpr ⟨henough, hIsEnd⟩)]
    obtain ⟨hfit, hnext⟩ := hfits henough hIsEnd
    by_cases herror : read.isNone = true ∧ ¬ c.noerror = true
    · rw [turn, if_pos herror]
      have hnone : read = none := by simpa using herror.1
      exact hE (by simpa using herror.2) (hnone ▸ List.mem_cons_self)
    by_cases hskip : read.isNone = true ∧ c.sync = false
    · have hskip' : read.isNone = true ∧ ¬ c.sync = true := ⟨hskip.1, by simp [hskip.2]⟩
      have hturn : turn c read s = .ok s := by
        rw [turn, if_neg herror, if_pos hskip', within_ok (hsize s done hinv)]
        rfl
      rw [hturn, ok_bind, if_pos hskip]
      exact ih hE' hinv (hnext s hturn)
    · have hskip' : ¬ (read.isNone = true ∧ ¬ c.sync = true) := by simpa using hskip
      have hread : read = none → c.noerror = true ∧ c.sync = true := by
        rintro rfl
        simpa using And.intro (by simpa using herror) (by simpa using hskip)
      rw [if_neg hskip]
      obtain ⟨i, hprepare, hright⟩ := (prepare_right_iff hread (hsize s done hinv)).mpr (hfit hread)
      obtain ⟨hrcnt, hcnt, hdbp, hbefore⟩ := dbrcnt_prepare hprepare
      have hturn : turn c read s =
          convert c
            { s with inp := { i with dbp := i.dbp + i.dbrcnt }, blocks := s.blocks + 1 } := by
        rw [turn, if_neg herror, if_neg hskip', hprepare, ok_bind, hbs, if_neg Bool.false_ne_true]
      rw [← length_expected] at hrcnt hcnt
      have hle : (expected c read).length ≤ c.ibs := length_expected ▸ length_padded_le
      have hblock := hright.bytes
      rw [hrcnt] at hblock
      have htaken := htakes s done { i with dbp := i.dbp + i.dbrcnt } (expected c read) hinv hle
        (by dsimp only; rw [hdbp, hrcnt]) hcnt hrcnt hbefore hblock
      rw [← hturn] at htaken
      refine htaken.with_eq.bind ?_
      rintro s' ⟨hs', hinv', hblocks⟩
      rw [← List.append_assoc, ← hblocks]
      exact ih hE' hinv' (hnext s' hs')

end

end Bsdi.Dd
