import Bsdi.Db.Hash.Table
import Mathlib.Data.Nat.Log

/-!
# Linear hashing

The masks and the number of buckets over runs of `__expand_table`. A new bucket takes keys from one
old bucket only. The directory is right until it is reallocated: `DSIZE` becomes a number of bytes.
-/

namespace Bsdi.Db.Hash

variable {t : Htab} {mem : Memory} {k : ℕ}

theorem log2Loop_eq {num fuel i : ℕ} (hnum : num ≤ 2 ^ 31) (hi : i ≤ Nat.clog 2 num)
    (hfuel : Nat.clog 2 num ≤ i + fuel) : log2Loop num fuel (2 ^ i) i = Nat.clog 2 num := by
  induction fuel generalizing i with
  | zero =>
    rw [log2Loop]
    omega
  | succ fuel ih =>
    rw [log2Loop]
    split_ifs with hlt
    · have hclog : i < Nat.clog 2 num := (Nat.lt_clog_iff_pow_lt (by decide)).2 hlt
      have hpow : 2 ^ i * 2 < 2 ^ 32 := by omega
      rw [Nat.mod_eq_of_lt hpow, ← Nat.pow_succ]
      exact ih hclog (by omega)
    · have hclog : Nat.clog 2 num ≤ i :=
        (Nat.clog_le_iff_le_pow (by decide)).2 (Nat.le_of_not_lt hlt)
      omega

theorem log2_eq {num : ℕ} (hnum : num ≤ 2 ^ 31) : log2 num = Nat.clog 2 num := by
  have hclog : Nat.clog 2 num ≤ 31 := (Nat.clog_le_iff_le_pow (by decide)).2 hnum
  exact log2Loop_eq hnum (Nat.zero_le _) (by omega)

/-- `LOW_MASK` and `HIGH_MASK` cover the buckets, a hash value is mapped to a bucket, and there is
memory for the directory. -/
structure Good (t : Htab) : Prop where
  masks : ∃ k, t.lowMask.toInt = 2 ^ k - 1 ∧ t.highMask.toInt = 2 ^ (k + 1) - 1
  low_le : t.lowMask.toInt ≤ t.maxBucket.toInt
  le_high : t.maxBucket.toInt ≤ t.highMask.toInt
  call : ∀ n, (callHash t n).toNat ≤ t.maxBucket.toNat
  dir : t.dsize ≤ t.dir

/-- An expansion moves keys from the bucket that is split to the new one only, and stores into the
directory within `DSIZE`. -/
structure Expands (t : Htab) (r : Bool × Option ℤ × Htab) : Prop where
  moves : ∀ n, callHash r.2.2 n ≠ callHash t n →
    callHash t n = r.2.2.maxBucket &&& t.lowMask ∧ callHash r.2.2 n = r.2.2.maxBucket
  stores : ∀ i, r.2.1 = some i → i < r.2.2.dsize

def Holds : List Memory → Htab → Prop
  | [], t => Good t
  | mem :: ms, t => Good t ∧ Expands t (expandTable mem t) ∧ Holds ms (expandTable mem t).2.2

def NeedsSegment (t : Htab) : Prop := t.nsegs ≤ newSegnum t (t.maxBucket + 1)

def NeedsDirectory (t : Htab) : Prop := t.dsize ≤ newSegnum t (t.maxBucket + 1)

/-- The step does not reallocate the directory, and does not fail when it starts a doubling. -/
structure Safe (mem : Memory) (t : Htab) : Prop where
  dir : NeedsSegment t → NeedsDirectory t → mem.dir = false
  doubling : t.highMask < t.maxBucket + 1 → NeedsSegment t → ¬NeedsDirectory t ∧ mem.seg = true

def SafeRun : List Memory → Htab → Prop
  | [], _ => True
  | mem :: ms, t => Safe mem t ∧ SafeRun ms (expandTable mem t).2.2

/-- The state of the masks after `k` doublings. -/
structure Masked (k : ℕ) (t : Htab) : Prop where
  bound : k ≤ 30
  low : t.lowMask.toNat = 2 ^ k - 1
  high : t.highMask.toNat = 2 ^ (k + 1) - 1
  low_le : 2 ^ k ≤ t.maxBucket.toNat + 1
  le_high : t.maxBucket.toNat < 2 ^ (k + 1)

theorem Masked.pow_le (h : Masked k t) : 2 ^ (k + 1) ≤ 2 ^ 31 :=
  Nat.pow_le_pow_right (by decide) (by have := h.bound; omega)

theorem Masked.toNat_callHash (h : Masked k t) (n : BitVec 32) : (callHash t n).toNat =
    if t.maxBucket.toNat < n.toNat % 2 ^ (k + 1) then n.toNat % 2 ^ k
    else n.toNat % 2 ^ (k + 1) := by
  have hhigh : (n &&& t.highMask).toNat = n.toNat % 2 ^ (k + 1) := by
    rw [BitVec.toNat_and, h.high, Nat.and_two_pow_sub_one_eq_mod]
  have hlow : (n &&& t.highMask &&& t.lowMask).toNat = n.toNat % 2 ^ k := by
    rw [BitVec.toNat_and, hhigh, h.low, Nat.and_two_pow_sub_one_eq_mod,
      Nat.mod_mod_of_dvd _ (Nat.pow_dvd_pow 2 (Nat.le_succ k))]
  have hpow := h.pow_le
  have hmax := h.le_high
  have hslt : t.maxBucket.slt (n &&& t.highMask) = true ↔
      t.maxBucket.toNat < n.toNat % 2 ^ (k + 1) := by
    rw [BitVec.slt_iff_toInt_lt, BitVec.toInt_eq_toNat_of_lt (by omega),
      BitVec.toInt_eq_toNat_of_lt (by omega), hhigh, Int.ofNat_lt]
  rw [callHash]
  by_cases hlt : t.maxBucket.toNat < n.toNat % 2 ^ (k + 1)
  · rw [if_pos (hslt.2 hlt), if_pos hlt, hlow]
  · rw [if_neg fun hs => hlt (hslt.1 hs), if_neg hlt, hhigh]

theorem Masked.toInt_eq (h : Masked k t) : t.lowMask.toInt = 2 ^ k - 1 ∧
    t.highMask.toInt = 2 ^ (k + 1) - 1 ∧ t.maxBucket.toInt = t.maxBucket.toNat := by
  have hpow := h.pow_le
  have hmax := h.le_high
  have hk : 2 ^ k ≤ 2 ^ (k + 1) := Nat.pow_le_pow_right (by decide) (Nat.le_succ k)
  have hlow := h.low
  have hhigh := h.high
  have hpos : 1 ≤ 2 ^ k := Nat.one_le_two_pow
  refine ⟨?_, ?_, BitVec.toInt_eq_toNat_of_lt (by omega)⟩
  · rw [BitVec.toInt_eq_toNat_of_lt (by omega), hlow]
    push_cast [hpos]
    rfl
  · rw [BitVec.toInt_eq_toNat_of_lt (by omega), hhigh]
    push_cast [hpos.trans hk]
    rfl

theorem Masked.good (h : Masked k t) (hdir : t.dsize ≤ t.dir) : Good t := by
  obtain ⟨hlow, hhigh, hmax⟩ := h.toInt_eq
  have hle := h.low_le
  have hlt := h.le_high
  refine ⟨⟨k, hlow, hhigh⟩, ?_, ?_, fun n => ?_, hdir⟩
  · rw [hlow, hmax]
    have : (2 ^ k : ℤ) ≤ t.maxBucket.toNat + 1 := by exact_mod_cast hle
    omega
  · rw [hhigh, hmax]
    have : (t.maxBucket.toNat : ℤ) < 2 ^ (k + 1) := by exact_mod_cast hlt
    omega
  · rw [h.toNat_callHash]
    have hmod : n.toNat % 2 ^ k < 2 ^ k := Nat.mod_lt _ (Nat.two_pow_pos k)
    split_ifs <;> omega

theorem Masked.toNat_next (h : Masked k t) :
    (t.maxBucket + 1).toNat = t.maxBucket.toNat + 1 := by
  have hpow := h.pow_le
  have hmax := h.le_high
  rw [BitVec.toNat_add]
  exact Nat.mod_eq_of_lt (by
    rw [(by decide : (1 : BitVec 32).toNat = 1)]
    omega)

theorem Masked.doubles_iff (h : Masked k t) :
    t.highMask < t.maxBucket + 1 ↔ t.maxBucket.toNat + 1 = 2 ^ (k + 1) := by
  rw [BitVec.lt_def, h.toNat_next, h.high]
  have hmax := h.le_high
  have hpos : 1 ≤ 2 ^ (k + 1) := Nat.one_le_two_pow
  omega

section Step

variable {t' : Htab}

theorem Masked.next (h : Masked k t) (hlt : ¬t.highMask < t.maxBucket + 1)
    (hmax : t'.maxBucket = t.maxBucket + 1) (hlow : t'.lowMask = t.lowMask)
    (hhigh : t'.highMask = t.highMask) : Masked k t' := by
  have hnext := h.toNat_next
  rw [h.doubles_iff] at hlt
  have hle := h.low_le
  have hle' := h.le_high
  exact ⟨h.bound, hlow ▸ h.low, hhigh ▸ h.high, by rw [hmax, hnext]; omega,
    by rw [hmax, hnext]; omega⟩

theorem Masked.double (h : Masked k t) (hk : k + 1 ≤ 30) (hlt : t.highMask < t.maxBucket + 1)
    (hmax : t'.maxBucket = t.maxBucket + 1) (hlow : t'.lowMask = t.highMask)
    (hhigh : t'.highMask = t.maxBucket + 1 ||| t.highMask) : Masked (k + 1) t' := by
  have hnext := h.toNat_next
  rw [h.doubles_iff] at hlt
  refine ⟨hk, hlow ▸ h.high, ?_, by rw [hmax, hnext]; omega, ?_⟩
  · have hor := Nat.two_pow_add_eq_or_of_lt (i := k + 1) (b := 2 ^ (k + 1) - 1) (by omega) 1
    rw [Nat.mul_one] at hor
    rw [hhigh, BitVec.toNat_or, hnext, hlt, h.high, ← hor, Nat.pow_succ _ (k + 1)]
    omega
  · rw [hmax, hnext, hlt, Nat.pow_succ _ (k + 1)]
    omega

theorem Masked.moves_next (h : Masked k t) (h' : Masked k t')
    (hmax : t'.maxBucket = t.maxBucket + 1) (n : BitVec 32)
    (hne : callHash t' n ≠ callHash t n) :
    callHash t n = t'.maxBucket &&& t.lowMask ∧ callHash t' n = t'.maxBucket := by
  have hnat : t'.maxBucket.toNat = t.maxBucket.toNat + 1 := by rw [hmax, h.toNat_next]
  have hcall := h.toNat_callHash n
  have hcall' := h'.toNat_callHash n
  have hmod : n.toNat % 2 ^ (k + 1) = t.maxBucket.toNat + 1 := by
    by_contra hother
    refine hne (BitVec.eq_of_toNat_eq ?_)
    rw [hcall, hcall', hnat]
    split_ifs <;> omega
  rw [hmod, if_pos (Nat.lt_succ_self _)] at hcall
  rw [hmod, hnat, if_neg (Nat.lt_irrefl _)] at hcall'
  refine ⟨BitVec.eq_of_toNat_eq ?_, BitVec.eq_of_toNat_eq (hcall'.trans hnat.symm)⟩
  rw [hcall, BitVec.toNat_and, h.low, Nat.and_two_pow_sub_one_eq_mod, hnat, ← hmod,
    Nat.mod_mod_of_dvd _ (Nat.pow_dvd_pow 2 (Nat.le_succ k))]

theorem Masked.moves_double (h : Masked k t) (h' : Masked (k + 1) t')
    (hlt : t.highMask < t.maxBucket + 1) (hmax : t'.maxBucket = t.maxBucket + 1) (n : BitVec 32)
    (hne : callHash t' n ≠ callHash t n) :
    callHash t n = t'.maxBucket &&& t.lowMask ∧ callHash t' n = t'.maxBucket := by
  rw [h.doubles_iff] at hlt
  have hnat : t'.maxBucket.toNat = 2 ^ (k + 1) := by rw [hmax, h.toNat_next, hlt]
  have hcall := h.toNat_callHash n
  have hcall' := h'.toNat_callHash n
  have hsplit : n.toNat % 2 ^ (k + 1) = n.toNat % 2 ^ (k + 1 + 1) % 2 ^ (k + 1) :=
    (Nat.mod_mod_of_dvd _ (Nat.pow_dvd_pow 2 (Nat.le_succ (k + 1)))).symm
  rw [if_neg (by omega)] at hcall
  have hmod : n.toNat % 2 ^ (k + 1 + 1) = 2 ^ (k + 1) := by
    by_contra hother
    refine hne (BitVec.eq_of_toNat_eq ?_)
    rw [hcall, hcall', hnat]
    split_ifs with hgt
    · rfl
    · rw [hsplit]
      exact (Nat.mod_eq_of_lt (by omega)).symm
  rw [hmod, hnat, if_neg (Nat.lt_irrefl _)] at hcall'
  rw [hsplit, hmod, Nat.mod_self] at hcall
  refine ⟨BitVec.eq_of_toNat_eq ?_, BitVec.eq_of_toNat_eq (hcall'.trans hnat.symm)⟩
  rw [hcall, BitVec.toNat_and, h.low, Nat.and_two_pow_sub_one_eq_mod, hnat]
  exact (Nat.mod_eq_zero_of_dvd (Nat.pow_dvd_pow 2 (Nat.le_succ k))).symm

end Step

/-- The directory before it is reallocated. -/
structure Directory (t : Htab) : Prop where
  sshift : t.sshift = 8
  le_dsize : 256 ≤ t.dsize
  dsize_le : t.dsize ≤ 2 ^ 22
  dir : t.dir = t.dsize
  nsegs : t.nsegs ≤ t.dsize

@[simp] theorem splitPoint_maxBucket (t : Htab) : (splitPoint t).maxBucket = t.maxBucket := by
  rw [splitPoint]
  split_ifs <;> rfl

theorem doubling_splitPoint {t' : Htab} {b : BitVec 32}
    (h : t' = doubling (splitPoint t) b) :
    t'.maxBucket = t.maxBucket ∧
      t'.lowMask = (if t.highMask < b then t.highMask else t.lowMask) ∧
      t'.highMask = (if t.highMask < b then b ||| t.highMask else t.highMask) ∧
      t'.dsize = t.dsize ∧ t'.dir = t.dir ∧ t'.nsegs = t.nsegs ∧ t'.sshift = t.sshift := by
  have hsplit : (splitPoint t).lowMask = t.lowMask ∧ (splitPoint t).highMask = t.highMask ∧
      (splitPoint t).dsize = t.dsize ∧ (splitPoint t).dir = t.dir ∧
      (splitPoint t).nsegs = t.nsegs ∧ (splitPoint t).sshift = t.sshift := by
    rw [splitPoint]
    split_ifs <;> exact ⟨rfl, rfl, rfl, rfl, rfl, rfl⟩
  obtain ⟨hlow, hhigh, hdsize, hdir, hnsegs, hshift⟩ := hsplit
  subst h
  rw [doubling, hhigh]
  by_cases hlt : t.highMask < b
  · simp only [if_pos hlt]
    exact ⟨splitPoint_maxBucket t, trivial, trivial, hdsize, hdir, hnsegs, hshift⟩
  · simp only [if_neg hlt]
    exact ⟨splitPoint_maxBucket t, hlow, hhigh, hdsize, hdir, hnsegs, hshift⟩

theorem Directory.bound (h : Directory t) (hm : Masked k t)
    (hroom : newSegnum t (t.maxBucket + 1) < t.dsize) (hlt : t.highMask < t.maxBucket + 1) :
    k + 1 ≤ 30 := by
  by_contra hlarge
  have hnum := hm.doubles_iff.1 hlt
  have hsize := h.dsize_le
  have hpow : 2 ^ 31 ≤ 2 ^ (k + 1) := Nat.pow_le_pow_right (by decide) (by omega)
  have hdiv : 2 ^ 31 / 2 ^ 8 ≤ 2 ^ (k + 1) / 2 ^ 8 := Nat.div_le_div_right hpow
  rw [newSegnum, h.sshift, BitVec.toNat_ushiftRight, hm.toNat_next, hnum,
    Nat.shiftRight_eq_div_pow] at hroom
  omega

theorem Masked.expanded (t₁ : Htab) {t' : Htab} (h : Masked k t) (hd : Directory t)
    (hroom : newSegnum t (t.maxBucket + 1) < t.dsize)
    (hmax : t₁.maxBucket = t.maxBucket + 1) (hlow : t₁.lowMask = t.lowMask)
    (hhigh : t₁.highMask = t.highMask) (ht' : t' = doubling (splitPoint t₁) (t.maxBucket + 1)) :
    ∃ k', Masked k' t' ∧ ∀ n, callHash t' n ≠ callHash t n →
      callHash t n = t'.maxBucket &&& t.lowMask ∧ callHash t' n = t'.maxBucket := by
  obtain ⟨hmax', hlow', hhigh', -⟩ := doubling_splitPoint ht'
  rw [hmax] at hmax'
  rw [hhigh, hlow] at hlow'
  rw [hhigh] at hhigh'
  by_cases hlt : t.highMask < t.maxBucket + 1
  · rw [if_pos hlt] at hlow' hhigh'
    have hmasked := h.double (hd.bound h hroom hlt) hlt hmax' hlow' hhigh'
    exact ⟨k + 1, hmasked, h.moves_double hmasked hlt hmax'⟩
  · rw [if_neg hlt] at hlow' hhigh'
    have hmasked := h.next hlt hmax' hlow' hhigh'
    exact ⟨k, hmasked, h.moves_next hmasked hmax'⟩

theorem expandTable_cases (mem : Memory) (t : Htab) :
    (¬NeedsSegment t ∧ expandTable mem t = (true, none,
      doubling (splitPoint { t with maxBucket := t.maxBucket + 1 }) (t.maxBucket + 1))) ∨
    (NeedsSegment t ∧ ¬NeedsDirectory t ∧ mem.seg = true ∧ expandTable mem t =
      (true, some (newSegnum t (t.maxBucket + 1)),
        doubling (splitPoint { t with
          maxBucket := t.maxBucket + 1
          exsegs := t.exsegs + 1
          nsegs := t.nsegs + 1 }) (t.maxBucket + 1))) ∨
    (NeedsSegment t ∧ ¬NeedsDirectory t ∧ mem.seg = false ∧ expandTable mem t =
      (false, some (newSegnum t (t.maxBucket + 1)), { t with maxBucket := t.maxBucket + 1 })) ∨
    (NeedsSegment t ∧ NeedsDirectory t ∧ mem.dir = false ∧ expandTable mem t =
      (false, none, { t with maxBucket := t.maxBucket + 1 })) ∨
    (NeedsSegment t ∧ NeedsDirectory t ∧ mem.dir = true ∧
      (expandTable mem t).2.2.dsize = (reallocDir t).dsize ∧
      (expandTable mem t).2.2.dir = (reallocDir t).dir) := by
  have hunfold : expandTable mem t =
      let r := newSegment mem { t with maxBucket := t.maxBucket + 1 }
        (newSegnum t (t.maxBucket + 1))
      if r.1 then (true, r.2.1, doubling (splitPoint r.2.2) (t.maxBucket + 1))
      else (false, r.2.1, r.2.2) := rfl
  rw [hunfold, newSegment]
  by_cases hseg : NeedsSegment t
  · have hseg' := hseg
    rw [NeedsSegment] at hseg'
    simp only [if_pos hseg']
    by_cases hdir : NeedsDirectory t
    · have hdir' := hdir
      rw [NeedsDirectory] at hdir'
      simp only [hdir', true_and]
      cases hmem : mem.dir
      · simp [hseg, hdir]
      · refine Or.inr (Or.inr (Or.inr (Or.inr ⟨hseg, hdir, rfl, ?_⟩)))
        simp only [Bool.true_eq_false, if_false, if_true]
        cases mem.seg
        · exact ⟨rfl, rfl⟩
        · obtain ⟨-, -, -, hdsize, hentries, -⟩ := doubling_splitPoint (b := t.maxBucket + 1)
            (t := { reallocDir { t with maxBucket := t.maxBucket + 1 } with
              exsegs := t.exsegs + 1
              nsegs := t.nsegs + 1 }) rfl
          exact ⟨hdsize, hentries⟩
    · have hdir' := hdir
      rw [NeedsDirectory] at hdir'
      simp only [hdir', false_and, if_false]
      cases hmem : mem.seg <;> simp [hseg, hdir]
  · have hseg' := hseg
    rw [NeedsSegment] at hseg'
    simp only [if_neg hseg']
    simp [hseg]

theorem toInt_eq_self {x : ℤ} (h : -2 ^ 31 ≤ x) (h' : x < 2 ^ 31) : toInt x = x := by
  rw [toInt, Int.bmod_eq_emod]
  split_ifs <;> omega

theorem Directory.realloc (h : Directory t) : (reallocDir t).dir < (reallocDir t).dsize := by
  have hle := h.le_dsize
  have hsize := h.dsize_le
  have hbytes : toInt (t.dsize * 4) = t.dsize * 4 := toInt_eq_self (by omega) (by omega)
  have hdouble : toInt (t.dsize * 4 * 2) = t.dsize * 4 * 2 := toInt_eq_self (by omega) (by omega)
  simp only [reallocDir, sizeofSegmentPtr, hbytes, hdouble]
  omega

theorem Masked.not_good (h : Masked k t) (hlt : t.highMask < t.maxBucket + 1) :
    ¬Good { t with maxBucket := t.maxBucket + 1 } := by
  intro hgood
  have hlow := hgood.low_le
  have hhigh := hgood.le_high
  obtain ⟨hlow', hhigh', -⟩ := h.toInt_eq
  have hnum := h.doubles_iff.1 hlt
  have hpow := h.pow_le
  have hcast : ((2 ^ (k + 1) : ℕ) : ℤ) = 2 ^ (k + 1) := by push_cast; rfl
  dsimp only at hlow hhigh
  rw [hlow', BitVec.toInt_eq_toNat_cond, h.toNat_next, hnum] at hlow
  rw [hhigh', BitVec.toInt_eq_toNat_cond, h.toNat_next, hnum] at hhigh
  split_ifs at hlow hhigh <;> omega

theorem Masked.failed (h : Masked k t) (hd : Directory t) (hlt : ¬t.highMask < t.maxBucket + 1)
    {i : Option ℤ} (hi : ∀ j, i = some j → j < t.dsize) :
    Masked k { t with maxBucket := t.maxBucket + 1 } ∧
      Directory { t with maxBucket := t.maxBucket + 1 } ∧
      Good { t with maxBucket := t.maxBucket + 1 } ∧
      Expands t (false, i, { t with maxBucket := t.maxBucket + 1 }) := by
  have hmasked : Masked k { t with maxBucket := t.maxBucket + 1 } := h.next hlt rfl rfl rfl
  exact ⟨hmasked, ⟨hd.sshift, hd.le_dsize, hd.dsize_le, hd.dir, hd.nsegs⟩,
    hmasked.good hd.dir.ge, ⟨h.moves_next hmasked rfl, hi⟩⟩

theorem step_iff (mem : Memory) (h : Masked k t) (hd : Directory t) :
    (Good (expandTable mem t).2.2 ∧ Expands t (expandTable mem t) ↔ Safe mem t) ∧
      (Safe mem t → ∃ k', Masked k' (expandTable mem t).2.2 ∧
        Directory (expandTable mem t).2.2) := by
  rcases expandTable_cases mem t with ⟨hseg, heq⟩ | ⟨hseg, hdir, hmem, heq⟩ |
    ⟨hseg, hdir, hmem, heq⟩ | ⟨hseg, hdir, hmem, heq⟩ | ⟨hseg, hdir, hmem, hdsize, hentries⟩
  · -- there is a segment
    have hroom : newSegnum t (t.maxBucket + 1) < t.dsize :=
      (Int.not_le.1 hseg).trans_le hd.nsegs
    have hsafe : Safe mem t := ⟨fun hs => absurd hs hseg, fun _ hs => absurd hs hseg⟩
    rw [heq]
    obtain ⟨k', hmasked, hmoves⟩ :=
      h.expanded { t with maxBucket := t.maxBucket + 1 } hd hroom rfl rfl rfl rfl
    obtain ⟨-, -, -, hdsize, hentries, hnsegs, hshift⟩ := doubling_splitPoint
      (t := { t with maxBucket := t.maxBucket + 1 }) (b := t.maxBucket + 1) rfl
    generalize doubling (splitPoint _) _ = t' at *
    have hd' : Directory t' := ⟨hshift.trans hd.sshift, hdsize ▸ hd.le_dsize,
      hdsize ▸ hd.dsize_le, hentries.trans (hd.dir.trans hdsize.symm), by
        rw [hnsegs, hdsize]
        exact hd.nsegs⟩
    exact ⟨iff_of_true ⟨hmasked.good hd'.dir.ge, hmoves, fun _ hi => nomatch hi⟩ hsafe,
      fun _ => ⟨k', hmasked, hd'⟩⟩
  · -- there is a new one
    have hroom : newSegnum t (t.maxBucket + 1) < t.dsize := Int.not_le.1 hdir
    have hsafe : Safe mem t := ⟨fun _ hdir' => absurd hdir' hdir, fun _ _ => ⟨hdir, hmem⟩⟩
    rw [heq]
    obtain ⟨k', hmasked, hmoves⟩ := h.expanded { t with
      maxBucket := t.maxBucket + 1
      exsegs := t.exsegs + 1
      nsegs := t.nsegs + 1 } hd hroom rfl rfl rfl rfl
    obtain ⟨-, -, -, hdsize, hentries, hnsegs, hshift⟩ := doubling_splitPoint
      (t := { t with
        maxBucket := t.maxBucket + 1
        exsegs := t.exsegs + 1
        nsegs := t.nsegs + 1 }) (b := t.maxBucket + 1) rfl
    generalize doubling (splitPoint _) _ = t' at *
    have hd' : Directory t' := ⟨hshift.trans hd.sshift, hdsize ▸ hd.le_dsize,
      hdsize ▸ hd.dsize_le, hentries.trans (hd.dir.trans hdsize.symm), by
        rw [hnsegs, hdsize]
        exact (Int.add_one_le_iff.2 (hseg.trans_lt hroom))⟩
    refine ⟨iff_of_true ⟨hmasked.good hd'.dir.ge, hmoves, fun i hi => ?_⟩ hsafe,
      fun _ => ⟨k', hmasked, hd'⟩⟩
    rw [← Option.some_inj.1 hi]
    exact hroom.trans_eq hdsize.symm
  · -- there is no memory for a segment
    rw [heq]
    by_cases hlt : t.highMask < t.maxBucket + 1
    · have hunsafe : ¬Safe mem t := fun hs => by
        rw [(hs.doubling hlt hseg).2] at hmem
        exact absurd hmem (by decide)
      exact ⟨iff_of_false (fun hg => h.not_good hlt hg.1) hunsafe, fun hs => absurd hs hunsafe⟩
    · obtain ⟨hmasked, hd', hgood, hexpands⟩ := h.failed hd hlt
        (i := some (newSegnum t (t.maxBucket + 1))) fun j hj => by
          rw [← Option.some_inj.1 hj]
          exact Int.not_le.1 hdir
      exact ⟨iff_of_true ⟨hgood, hexpands⟩
        ⟨fun _ hdir' => absurd hdir' hdir, fun hlt' => absurd hlt' hlt⟩,
        fun _ => ⟨k, hmasked, hd'⟩⟩
  · -- there is no memory for a directory
    rw [heq]
    by_cases hlt : t.highMask < t.maxBucket + 1
    · have hunsafe : ¬Safe mem t := fun hs => (hs.doubling hlt hseg).1 hdir
      exact ⟨iff_of_false (fun hg => h.not_good hlt hg.1) hunsafe, fun hs => absurd hs hunsafe⟩
    · obtain ⟨hmasked, hd', hgood, hexpands⟩ := h.failed hd hlt (i := none) fun _ hj => nomatch hj
      exact ⟨iff_of_true ⟨hgood, hexpands⟩ ⟨fun _ _ => hmem, fun hlt' => absurd hlt' hlt⟩,
        fun _ => ⟨k, hmasked, hd'⟩⟩
  · -- the directory is reallocated
    have hunsafe : ¬Safe mem t := fun hs => by
      rw [hs.dir hseg hdir] at hmem
      exact absurd hmem (by decide)
    refine ⟨iff_of_false (fun hg => ?_) hunsafe, fun hs => absurd hs hunsafe⟩
    have hsize := hg.1.dir
    rw [hdsize, hentries] at hsize
    exact absurd hd.realloc (Int.not_lt.2 hsize)

theorem holds_iff (ms : List Memory) (h : Masked k t) (hd : Directory t) :
    Holds ms t ↔ SafeRun ms t := by
  induction ms generalizing k t with
  | nil => exact iff_of_true (h.good hd.dir.ge) trivial
  | cons mem ms ih =>
    obtain ⟨hstep, hnext⟩ := step_iff mem h hd
    constructor
    · rintro ⟨-, hexpands, hrest⟩
      have hgood : Good (expandTable mem t).2.2 := by
        cases ms
        · exact hrest
        · exact hrest.1
      have hsafe := hstep.1 ⟨hgood, hexpands⟩
      obtain ⟨k', hmasked, hd'⟩ := hnext hsafe
      exact ⟨hsafe, (ih hmasked hd').1 hrest⟩
    · rintro ⟨hsafe, hrest⟩
      obtain ⟨k', hmasked, hd'⟩ := hnext hsafe
      exact ⟨h.good hd.dir.ge, (hstep.2 hsafe).2, (ih hmasked hd').2 hrest⟩

variable {nelem ffactor : ℤ}

theorem log2_elements (nelem ffactor : ℤ) :
    1 ≤ log2 (max (elements nelem ffactor) 2).toNat ∧
      log2 (max (elements nelem ffactor) 2).toNat ≤ 31 ∧
      (log2 (max (elements nelem ffactor) 2).toNat ≤ 30 ↔ elements nelem ffactor ≤ 2 ^ 30) := by
  have hlt : elements nelem ffactor < 2 ^ 31 := by
    rw [elements, toInt, Int.bmod_eq_emod]
    split_ifs <;> omega
  have hnum : (max (elements nelem ffactor) 2).toNat ≤ 2 ^ 31 := by omega
  rw [log2_eq hnum, Nat.clog_le_iff_le_pow (by decide), Nat.clog_le_iff_le_pow (by decide)]
  refine ⟨Nat.clog_pos (by decide) (by omega), hnum, ?_⟩
  omega

theorem toNat_ofNat_two_pow {l : ℕ} (h : l ≤ 31) : (BitVec.ofNat 32 (2 ^ l)).toNat = 2 ^ l := by
  have hpow : 2 ^ l ≤ 2 ^ 31 := Nat.pow_le_pow_right (by decide) h
  rw [BitVec.toNat_ofNat]
  exact Nat.mod_eq_of_lt (by omega)

theorem toNat_buckets {l : ℕ} (h : l ≤ 31) : (BitVec.ofNat 32 (2 ^ l) - 1).toNat = 2 ^ l - 1 := by
  have hpow : 2 ^ l ≤ 2 ^ 31 := Nat.pow_le_pow_right (by decide) h
  have hpos : 1 ≤ 2 ^ l := Nat.one_le_two_pow
  rw [BitVec.toNat_sub, toNat_ofNat_two_pow h, (by decide : (1 : BitVec 32).toNat = 1)]
  omega

theorem masked_initHtab (h : elements nelem ffactor ≤ 2 ^ 30) :
    Masked (log2 (max (elements nelem ffactor) 2).toNat) (initHtab nelem ffactor) := by
  obtain ⟨hpos, hle, hiff⟩ := log2_elements nelem ffactor
  have hsmall := hiff.2 h
  have hone : 1 ≤ 2 ^ log2 (max (elements nelem ffactor) 2).toNat := Nat.one_le_two_pow
  have hmax : (initHtab nelem ffactor).maxBucket.toNat =
      2 ^ log2 (max (elements nelem ffactor) 2).toNat - 1 := toNat_buckets hle
  have hdouble : BitVec.ofNat 32 (2 ^ log2 (max (elements nelem ffactor) 2).toNat) <<< 1 =
      BitVec.ofNat 32 (2 ^ (log2 (max (elements nelem ffactor) 2).toNat + 1)) := by
    refine BitVec.eq_of_toNat_eq ?_
    rw [BitVec.toNat_shiftLeft, toNat_ofNat_two_pow hle, toNat_ofNat_two_pow (by omega),
      Nat.shiftLeft_eq, Nat.pow_one, ← Nat.pow_succ]
    exact Nat.mod_eq_of_lt (Nat.pow_lt_pow_right (by decide) (by omega))
  refine ⟨hsmall, hmax, ?_, by omega, ?_⟩
  · rw [initHtab, allocSegs]
    dsimp only
    rw [hdouble]
    exact toNat_buckets (by omega)
  · rw [hmax, Nat.pow_succ]
    omega

theorem directory_initHtab (h : elements nelem ffactor ≤ 2 ^ 30) :
    Directory (initHtab nelem ffactor) := by
  obtain ⟨hpos, hle, hiff⟩ := log2_elements nelem ffactor
  have hsmall := hiff.2 h
  rw [initHtab]
  generalize log2 (max (elements nelem ffactor) 2).toNat = l at *
  rw [toNat_buckets hle]
  have hpow : 2 ^ l ≤ 2 ^ 30 := Nat.pow_le_pow_right (by decide) hsmall
  have hsegs : (2 ^ l - 1) / defSegsize + 1 ≤ 2 ^ 22 := by
    rw [defSegsize]
    omega
  have hclog : Nat.clog 2 ((2 ^ l - 1) / defSegsize + 1) ≤ 22 :=
    (Nat.clog_le_iff_le_pow (by decide)).2 hsegs
  have hbound : 2 ^ log2 ((2 ^ l - 1) / defSegsize + 1) ≤ 2 ^ 22 := by
    rw [log2_eq (hsegs.trans (by decide))]
    exact Nat.pow_le_pow_right (by decide) hclog
  have hcast : ((2 ^ log2 ((2 ^ l - 1) / defSegsize + 1) : ℕ) : ℤ) =
      2 ^ log2 ((2 ^ l - 1) / defSegsize + 1) := by push_cast; rfl
  generalize (2 : ℤ) ^ log2 ((2 ^ l - 1) / defSegsize + 1) = n at *
  refine ⟨rfl, ?_, ?_, rfl, ?_⟩
  all_goals
    simp only [allocSegs, defDirsize]
    split_ifs <;> omega

theorem not_good_initHtab (h : ¬elements nelem ffactor ≤ 2 ^ 30) :
    ¬Good (initHtab nelem ffactor) := by
  obtain ⟨-, hle, hiff⟩ := log2_elements nelem ffactor
  have hlog : log2 (max (elements nelem ffactor) 2).toNat = 31 := by
    have := fun hs => h (hiff.1 hs)
    omega
  rintro ⟨⟨k, -, hhigh⟩, -⟩
  have hmask : (initHtab nelem ffactor).highMask.toInt = -1 := by
    rw [initHtab, allocSegs]
    dsimp only
    rw [hlog]
    decide
  have hpos : (1 : ℤ) ≤ 2 ^ (k + 1) := by exact_mod_cast Nat.one_le_two_pow
  omega

/-- A run from a new table is good if the table does not have too many buckets at first and every
step is safe. -/
theorem holds_initHtab_iff (nelem ffactor : ℤ) (ms : List Memory) :
    Holds ms (initHtab nelem ffactor) ↔
      elements nelem ffactor ≤ 2 ^ 30 ∧ SafeRun ms (initHtab nelem ffactor) := by
  by_cases h : elements nelem ffactor ≤ 2 ^ 30
  · rw [holds_iff ms (masked_initHtab h) (directory_initHtab h), and_iff_right h]
  · refine iff_of_false (fun hholds => not_good_initHtab h ?_) fun hs => h hs.1
    cases ms
    · exact hholds
    · exact hholds.1

/-- A table of 65536 buckets and one expansion: `DSIZE` is 2048, with memory for 512 entries. -/
theorem initHtab_realloc : ¬Holds [⟨true, true⟩] (initHtab 65536 1) := by
  rintro ⟨-, -, hgood⟩
  have hdir := hgood.dir
  rw [(by decide : (expandTable ⟨true, true⟩ (initHtab 65536 1)).2.2.dsize = 2048),
    (by decide : (expandTable ⟨true, true⟩ (initHtab 65536 1)).2.2.dir = 512)] at hdir
  exact absurd hdir (by decide)

end Bsdi.Db.Hash
