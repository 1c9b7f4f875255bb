import Bsdi.Db.Recno.Load
import Mathlib.Data.List.TakeWhile

/-!
# Records of variable length

A file is cut behind each delimiter. `__rec_vmap` takes the records from where they are.
`__rec_vpipe` collects a record in a buffer that grows, and keeps the offset of the next byte in 16
bits while it does.
-/

namespace Bsdi.Db

variable {b : UInt8} {x w : List UInt8} {p z m top : ℕ} {t : Loader}

/-- The records of a file, each without its delimiter. The last one may have none. -/
def variableRecords (bval : UInt8) : List UInt8 → List Dbt
  | [] => []
  | c :: file =>
    if c = bval then [] :: variableRecords bval file
    else
      match variableRecords bval file with
      | [] => [[c]]
      | r :: rs => (c :: r) :: rs

theorem takeWhile_cons_ne {c : UInt8} (h : c ≠ b) :
    (c :: x).takeWhile (· != b) = c :: x.takeWhile (· != b) :=
  List.takeWhile_cons_of_pos (bne_iff_ne.2 h)

theorem dropWhile_cons_ne {c : UInt8} (h : c ≠ b) :
    (c :: x).dropWhile (· != b) = x.dropWhile (· != b) :=
  List.dropWhile_cons_of_pos (bne_iff_ne.2 h)

theorem variableRecords_of_ne_nil (h : x ≠ []) :
    variableRecords b x = x.takeWhile (· != b) ::
      variableRecords b (x.dropWhile (· != b)).tail := by
  induction x with
  | nil => exact absurd rfl h
  | cons c x ih =>
    rw [variableRecords]
    by_cases hc : c = b
    · simp [hc]
    · rw [if_neg hc, takeWhile_cons_ne hc, dropWhile_cons_ne hc]
      by_cases hnil : x = []
      · subst hnil
        rfl
      · rw [ih hnil]

theorem vmapLoop_recs {s : List UInt8} : (vmapLoop b m s t).2.recs =
    t.recs ++ (variableRecords b s).take m := by
  induction m generalizing s t with
  | zero => simp [vmapLoop]
  | succ m ih =>
    rw [vmapLoop]
    by_cases hsp : s = []
    · subst hsp
      simp [variableRecords]
    · rw [if_neg hsp, ih, variableRecords_of_ne_nil hsp, List.take_succ_cons, recIput_length,
        List.append_assoc, List.singleton_append]

/-- How far a buffer grows while the offset of its end fits in an `indx_t`: it grows by 256 bytes
to the first length that does not. -/
def rdataLimit (size : ℕ) : ℕ :=
  if 65536 ≤ size then size else size + (65536 - size + 255) / 256 * 256

theorem rdataLimit_of_le (h : 65536 ≤ p) : rdataLimit p = p := if_pos h

theorem rdataLimit_grow (h : p < 65536) : rdataLimit (p + 256) = rdataLimit p := by
  rw [rdataLimit, rdataLimit, if_neg (by omega : ¬65536 ≤ p)]
  split_ifs <;> omega

theorem vpipeRecord_offset :
    (vpipeRecord b x w p z).2.2.1 = (x.dropWhile (· != b)).tail ∧
      ((vpipeRecord b x w p z).2.2.2 = true ↔ b ∉ x) ∧
      (vpipeRecord b x w p z).2.1 ≤ p + (x.takeWhile (· != b)).length := by
  induction x generalizing w p z with
  | nil => simp [vpipeRecord]
  | cons ch x ih =>
    rw [vpipeRecord]
    by_cases hch : ch = b
    · simp [hch]
    · have hmem : b ∉ ch :: x ↔ b ∉ x := by simp [Ne.symm hch]
      rw [if_neg hch, takeWhile_cons_ne hch, dropWhile_cons_ne hch, hmem, List.length_cons]
      split_ifs with hsz
      · have hmod := Nat.mod_le p 65536
        obtain ⟨hrest, heof, hle⟩ := ih
          (w := (w ++ List.replicate 256 0).set (p % 65536) ch) (p := p % 65536 + 1) (z := 255)
        exact ⟨hrest, heof, by dsimp only; omega⟩
      · obtain ⟨hrest, heof, hle⟩ := ih (w := w.set p ch) (p := p + 1) (z := z - 1)
        exact ⟨hrest, heof, by omega⟩

theorem vpipeRecord_fits (hp : p + z = w.length)
    (hle : p + (x.takeWhile (· != b)).length ≤ rdataLimit w.length) :
    (vpipeRecord b x w p z).2.1 = p + (x.takeWhile (· != b)).length ∧
      (vpipeRecord b x w p z).1.take (vpipeRecord b x w p z).2.1 =
        w.take p ++ x.takeWhile (· != b) ∧
      rdataLimit (vpipeRecord b x w p z).1.length = rdataLimit w.length := by
  induction x generalizing w p z with
  | nil => simp [vpipeRecord]
  | cons ch x ih =>
    rw [vpipeRecord]
    by_cases hch : ch = b
    · simp [hch]
    · rw [takeWhile_cons_ne hch, List.length_cons] at hle
      rw [if_neg hch, takeWhile_cons_ne hch, List.length_cons]
      split_ifs with hsz
      · -- the buffer is full, and not yet too long for the offset
        have hsmall : w.length < 65536 := by
          by_contra hlarge
          rw [rdataLimit_of_le (Nat.le_of_not_lt hlarge)] at hle
          omega
        have hgrow : (w ++ List.replicate 256 (0 : UInt8)).length = w.length + 256 := by
          rw [List.length_append, List.length_replicate]
        have htake := take_set (c := ch) (p := p) (by omega :
          p < (w ++ List.replicate 256 (0 : UInt8)).length)
        rw [List.take_append_of_le_length (by omega)] at htake
        dsimp only
        rw [Nat.mod_eq_of_lt (by omega)]
        obtain ⟨hoff, hrec, hlimit⟩ := ih
          (w := (w ++ List.replicate 256 0).set p ch) (p := p + 1) (z := 255)
          (by rw [List.length_set, hgrow]; omega)
          (by rw [List.length_set, hgrow, rdataLimit_grow hsmall]; omega)
        rw [List.length_set, hgrow, rdataLimit_grow hsmall] at hlimit
        exact ⟨by omega, by rw [hrec, htake, List.append_assoc, List.singleton_append], hlimit⟩
      · have htake := take_set (c := ch) (by omega : p < w.length)
        obtain ⟨hoff, hrec, hlimit⟩ := ih (w := w.set p ch) (p := p + 1) (z := z - 1)
          (by rw [List.length_set]; omega) (by rw [List.length_set]; omega)
        rw [List.length_set] at hlimit
        exact ⟨by omega, by rw [hrec, htake, List.append_assoc, List.singleton_append], hlimit⟩

theorem vpipeRecord_wraps (hp : p + z = w.length)
    (hlt : rdataLimit w.length < p + (x.takeWhile (· != b)).length) :
    (vpipeRecord b x w p z).2.1 < p + (x.takeWhile (· != b)).length := by
  have hlimit : w.length ≤ rdataLimit w.length := by
    rw [rdataLimit]
    split_ifs <;> omega
  induction x generalizing w p z with
  | nil =>
    rw [List.takeWhile_nil, List.length_nil] at hlt
    omega
  | cons ch x ih =>
    rw [vpipeRecord]
    by_cases hch : ch = b
    · have hzero : ((ch :: x).takeWhile (· != b)).length = 0 := by simp [hch]
      omega
    · rw [takeWhile_cons_ne hch, List.length_cons] at hlt
      rw [if_neg hch, takeWhile_cons_ne hch, List.length_cons]
      have hgrow : (w ++ List.replicate 256 (0 : UInt8)).length = w.length + 256 := by
        rw [List.length_append, List.length_replicate]
      split_ifs with hsz
      · dsimp only
        by_cases hsmall : w.length < 65536
        · have hsame := rdataLimit_grow hsmall
          rw [Nat.mod_eq_of_lt (by omega)]
          have hrest := ih (w := (w ++ List.replicate 256 0).set p ch) (p := p + 1) (z := 255)
          rw [List.length_set, hgrow, hsame] at hrest
          have := hrest (by omega) (by omega) (by
            rw [← hsame, rdataLimit]
            split_ifs <;> omega)
          omega
        · -- the offset is too large
          obtain ⟨-, -, hoff⟩ := vpipeRecord_offset (b := b) (x := x)
            (w := (w ++ List.replicate 256 0).set (p % 65536) ch) (p := p % 65536 + 1)
            (z := 255)
          omega
      · have hrest := ih (w := w.set p ch) (p := p + 1) (z := z - 1)
        rw [List.length_set] at hrest
        have := hrest (by omega) (by omega) hlimit
        omega

theorem vpipeLoop_prefix : t.recs <+: (vpipeLoop b m t).2.recs := by
  induction m generalizing t with
  | zero => exact List.prefix_refl _
  | succ m ih =>
    rw [vpipeLoop]
    dsimp only
    split_ifs
    · exact List.prefix_refl _
    · rw [recIput_length]
      exact List.prefix_append _ _
    · refine List.IsPrefix.trans ?_ ih
      rw [recIput_length]
      exact List.prefix_append _ _

theorem vpipeLoop_recs_iff : (vpipeLoop b m t).2.recs =
      t.recs ++ (variableRecords b t.input).take m ↔
    ∀ r ∈ (variableRecords b t.input).take m, r.length ≤ rdataLimit t.rdata.length := by
  induction m generalizing t with
  | zero => simp [vpipeLoop]
  | succ m ih =>
    by_cases hnil : t.input = []
    · simp [vpipeLoop, vpipeRecord, hnil, variableRecords]
    have hsum : 0 + t.rdata.length = t.rdata.length := Nat.zero_add _
    obtain ⟨hrest, heof, hoff⟩ := vpipeRecord_offset (b := b) (x := t.input)
      (w := t.rdata) (p := 0) (z := t.rdata.length)
    rw [vpipeLoop, variableRecords_of_ne_nil hnil, List.take_succ_cons, List.forall_mem_cons]
    by_cases hfits : (t.input.takeWhile (· != b)).length ≤ rdataLimit t.rdata.length
    · obtain ⟨hp, hrec, hlimit⟩ := vpipeRecord_fits (b := b) (x := t.input) hsum
        (by rwa [Nat.zero_add])
      rw [and_iff_right hfits]
      rw [List.take_zero, List.nil_append] at hrec
      rw [Nat.zero_add] at hp
      generalize vpipeRecord b t.input t.rdata 0 t.rdata.length = r at *
      obtain ⟨w, p, rest, eof⟩ := r
      dsimp only at hrest heof hoff hp hrec hlimit ⊢
      rw [hrec, ← hrest]
      by_cases hend : eof = true
      · -- the last record of the file, and it has no delimiter
        have hne : ∀ c ∈ t.input, (c != b) = true := fun c hc =>
          bne_iff_ne.2 fun heq => heof.1 hend (heq ▸ hc)
        have hall := List.takeWhile_eq_self_iff.2 hne
        have hdone : rest = [] := by
          rw [hrest, List.dropWhile_eq_nil_iff.2 hne]
          rfl
        have hpos : p ≠ 0 := by
          rw [hp, hall]
          exact fun hzero => hnil (List.length_eq_zero_iff.1 hzero)
        rw [if_pos hend, if_neg hpos, hdone, recIput_length]
        simp [variableRecords]
      · rw [if_neg hend]
        have hiff := ih (t := { t with
          input := rest
          rdata := w
          recs := recIput t.recs t.recs.length (t.input.takeWhile (· != b)) })
        dsimp only at hiff
        rw [hlimit, recIput_length, List.append_assoc, List.singleton_append] at hiff
        rw [recIput_length]
        exact hiff
    · -- the record in the tree is shorter than the one in the file
      have hwraps := vpipeRecord_wraps (b := b) (x := t.input) hsum
        (by rwa [Nat.zero_add, ← Nat.not_le])
      rw [Nat.zero_add] at hwraps
      refine iff_of_false (fun heq => ?_) fun h => hfits h.1
      generalize vpipeRecord b t.input t.rdata 0 t.rdata.length = r at *
      obtain ⟨w, p, rest, eof⟩ := r
      dsimp only at hwraps heq
      have hshort : ∀ rs : List Dbt, ¬(t.recs ++ [w.take p] <+: t.recs ++
          t.input.takeWhile (· != b) :: rs) := fun rs hprefix => by
        rw [List.prefix_append_right_inj, List.cons_prefix_cons] at hprefix
        have hlength := congrArg List.length hprefix.1
        rw [List.length_take] at hlength
        omega
      split_ifs at heq with hend hzero
      · exact absurd heq (by simp)
      · rw [recIput_length] at heq
        exact hshort _ ⟨[], (List.append_nil _).trans heq⟩
      · rw [recIput_length] at heq
        refine hshort ((variableRecords b (t.input.dropWhile (· != b)).tail).take m) ?_
        rw [← heq]
        exact vpipeLoop_prefix (t := ⟨rest, w, t.recs ++ [w.take p], t.eof⟩)

theorem pipeEnd_recs (r : ℕ × Loader) : (pipeEnd r).2.recs = r.2.recs := by
  rw [pipeEnd]
  split_ifs <;> rfl

/-- Both load the records of the file if none of those that are read is longer than the limit of
the buffer: 65536 bytes if it is empty at first. -/
theorem variable_iff (b : UInt8) (t : Loader) (top : ℕ) :
    ((recVpipe b top t).2.recs =
          t.recs ++ (variableRecords b t.input).take (top - t.recs.length) ∧
        (recVmap b top t).2.recs =
          t.recs ++ (variableRecords b t.input).take (top - t.recs.length)) ↔
      ∀ r ∈ (variableRecords b t.input).take (top - t.recs.length),
        r.length ≤ rdataLimit t.rdata.length := by
  rw [recVpipe, recVmap, pipeEnd_recs, and_iff_left vmapLoop_recs, vpipeLoop_recs_iff]

theorem recVpipe_long (hx : b ∉ x) (hlong : rdataLimit 0 < x.length) (htop : 0 < top) :
    (recVpipe b top ⟨x, [], [], false⟩).2.recs ≠ (variableRecords b x).take top := by
  have hne : x ≠ [] := fun hnil => by
    rw [hnil] at hlong
    exact absurd hlong (Nat.not_lt_zero _)
  have hall : x.takeWhile (· != b) = x :=
    List.takeWhile_eq_self_iff.2 fun c hc => bne_iff_ne.2 fun heq => hx (heq ▸ hc)
  obtain ⟨m, rfl⟩ := Nat.exists_eq_succ_of_ne_zero (Nat.ne_of_gt htop)
  rw [recVpipe, pipeEnd_recs]
  intro hrecs
  have hle := vpipeLoop_recs_iff.1 (hrecs.trans (List.nil_append _).symm) x (by
    rw [variableRecords_of_ne_nil hne, hall, List.length_nil, Nat.sub_zero, List.take_succ_cons]
    exact List.mem_cons_self)
  exact absurd hlong (Nat.not_lt.2 hle)

/-- A record of 65537 bytes, one more than the limit. -/
theorem variable_long :
    ¬((recVpipe 10 4294967295 ⟨List.replicate 65537 97, [], [], false⟩).2.recs =
          (variableRecords 10 (List.replicate 65537 97)).take 4294967295 ∧
        (recVmap 10 4294967295 ⟨List.replicate 65537 97, [], [], false⟩).2.recs =
          (variableRecords 10 (List.replicate 65537 97)).take 4294967295) := by
  refine fun h => recVpipe_long (fun hmem => ?_) ?_ (by decide) h.1
  · exact absurd (List.mem_replicate.1 hmem).2 (by decide)
  · rw [List.length_replicate]
    decide

end Bsdi.Db
