import Bsdi.Db.Recno.Load

/-!
# Records of fixed length

A file is cut into records of `reclen` bytes, the last one padded. `__rec_fmap` loads these.
`__rec_fpipe` does not look for the end of the file before it starts a record.
-/

namespace Bsdi.Db

variable {reclen p n m : ℕ} {b : UInt8} {x w : List UInt8} {t : Loader}

def fixedRecords (reclen : ℕ) (bval : UInt8) (file : List UInt8) : List Dbt :=
  (List.range ((file.length + reclen - 1) / reclen)).map fun i =>
    ((file.drop (i * reclen)).take reclen).rightpad reclen bval

theorem fixedRecords_nil (h : 0 < reclen) : fixedRecords reclen b [] = [] := by
  have hnone : ([] : List UInt8).length + reclen - 1 < reclen := by
    rw [List.length_nil]
    omega
  rw [fixedRecords, Nat.div_eq_of_lt hnone]
  rfl

theorem fixedRecords_of_ne_nil (h : 0 < reclen) (hne : x ≠ []) :
    fixedRecords reclen b x = (x.take reclen).rightpad reclen b ::
      fixedRecords reclen b (x.drop reclen) := by
  have hpos := List.length_pos_iff.2 hne
  have hcount : (x.length + reclen - 1) / reclen =
      ((x.drop reclen).length + reclen - 1) / reclen + 1 := by
    rw [List.length_drop]
    by_cases hle : reclen ≤ x.length
    · have hdiv := Nat.add_div_right (x.length - 1) h
      rw [Nat.sub_add_cancel hle, ← hdiv, Nat.sub_add_comm hpos]
    · have hzero : x.length - reclen = 0 := by omega
      rw [hzero, Nat.div_eq_of_lt (by omega : 0 + reclen - 1 < reclen)]
      exact Nat.div_eq_of_lt_le (by omega) (by omega)
  rw [fixedRecords, fixedRecords, hcount, List.range_succ_eq_map, List.map_cons, List.map_map]
  congr 1
  · simp
  · refine List.map_congr_left fun i _ => ?_
    rw [Function.comp_apply, List.drop_drop, Nat.succ_mul, Nat.add_comm reclen]

theorem take_memset (hp : p ≤ w.length) :
    (memset w p b n).take (p + n) = w.take p ++ List.replicate n b := by
  have hlength : (w.take p ++ List.replicate n b).length = p + n := by
    simp [Nat.min_eq_left hp]
  rw [memset, List.take_append_of_le_length hlength.ge, List.take_of_length_le hlength.le]

theorem length_memset (h : p + n ≤ w.length) : (memset w p b n).length = w.length := by
  simp only [memset, List.length_append, List.length_take, List.length_replicate, List.length_drop]
  omega

theorem rightpad_cons {c : UInt8} (l : List UInt8) :
    (c :: l).rightpad (n + 1) b = c :: l.rightpad n b := by
  simp [List.rightpad]

theorem fpipeFill_spec (hlen : 0 < n) (hp : p + n ≤ w.length) :
    (fpipeFill b x w p n).1.length = w.length ∧
      (fpipeFill b x w p n).1.take (p + n) =
        w.take p ++ (x.take n).rightpad n b ∧
      (fpipeFill b x w p n).2 = (x.drop n, decide (x.length < n)) := by
  induction x generalizing w p n with
  | nil =>
    refine ⟨length_memset hp, ?_, by simp [fpipeFill, hlen]⟩
    rw [fpipeFill, take_memset (by omega)]
    simp [List.rightpad]
  | cons ch x ih =>
    obtain ⟨n, rfl⟩ := Nat.exists_eq_succ_of_ne_zero (Nat.ne_of_gt hlen)
    have htake := take_set (c := ch) (by omega : p < w.length)
    rw [fpipeFill, Nat.succ_sub_one]
    split_ifs with hzero
    · subst hzero
      exact ⟨List.length_set, htake, by simp⟩
    · obtain ⟨hlength, hrec, hrest⟩ :=
        ih (w := w.set p ch) (p := p + 1) (n := n) (Nat.pos_of_ne_zero hzero)
          (by rw [List.length_set]; omega)
      refine ⟨hlength.trans List.length_set, ?_, hrest.trans (by simp)⟩
      rw [Nat.add_succ, ← Nat.succ_add, hrec, htake, List.take_succ_cons, rightpad_cons,
        List.append_assoc, List.singleton_append]

theorem fmapFill_spec (hp : p + n ≤ w.length) :
    (fmapFill b x w p n).1.length = w.length ∧
      (fmapFill b x w p n).1.take (p + n) =
        w.take p ++ (x.take n).rightpad n b ∧
      (fmapFill b x w p n).2 = x.drop n := by
  induction x generalizing w p n with
  | nil =>
    refine ⟨length_memset hp, ?_, by simp [fmapFill]⟩
    rw [fmapFill, take_memset (by omega)]
    · simp [List.rightpad]
    · exact fun _ _ _ h => nomatch h
  | cons c x ih =>
    rcases n with _ | n
    · refine ⟨length_memset hp, ?_, by simp [fmapFill]⟩
      rw [fmapFill, take_memset (by omega)]
      · simp [List.rightpad]
      · exact fun _ _ _ _ h => nomatch h
    · have htake := take_set (c := c) (by omega : p < w.length)
      obtain ⟨hlength, hrec, hrest⟩ :=
        ih (w := w.set p c) (p := p + 1) (n := n) (by rw [List.length_set]; omega)
      rw [fmapFill]
      refine ⟨hlength.trans List.length_set, ?_, hrest⟩
      rw [← Nat.add_assoc, Nat.add_right_comm, hrec, htake, List.take_succ_cons, rightpad_cons,
        List.append_assoc, List.singleton_append]

theorem fmapLoop_spec {s : List UInt8} (h : 0 < reclen) (hbuf : reclen ≤ t.rdata.length) :
    (fmapLoop reclen b m s t).2.recs = t.recs ++ (fixedRecords reclen b s).take m ∧
      (fmapLoop reclen b m s t).1 =
        (if (fixedRecords reclen b s).length < m then .special else .success) ∧
      (fmapLoop reclen b m s t).2.eof =
        (t.eof || decide ((fixedRecords reclen b s).length < m)) := by
  induction m generalizing s t with
  | zero => simp [fmapLoop]
  | succ m ih =>
    rw [fmapLoop]
    by_cases hsp : s = []
    · subst hsp
      simp [fixedRecords_nil h]
    · obtain ⟨hlength, hrec, hrest⟩ :=
        fmapFill_spec (b := b) (x := s) (p := 0) ((Nat.zero_add reclen).trans_le hbuf)
      rw [Nat.zero_add, List.take_zero, List.nil_append] at hrec
      rw [if_neg hsp]
      generalize fmapFill b s t.rdata 0 reclen = r at *
      obtain ⟨w, s'⟩ := r
      dsimp only at hlength hrec hrest ⊢
      subst hrest
      rw [hrec, recIput_length, fixedRecords_of_ne_nil h hsp, List.take_succ_cons,
        List.length_cons]
      obtain ⟨hrecs, hret, heof⟩ := ih (s := s.drop reclen) (t := { t with
        rdata := w
        recs := t.recs ++ [(s.take reclen).rightpad reclen b] }) (hbuf.trans hlength.ge)
      refine ⟨?_, ?_, ?_⟩
      · rw [hrecs, List.append_assoc, List.singleton_append]
      · simp only [hret, Nat.add_lt_add_iff_right]
      · simp only [heof, Nat.add_lt_add_iff_right]

theorem fpipeLoop_succ (h : 0 < reclen) (hbuf : reclen ≤ t.rdata.length) :
    ∃ w : List UInt8, reclen ≤ w.length ∧ ∀ t', t' = { t with
        input := t.input.drop reclen
        rdata := w
        recs := t.recs ++ [(t.input.take reclen).rightpad reclen b] } →
      fpipeLoop reclen b (m + 1) t =
        if t.input.length < reclen then (m, t') else fpipeLoop reclen b m t' := by
  obtain ⟨hlength, hrec, hrest⟩ :=
    fpipeFill_spec (b := b) (x := t.input) (p := 0) (w := t.rdata) h (by omega)
  refine ⟨_, hbuf.trans hlength.ge, ?_⟩
  rintro _ rfl
  rw [Nat.zero_add, List.take_zero, List.nil_append] at hrec
  rw [fpipeLoop]
  generalize fpipeFill b t.input t.rdata 0 reclen = r at *
  obtain ⟨w, rest, eof⟩ := r
  dsimp only at hrec hrest ⊢
  obtain ⟨rfl, rfl⟩ := Prod.mk.inj hrest
  simp only [hrec, recIput_length, decide_eq_true_eq]

theorem fpipeLoop_spec (h : 0 < reclen) (hbuf : reclen ≤ t.rdata.length)
    (hdata : ¬(reclen ∣ t.input.length ∧ t.input.length / reclen < m)) :
    (fpipeLoop reclen b m t).2.recs =
        t.recs ++ (fixedRecords reclen b t.input).take m ∧
      (fpipeLoop reclen b m t).1 = m - (fixedRecords reclen b t.input).length ∧
      (fpipeLoop reclen b m t).2.eof = t.eof := by
  induction m generalizing t with
  | zero => simp [fpipeLoop]
  | succ m ih =>
    have hne : t.input ≠ [] := fun hnil => hdata (by simp [hnil])
    obtain ⟨w, hbuf', hstep⟩ := fpipeLoop_succ (m := m) (b := b) h hbuf
    rw [hstep _ rfl, fixedRecords_of_ne_nil h hne, List.take_succ_cons, List.length_cons,
      Nat.add_sub_add_right]
    by_cases heof : t.input.length < reclen
    · rw [if_pos heof, List.drop_eq_nil_of_le (Nat.le_of_lt heof), fixedRecords_nil h]
      simp
    · rw [if_neg heof]
      have hdiv : t.input.length / reclen = (t.input.drop reclen).length / reclen + 1 := by
        rw [List.length_drop, ← Nat.add_div_right _ h, Nat.sub_add_cancel (Nat.le_of_not_lt heof)]
      have hdvd : reclen ∣ (t.input.drop reclen).length → reclen ∣ t.input.length := by
        rw [List.length_drop]
        exact fun hd => (Nat.dvd_sub_iff_left (Nat.le_of_not_lt heof) (Nat.dvd_refl _)).1 hd
      obtain ⟨hrecs, hleft, hsame⟩ := ih (t := { t with
        input := t.input.drop reclen
        rdata := w
        recs := t.recs ++ [(t.input.take reclen).rightpad reclen b] }) hbuf' fun hd =>
          hdata ⟨hdvd hd.1, by rw [hdiv]; exact Nat.succ_lt_succ hd.2⟩
      exact ⟨by rw [hrecs, List.append_assoc, List.singleton_append], hleft, hsame⟩

theorem fpipeLoop_extra (h : 0 < reclen) (hbuf : reclen ≤ t.rdata.length)
    (hdvd : reclen ∣ t.input.length) (hlt : t.input.length / reclen < m) :
    (fpipeLoop reclen b m t).2.recs.length =
      t.recs.length + (fixedRecords reclen b t.input).length + 1 := by
  induction m generalizing t with
  | zero => exact absurd hlt (Nat.not_lt_zero _)
  | succ m ih =>
    obtain ⟨w, hbuf', hstep⟩ := fpipeLoop_succ (m := m) (b := b) h hbuf
    rw [hstep _ rfl]
    by_cases heof : t.input.length < reclen
    · have hnil : t.input = [] := List.length_eq_zero_iff.1 (Nat.eq_zero_of_dvd_of_lt hdvd heof)
      rw [if_pos heof, hnil, fixedRecords_nil h]
      simp
    · have hle := Nat.le_of_not_lt heof
      have hne : t.input ≠ [] := fun hnil => by
        rw [hnil] at hle
        exact absurd hle (Nat.not_le.2 h)
      rw [if_neg heof, ih hbuf', fixedRecords_of_ne_nil h hne]
      · simp only [List.length_append, List.length_cons, List.length_nil]
        omega
      · rw [List.length_drop]
        exact Nat.dvd_sub hdvd (Nat.dvd_refl _)
      · have hdiv : t.input.length / reclen = (t.input.drop reclen).length / reclen + 1 := by
          rw [List.length_drop, ← Nat.add_div_right _ h, Nat.sub_add_cancel hle]
        dsimp only
        omega

theorem le_length_growRdata (w : List UInt8) : reclen ≤ (growRdata reclen w).length := by
  rw [growRdata]
  split_ifs with hsmall
  · rw [List.length_append, List.length_replicate]
    omega
  · exact Nat.le_of_not_lt hsmall

/-- A loader that is asked for `top` records reads them from those that its file still has, and
reports the end of the file when there are not enough. -/
structure Loads (t : Loader) (file : List Dbt) (top : ℕ) (r : Ret × Loader) : Prop where
  recs : r.2.recs = t.recs ++ file.take (top - t.recs.length)
  ret : r.1 = if t.recs.length + file.length < top then .special else .success
  eof : r.2.eof = (t.eof || decide (t.recs.length + file.length < top))

variable {top : ℕ}

theorem loads_fmap (h : 0 < reclen) :
    Loads t (fixedRecords reclen b t.input) top (recFmap reclen b top t) := by
  obtain ⟨hrecs, hret, heof⟩ := fmapLoop_spec (b := b) (m := top - t.recs.length)
    (s := t.input) (t := { t with rdata := growRdata reclen t.rdata }) h (le_length_growRdata _)
  simp only [Nat.lt_sub_iff_add_lt'] at hret heof
  exact ⟨hrecs, hret, heof⟩

theorem loads_fpipe_iff (h : 0 < reclen) :
    Loads t (fixedRecords reclen b t.input) top (recFpipe reclen b top t) ↔
      ¬(reclen ∣ t.input.length ∧ t.recs.length + t.input.length / reclen < top) := by
  rw [← Nat.lt_sub_iff_add_lt']
  constructor
  · rintro hloads ⟨hdvd, hlt⟩
    -- one record more than there are
    have hextra := fpipeLoop_extra (b := b)
      (t := { t with rdata := growRdata reclen t.rdata }) h (le_length_growRdata _) hdvd hlt
    have hrecs := congrArg List.length hloads.recs
    have hsame : (recFpipe reclen b top t).2.recs =
        (fpipeLoop reclen b (top - t.recs.length)
          { t with rdata := growRdata reclen t.rdata }).2.recs := by
      rw [recFpipe, pipeEnd]
      split_ifs <;> rfl
    rw [hsame, hextra, List.length_append, List.length_take] at hrecs
    dsimp only at hrecs
    omega
  · intro hdata
    obtain ⟨hrecs, hleft, heof⟩ := fpipeLoop_spec (b := b)
      (t := { t with rdata := growRdata reclen t.rdata }) h (le_length_growRdata _) hdata
    rw [recFpipe, pipeEnd, hleft]
    have hiff : 0 < top - t.recs.length - (fixedRecords reclen b t.input).length ↔
        t.recs.length + (fixedRecords reclen b t.input).length < top := by omega
    by_cases hmore : t.recs.length + (fixedRecords reclen b t.input).length < top
    · rw [if_pos (hiff.2 hmore)]
      exact ⟨hrecs, (if_pos hmore).symm, by simp [hmore]⟩
    · rw [if_neg fun hpos => hmore (hiff.1 hpos)]
      exact ⟨hrecs, (if_neg hmore).symm, by simp [heof, hmore]⟩

/-- Both load the records of the file, except when the data ends with a record and `__rec_fpipe`
is asked for more. -/
theorem fixed_iff (h : 0 < reclen) :
    (Loads t (fixedRecords reclen b t.input) top (recFpipe reclen b top t) ∧
      Loads t (fixedRecords reclen b t.input) top (recFmap reclen b top t)) ↔
      ¬(reclen ∣ t.input.length ∧ t.recs.length + t.input.length / reclen < top) :=
  (and_iff_left (loads_fmap h)).trans (loads_fpipe_iff h)

theorem fixed_iff_five :
    (Loads ⟨[1, 2, 3, 4, 5], [], [], false⟩ (fixedRecords 2 0 [1, 2, 3, 4, 5]) 4
        (recFpipe 2 0 4 ⟨[1, 2, 3, 4, 5], [], [], false⟩) ∧
      Loads ⟨[1, 2, 3, 4, 5], [], [], false⟩ (fixedRecords 2 0 [1, 2, 3, 4, 5]) 4
        (recFmap 2 0 4 ⟨[1, 2, 3, 4, 5], [], [], false⟩)) ↔
      ¬(2 ∣ 5 ∧ 0 + 5 / 2 < 4) :=
  fixed_iff (t := ⟨[1, 2, 3, 4, 5], [], [], false⟩) (by decide)

/-- A file of two records of two bytes, asked for all: there is a third one, all padding. -/
theorem fixed_extra :
    ¬(Loads ⟨[1, 2, 3, 4], [], [], false⟩ (fixedRecords 2 0 [1, 2, 3, 4]) 4294967295
        (recFpipe 2 0 4294967295 ⟨[1, 2, 3, 4], [], [], false⟩) ∧
      Loads ⟨[1, 2, 3, 4], [], [], false⟩ (fixedRecords 2 0 [1, 2, 3, 4]) 4294967295
        (recFmap 2 0 4294967295 ⟨[1, 2, 3, 4], [], [], false⟩)) := by
  rw [and_iff_left (loads_fmap (by decide)), loads_fpipe_iff (by decide)]
  decide

end Bsdi.Db
