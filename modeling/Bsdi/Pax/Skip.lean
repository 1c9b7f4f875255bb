import Bsdi.Pax.Reader

/-!
# Skipping in an archive

`rd_skip` takes the bytes it skips from the buffer, by moving in the archive, and by filling the
buffer and passing over it.
-/

namespace Bsdi.Pax

open Lib

variable {s s' : Reader} {n cnt : Nat} {bs : List Byte}

def Reader.beyond (s : Reader) : List Byte :=
  s.vol.data.drop s.pos ++ (s.later.map Volume.data).flatten

def Reader.unread (s : Reader) : List Byte := s.pending ++ s.beyond

/-- What holds of the buffer and the device between calls. -/
structure Reader.Inv (s : Reader) : Prop where
  pos_le : s.pos ≤ s.vol.data.length
  blksz_pos : 0 < s.blksz
  rdblksz_pos : 0 < s.rdblksz
  ended : s.lstrval = 0 → s.pos = s.vol.data.length
  fini : s.fini = true → s.pos = s.vol.data.length ∧ s.later = []

/-- No read fails or has failed. -/
structure Reader.Fine (s : Reader) : Prop where
  reads : ∀ i, s.reads i ≠ none
  lstrval : s.lstrval < 0 → s.fini = true

/-- What `bufFill` returned, with the state before and after it. -/
def Filling (s s' : Reader) : Got → Prop
  | .bytes bs => bs ≠ [] ∧ s'.pending = bs ∧ s.beyond = bs ++ s'.beyond
  | .eof => s.beyond = [] ∧ s'.beyond = [] ∧ s'.pending = s.pending
  | .error => s'.beyond = s.beyond ∧ s'.pending = s.pending ∧ ¬ s.Fine

theorem pending_eq_nil (h : ¬ s.bufpt < s.bufend) : s.pending = [] := by
  rw [Reader.pending, Nat.sub_eq_zero_of_le (by omega), slice_zero]

theorem Reader.Inv.beyond_fini (h : s.Inv) (hfini : s.fini = true) : s.beyond = [] := by
  simp [Reader.beyond, h.fini hfini]

theorem read_spec (hcnt : 0 < cnt) :
    match s.read cnt with
    | .bytes bs => bs ≠ [] ∧ bs.length ≤ cnt ∧
        s.vol.data.drop s.pos = bs ++ s.vol.data.drop (s.pos + bs.length)
    | .eof => s.vol.data.drop s.pos = []
    | .error => s.reads s.nread = none := by
  unfold Reader.read
  cases hr : s.reads s.nread with
  | none => simp
  | some most =>
    dsimp only
    split_ifs with hrest
    · exact hrest
    · refine ⟨?_, ?_, ?_⟩
      · simp only [ne_eq, List.take_eq_nil_iff, not_or]
        exact ⟨by omega, hrest⟩
      · rw [List.length_take]
        omega
      · conv_lhs => rw [← List.take_append_drop (min (max most 1) cnt) (s.vol.data.drop s.pos)]
        rw [List.drop_drop, List.length_take, List.length_drop]
        congr 1
        rcases Nat.le_total (min (max most 1) cnt) (s.vol.data.length - s.pos) with h | h
        · rw [Nat.min_eq_left h]
        · rw [Nat.min_eq_right h, List.drop_eq_nil_of_le (by omega), List.drop_eq_nil_of_le
          (by omega)]

/-- What `ar_read` returned, with the state before and after it. -/
structure ArRead (s s' : Reader) (got : Got) : Prop where
  buffer : s'.mem = s.mem ∧ s'.bufpt = s.bufpt ∧ s'.bufend = s.bufend
  vol : s'.vol = s.vol
  later : s'.later = s.later
  blksz : s'.blksz = s.blksz
  fini : s'.fini = s.fini
  inv : s'.Inv
  bytes : ∀ bs, got = .bytes bs → bs ≠ [] ∧ s.beyond = bs ++ s'.beyond ∧ (s.Fine → s'.Fine)
  eof : got = .eof → s'.pos = s.vol.data.length ∧ s'.beyond = s.beyond ∧ s'.lstrval = 0 ∧
    (s.Fine → s'.Fine)
  error : got = .error → s'.beyond = s.beyond ∧ (¬ s.Fine ∨ s.fini = true)

theorem arRead_spec (h : s.Inv) (hcnt : 0 < cnt) : ArRead s (arRead s cnt).1 (arRead s cnt).2 := by
  unfold arRead
  split_ifs with hneg hzero
  · refine ⟨⟨rfl, rfl, rfl⟩, rfl, rfl, rfl, rfl, h, by simp, by simp, fun _ => ⟨rfl, ?_⟩⟩
    by_cases hfini : s.fini = true
    · exact Or.inr hfini
    · exact Or.inl fun hfine => hfini (hfine.lstrval hneg)
  · exact ⟨⟨rfl, rfl, rfl⟩, rfl, rfl, rfl, rfl, h, by simp, fun _ =>
    ⟨h.ended hzero, rfl, hzero, id⟩,
      by simp⟩
  · have hread := read_spec (s := s) hcnt
    cases hgot : s.read cnt with
    | bytes bs =>
      rw [hgot] at hread
      obtain ⟨hne, hlen, hrest⟩ := hread
      have hbs := List.length_pos_iff.mpr hne
      have hpos : s.pos + bs.length ≤ s.vol.data.length := by
        have hlength := congrArg List.length hrest
        simp only [List.length_append, List.length_drop] at hlength
        omega
      refine ⟨⟨rfl, rfl, rfl⟩, rfl, rfl, rfl, rfl, ⟨hpos, h.blksz_pos, ?_, fun h0 => absurd h0
        hzero, ?_⟩,
        ?_, by simp, by simp⟩
      · dsimp only
        split
        · exact hbs
        · exact h.rdblksz_pos
      · intro hfini
        have := h.fini hfini
        dsimp only at this ⊢
        omega
      · intro bs' hbs'
        cases hbs'
        exact ⟨hne, by simp [Reader.beyond, hrest], fun hf => ⟨hf.reads, hf.lstrval⟩⟩
    | eof =>
      rw [hgot] at hread
      have hpos : s.pos = s.vol.data.length := by
        have := List.drop_eq_nil_iff.mp hread
        have := h.pos_le
        omega
      exact ⟨⟨rfl, rfl, rfl⟩, rfl, rfl, rfl, rfl,
        ⟨h.pos_le, h.blksz_pos, h.rdblksz_pos, fun _ => hpos, h.fini⟩, by simp,
        fun _ => ⟨hpos, rfl, rfl, fun hf => ⟨hf.reads, by simp⟩⟩, by simp⟩
    | error =>
      rw [hgot] at hread
      exact ⟨⟨rfl, rfl, rfl⟩, rfl, rfl, rfl, rfl,
        ⟨h.pos_le, h.blksz_pos, h.rdblksz_pos, by simp, h.fini⟩, by simp, by simp,
        fun _ => ⟨rfl, Or.inl fun hf => hf.reads _ hread⟩⟩

theorem ArRead.pending {got : Got} (h : ArRead s s' got) : s'.pending = s.pending := by
  obtain ⟨hmem, hpt, hend⟩ := h.buffer
  rw [Reader.pending, Reader.pending, hmem, hpt, hend]

theorem fillOnce_spec (h : s.Inv) (hfini : s.fini = false) :
    (fillOnce s).1.Inv ∧ (fillOnce s).1.later = s.later ∧ (fillOnce s).1.fini = false ∧
      match (fillOnce s).2 with
      | .bytes bs => Filling s (fillOnce s).1 (.bytes bs) ∧ (s.Fine → (fillOnce s).1.Fine)
      | .eof => (fillOnce s).1.pos = s.vol.data.length ∧ (fillOnce s).1.vol = s.vol ∧
          (fillOnce s).1.beyond = s.beyond ∧ (fillOnce s).1.pending = s.pending ∧
          (s.Fine → (fillOnce s).1.Fine)
      | .error => Filling s (fillOnce s).1 .error := by
  have hread := arRead_spec h h.blksz_pos
  unfold fillOnce
  rcases hr : arRead s s.blksz with ⟨s', got⟩
  rw [hr] at hread
  have hinv := hread.inv
  cases got with
  | bytes bs =>
    obtain ⟨hne, hbeyond, hfine⟩ := hread.bytes bs rfl
    refine ⟨⟨hinv.pos_le, hinv.blksz_pos, hinv.rdblksz_pos, hinv.ended, hinv.fini⟩, hread.later,
      hread.fini.trans hfini, ⟨hne, ?_, hbeyond⟩, fun hf => ⟨(hfine hf).reads, (hfine hf).lstrval⟩⟩
    simp only [Reader.pending, Nat.sub_zero]
    exact slice_store
  | eof =>
    obtain ⟨hpos, hbeyond, -, hfine⟩ := hread.eof rfl
    exact ⟨hinv, hread.later, hread.fini.trans hfini, hpos, hread.vol, hbeyond, hread.pending,
      hfine⟩
  | error =>
    obtain ⟨hbeyond, hnot⟩ := hread.error rfl
    refine ⟨⟨hinv.pos_le, hinv.blksz_pos, hinv.rdblksz_pos, hinv.ended, hinv.fini⟩, hread.later,
      hread.fini.trans hfini, hbeyond, hread.pending, hnot.resolve_right (by simp [hfini])⟩

theorem Reader.inv_opened (hfini : s.fini = false) (v : Volume) (later : List Volume) :
    (s.opened v later).Inv := by
  refine ⟨Nat.zero_le _, v.blksz_pos, v.rdblksz_pos, by simp [Reader.opened], ?_⟩
  intro h'
  simp [Reader.opened, hfini] at h'

theorem bufFillLoop_spec (later : List Volume) (h : s.Inv) (hfini : s.fini = false)
    (hlater : s.later = later) :
    (bufFillLoop later s).1.Inv ∧ Filling s (bufFillLoop later s).1 (bufFillLoop later s).2 ∧
      (s.Fine → (bufFillLoop later s).1.Fine) := by
  induction later generalizing s with
  | nil =>
    obtain ⟨hinv, hl, hf, hout⟩ := fillOnce_spec h hfini
    unfold bufFillLoop
    rcases hr : fillOnce s with ⟨s', got⟩
    rw [hr] at hinv hl hf hout
    cases got with
    | bytes bs => exact ⟨hinv, hout⟩
    | error => exact ⟨hinv, hout, fun hfine => absurd hfine hout.2.2⟩
    | eof =>
      obtain ⟨hpos, hvol, hbeyond, hpending, hfine⟩ := hout
      have hpos' : s'.pos = s'.vol.data.length := by rw [hpos, hvol]
      have hl : s'.later = s.later := hl
      have hnil : s'.beyond = [] := by simp [Reader.beyond, hl, hlater, hpos']
      refine ⟨⟨hinv.pos_le, hinv.blksz_pos, hinv.rdblksz_pos, fun _ => hpos', fun _ => ?_⟩,
        ⟨hbeyond ▸ hnil, hnil, hpending⟩, fun hf => ⟨(hfine hf).reads, fun _ => rfl⟩⟩
      exact ⟨hpos', hl.trans hlater⟩
  | cons v later ih =>
    obtain ⟨hinv, hl, hf, hout⟩ := fillOnce_spec h hfini
    unfold bufFillLoop
    rcases hr : fillOnce s with ⟨s', got⟩
    rw [hr] at hinv hl hf hout
    cases got with
    | bytes bs => exact ⟨hinv, hout⟩
    | error => exact ⟨hinv, hout, fun hfine => absurd hfine hout.2.2⟩
    | eof =>
      obtain ⟨hpos, hvol, hbeyond, hpending, hfine⟩ := hout
      have hnext : (s'.opened v later).beyond = s.beyond := by
        have hl : s'.later = s.later := hl
        have hpos : s'.pos = s.vol.data.length := hpos
        have hvol : s'.vol = s.vol := hvol
        rw [← hbeyond]
        simp [Reader.beyond, Reader.opened, hl, hlater, hpos, hvol]
      have hsame : (s'.opened v later).pending = s.pending := hpending
      obtain ⟨hinv', hfilled, hfine'⟩ := ih (Reader.inv_opened hf v later) hf rfl
      refine ⟨hinv', ?_, fun hF => hfine' ⟨(hfine hF).reads, by simp [Reader.opened]⟩⟩
      dsimp only
      cases hgot : (bufFillLoop later (s'.opened v later)).2 with
      | bytes bs =>
        rw [hgot] at hfilled
        exact ⟨hfilled.1, hfilled.2.1, hnext ▸ hfilled.2.2⟩
      | eof =>
        rw [hgot] at hfilled
        exact ⟨hnext ▸ hfilled.1, hfilled.2.1, hfilled.2.2.trans hsame⟩
      | error =>
        rw [hgot] at hfilled
        exact ⟨hfilled.1.trans hnext, hfilled.2.1.trans hsame, fun hF => hfilled.2.2
          ⟨(hfine hF).reads, by simp [Reader.opened]⟩⟩

theorem bufFill_spec (h : s.Inv) :
    (bufFill s).1.Inv ∧ Filling s (bufFill s).1 (bufFill s).2 ∧ (s.Fine → (bufFill s).1.Fine) := by
  unfold bufFill
  split_ifs with hfini
  · exact ⟨h, ⟨h.beyond_fini hfini, h.beyond_fini hfini, rfl⟩, id⟩
  · exact bufFillLoop_spec s.later h (by simpa using hfini) rfl

theorem Reader.Inv.advance (h : s.Inv) (cnt : Nat) : (s.advance cnt).Inv :=
  ⟨h.pos_le, h.blksz_pos, h.rdblksz_pos, h.ended, h.fini⟩

theorem Reader.Fine.advance (h : s.Fine) (cnt : Nat) : (s.advance cnt).Fine := ⟨h.reads, h.lstrval⟩

theorem unread_advance (s : Reader) (cnt : Nat) (hcnt : cnt ≤ s.bufend - s.bufpt) :
    s.unread = slice s.mem s.bufpt cnt ++ (s.advance cnt).unread := by
  obtain ⟨k, hk⟩ := Nat.exists_eq_add_of_le hcnt
  have hrest : s.bufend - (s.bufpt + cnt) = k := by omega
  simp only [Reader.advance, Reader.unread, Reader.pending, Reader.beyond, hk, hrest, slice_append,
    List.append_assoc]

theorem avail_spec (h : s.Inv) :
    (avail s).1.Inv ∧ (s.Fine → (avail s).1.Fine) ∧
      match (avail s).2 with
      | .bytes _ => (avail s).1.bufpt < (avail s).1.bufend ∧ (avail s).1.unread = s.unread
      | .eof => s.unread = [] ∧ (avail s).1.unread = []
      | .error => (avail s).1.unread = s.unread ∧ ¬ s.Fine := by
  unfold avail
  split_ifs with hbuf
  · exact ⟨h, id, hbuf, rfl⟩
  · have hempty := pending_eq_nil hbuf
    obtain ⟨hinv, hfilled, hfine⟩ := bufFill_spec h
    refine ⟨hinv, hfine, ?_⟩
    cases hgot : (bufFill s).2 with
    | bytes bs =>
      rw [hgot] at hfilled
      obtain ⟨hne, hpending, hbeyond⟩ := hfilled
      refine ⟨?_, by simp [Reader.unread, hempty, hpending, hbeyond]⟩
      by_contra hnot
      exact hne (hpending ▸ pending_eq_nil hnot)
    | eof =>
      rw [hgot] at hfilled
      obtain ⟨hbeyond, hbeyond', hpending⟩ := hfilled
      exact ⟨by simp [Reader.unread, hempty, hbeyond], by
        simp [Reader.unread, hempty, hbeyond', hpending]⟩
    | error =>
      rw [hgot] at hfilled
      exact ⟨by rw [Reader.unread, Reader.unread, hfilled.1, hfilled.2.1], hfilled.2.2⟩

/-- Bytes are taken from the front of what is unread: `most`, or as many as there are. -/
structure Taken (s s' : Reader) (most : Nat) (bs : List Byte) : Prop where
  inv : s'.Inv
  unread : s.unread = bs ++ s'.unread
  le : bs.length ≤ most
  fine : s.Fine → s'.Fine ∧ (bs.length = most ∨ s'.unread = [])

theorem Taken.nothing (h : s.Inv) : Taken s s 0 [] :=
  ⟨h, by simp, by simp, fun hf => ⟨hf, Or.inl rfl⟩⟩

theorem Taken.cons {most : Nat} {t : Reader} (havail : t.unread = s.unread)
    (hfine : s.Fine → t.Fine) (hcnt : cnt ≤ t.bufend - t.bufpt) (hle : cnt ≤ most)
    (h : Taken (t.advance cnt) s' (most - cnt) bs) :
    Taken s s' most (slice t.mem t.bufpt cnt ++ bs) := by
  refine ⟨h.inv, ?_, ?_, fun hf => ?_⟩
  · rw [← havail, unread_advance t cnt hcnt, h.unread, List.append_assoc]
  · have := h.le
    rw [List.length_append, length_slice]
    omega
  · obtain ⟨hfine', hall⟩ := h.fine ((hfine hf).advance cnt)
    refine ⟨hfine', hall.imp_left fun hlen => ?_⟩
    rw [List.length_append, length_slice, hlen]
    omega

theorem rdWrbufLoop_spec {fuel incnt : Nat} {copied : List Byte} (hfuel : incnt < fuel)
    (h : s.Inv) :
    ∃ bs, (rdWrbufLoop fuel s incnt copied).2.1 = copied ++ bs ∧
      Taken s (rdWrbufLoop fuel s incnt copied).1 incnt bs ∧
      ((rdWrbufLoop fuel s incnt copied).2.2 = (copied ++ bs).length ∨
        copied ++ bs = [] ∧ 0 < incnt ∧ ¬ s.Fine ∧ (rdWrbufLoop fuel s incnt copied).2.2 = -1) := by
  induction fuel generalizing s incnt copied with
  | zero => omega
  | succ fuel ih =>
    by_cases hzero : incnt = 0
    · subst hzero
      exact ⟨[], by simp [rdWrbufLoop], by simpa [rdWrbufLoop] using Taken.nothing h,
        Or.inl (by simp [rdWrbufLoop])⟩
    obtain ⟨hinv, hfine, hout⟩ := avail_spec h
    rw [rdWrbufLoop, if_neg hzero]
    rcases ha : avail s with ⟨t, got⟩
    rw [ha] at hinv hfine hout
    cases got with
    | bytes bs =>
      obtain ⟨hbuf, hunread⟩ := hout
      have hbuf : t.bufpt < t.bufend := hbuf
      have hpos : 0 < min (t.bufend - t.bufpt) incnt := by omega
      obtain ⟨bs, hbs, htaken, hret⟩ := @ih (t.advance (min (t.bufend - t.bufpt) incnt))
        (incnt - min (t.bufend - t.bufpt) incnt)
        (copied ++ slice t.mem t.bufpt (min (t.bufend - t.bufpt) incnt)) (by omega) (hinv.advance _)
      refine ⟨slice t.mem t.bufpt (min (t.bufend - t.bufpt) incnt) ++ bs, ?_,
        htaken.cons hunread hfine (Nat.min_le_left _ _) (Nat.min_le_right _ _), ?_⟩
      · rw [← List.append_assoc]
        exact hbs
      · rw [← List.append_assoc]
        refine hret.imp_right fun ⟨hnil, _, _, _⟩ => ?_
        have := congrArg List.length hnil
        simp only [List.length_append, length_slice, List.length_nil] at this
        omega
    | eof =>
      obtain ⟨hunread, hunread'⟩ := hout
      exact ⟨[], by simp, ⟨hinv, by rw [hunread, hunread']; rfl, by simp,
        fun hf => ⟨hfine hf, Or.inr hunread'⟩⟩, Or.inl (by simp)⟩
    | error =>
      obtain ⟨hunread, hnot⟩ := hout
      refine ⟨[], by simp, ⟨hinv, by rw [hunread]; rfl, by simp, fun hf => absurd hf hnot⟩, ?_⟩
      by_cases hcopied : copied = []
      · exact Or.inr ⟨by simp [hcopied], by omega, hnot, by simp [hcopied]⟩
      · exact Or.inl (by simp [hcopied])

theorem rdWrbuf_spec (h : s.Inv) (n : Nat) :
    Taken s (rdWrbuf s n).1 n (rdWrbuf s n).2.1 ∧
      ((rdWrbuf s n).2.2 = (rdWrbuf s n).2.1.length ∨
        (rdWrbuf s n).2.1 = [] ∧ 0 < n ∧ ¬ s.Fine ∧ (rdWrbuf s n).2.2 = -1) := by
  obtain ⟨bs, hbs, htaken, hret⟩ := @rdWrbufLoop_spec s (n + 1) n [] (Nat.lt_succ_self n) h
  rw [List.nil_append] at hbs hret
  rw [← hbs] at htaken hret
  exact ⟨htaken, hret⟩

theorem rdSkipLoop_spec {fuel res : Nat} (hfuel : res < fuel) (h : s.Inv) :
    ∃ bs, Taken s (rdSkipLoop fuel s res).1 res bs ∧
      ((rdSkipLoop fuel s res).2 = 0 → bs.length = res) ∧
      (s.Fine → bs.length = res → (rdSkipLoop fuel s res).2 = 0) := by
  induction fuel generalizing s res with
  | zero => omega
  | succ fuel ih =>
    by_cases hzero : res = 0
    · subst hzero
      exact ⟨[], by simpa [rdSkipLoop] using Taken.nothing h, by simp, by simp [rdSkipLoop]⟩
    obtain ⟨hinv, hfine, hout⟩ := avail_spec h
    rw [rdSkipLoop, if_neg hzero]
    rcases ha : avail s with ⟨t, got⟩
    rw [ha] at hinv hfine hout
    cases got with
    | bytes bs =>
      obtain ⟨hbuf, hunread⟩ := hout
      have hbuf : t.bufpt < t.bufend := hbuf
      have hpos : 0 < min (t.bufend - t.bufpt) res := by omega
      obtain ⟨bs, htaken, hret, hdone⟩ := @ih (t.advance (min (t.bufend - t.bufpt) res))
        (res - min (t.bufend - t.bufpt) res) (by omega) (hinv.advance _)
      refine ⟨slice t.mem t.bufpt (min (t.bufend - t.bufpt) res) ++ bs,
        htaken.cons hunread hfine (Nat.min_le_left _ _) (Nat.min_le_right _ _), fun h0 => ?_,
        fun hf hlen => hdone ((hfine hf).advance _) ?_⟩
      · have := hret h0
        rw [List.length_append, length_slice]
        omega
      · rw [List.length_append, length_slice] at hlen
        omega
    | eof =>
      obtain ⟨hunread, hunread'⟩ := hout
      refine ⟨[], ⟨hinv, by rw [hunread, hunread']; rfl, by simp,
        fun hf => ⟨hfine hf, Or.inr hunread'⟩⟩, by simp, fun _ hlen => ?_⟩
      exact absurd hlen.symm hzero
    | error =>
      obtain ⟨hunread, hnot⟩ := hout
      exact ⟨[], ⟨hinv, by rw [hunread]; rfl, by simp, fun hf => absurd hf hnot⟩, by simp,
        fun hf => absurd hf hnot⟩

theorem arFow_spec (h : s.Inv) {skipped : Nat} (hfow : arFow s cnt = some (skipped, s')) :
    s'.Inv ∧ s'.pending = s.pending ∧ (s.Fine → s'.Fine) ∧ skipped ≤ cnt ∧
      ∃ bs, bs.length = skipped ∧ s.beyond = bs ++ s'.beyond := by
  have hstay : s.Inv ∧ s.pending = s.pending ∧ (s.Fine → s.Fine) ∧ 0 ≤ cnt ∧
      ∃ bs, bs.length = 0 ∧ s.beyond = bs ++ s.beyond :=
    ⟨h, rfl, id, Nat.zero_le _, [], rfl, rfl⟩
  unfold arFow at hfow
  split_ifs at hfow with hzero hneg hlst hreg hpast
  · cases hfow
    exact hstay
  · cases hfow
    exact hstay
  · cases hfow
    refine ⟨⟨Nat.le_refl _, h.blksz_pos, h.rdblksz_pos, fun _ => rfl, fun hf =>
      ⟨rfl, (h.fini hf).2⟩⟩, rfl,
      fun hf => ⟨hf.reads, hf.lstrval⟩, by omega, s.vol.data.drop s.pos, by simp, ?_⟩
    simp [Reader.beyond]
  · cases hfow
    refine ⟨⟨by dsimp only; omega, h.blksz_pos, h.rdblksz_pos, fun h0 => absurd h0 hlst, fun hf =>
      ?_⟩,
      rfl, fun hf => ⟨hf.reads, hf.lstrval⟩, Nat.le_refl _, (s.vol.data.drop s.pos).take cnt, ?_,
        ?_⟩
    · have := (h.fini hf).1
      omega
    · rw [List.length_take, List.length_drop]
      omega
    · conv_lhs => rw [Reader.beyond, ← List.take_append_drop cnt (s.vol.data.drop s.pos)]
      rw [List.drop_drop, List.append_assoc]
      rfl
  · cases hfow
    exact hstay

theorem Taken.trans {t : Reader} {most : Nat} {cs : List Byte} (hunread : s.unread = bs ++ t.unread)
    (hfine : s.Fine → t.Fine) (hlen : bs.length = n) (hle : n ≤ most)
    (h : Taken t s' (most - n) cs) : Taken s s' most (bs ++ cs) := by
  have hcs := h.le
  refine ⟨h.inv, by rw [hunread, h.unread, List.append_assoc], by rw [List.length_append]; omega,
    fun hf => ?_⟩
  obtain ⟨hfine', hall⟩ := h.fine (hfine hf)
  refine ⟨hfine', hall.imp_left fun hmost => ?_⟩
  rw [List.length_append]
  omega

theorem rdSkip_spec (h : s.Inv) (n : Nat) :
    ∃ bs, Taken s (rdSkip s n).1 n bs ∧ ((rdSkip s n).2 = 0 → bs.length = n) ∧
      (s.Fine → bs.length = n → (rdSkip s n).2 = 0) := by
  by_cases hzero : n = 0
  · subst hzero
    exact ⟨[], .nothing h, by simp, by simp [rdSkip]⟩
  rw [rdSkip, if_neg hzero]
  by_cases hdone : n ≤ s.bufend - s.bufpt
  · -- all of it is in the buffer
    refine ⟨slice s.mem s.bufpt n, ?_⟩
    dsimp only
    rw [Nat.min_eq_right hdone, if_pos (Nat.sub_self n)]
    exact ⟨⟨h.advance n, unread_advance s n hdone, by simp, fun hf => ⟨hf.advance n, by simp⟩⟩, by
      simp,
      by simp⟩
  · -- the buffer is used up
    dsimp only
    rw [Nat.min_eq_left (by omega), if_neg (by omega)]
    have hfirst := unread_advance s (s.bufend - s.bufpt) (Nat.le_refl _)
    have hinv := h.advance (s.bufend - s.bufpt)
    have hempty : (s.advance (s.bufend - s.bufpt)).pending = [] :=
      pending_eq_nil (by simp only [Reader.advance]; omega)
    set t := s.advance (s.bufend - s.bufpt) with ht
    have hfine : s.Fine → t.Fine := fun hf => hf.advance _
    set k := n - (s.bufend - s.bufpt) with hk
    cases hfow : arFow t (k / t.rdblksz * t.rdblksz) with
    | none =>
      refine ⟨slice s.mem s.bufpt (s.bufend - s.bufpt),
        ⟨hinv, hfirst, by simp; omega, fun hf => ?_⟩,
        by simp, fun _ hlen => ?_⟩
      · have hneg : t.lstrval < 0 := by
          unfold arFow at hfow
          split_ifs at hfow with _ hneg
          exact hneg
        refine ⟨hfine hf, Or.inr ?_⟩
        rw [Reader.unread, hempty, hinv.beyond_fini ((hfine hf).lstrval hneg)]
        rfl
      · rw [length_slice] at hlen
        omega
    | some r =>
      obtain ⟨skipped, u⟩ := r
      obtain ⟨hinv', hpending, hfine', hle, bs, hlen, hbeyond⟩ := arFow_spec hinv hfow
      dsimp only
      have hrest : k % t.rdblksz + (k / t.rdblksz * t.rdblksz - skipped) = k - skipped := by
        have := Nat.mod_add_div' k t.rdblksz
        omega
      have hkle : k / t.rdblksz * t.rdblksz ≤ k := Nat.div_mul_le_self k t.rdblksz
      rw [hrest]
      have hmoved : t.unread = bs ++ ({ u with rdcnt := u.rdcnt + skipped } : Reader).unread := by
        rw [Reader.unread, hempty, List.nil_append, hbeyond]
        congr 1
        rw [Reader.unread, show ({ u with rdcnt := u.rdcnt + skipped } : Reader).pending = [] from
          hpending.trans hempty]
        rfl
      obtain ⟨cs, htaken, hret, hall⟩ := rdSkipLoop_spec (Nat.lt_succ_self (k - skipped))
        (s := { u with rdcnt := u.rdcnt + skipped })
        ⟨hinv'.pos_le, hinv'.blksz_pos, hinv'.rdblksz_pos, hinv'.ended, hinv'.fini⟩
      have hfine'' : t.Fine → ({ u with rdcnt := u.rdcnt + skipped } : Reader).Fine :=
        fun hf => ⟨(hfine' hf).reads, (hfine' hf).lstrval⟩
      have htail := Taken.trans hmoved hfine'' hlen (by omega) htaken
      refine ⟨slice s.mem s.bufpt (s.bufend - s.bufpt) ++ (bs ++ cs),
        Taken.trans hfirst hfine length_slice (by omega) htail, fun h0 => ?_,
        fun hf hlength => hall (hfine'' (hfine hf)) ?_⟩
      · have := hret h0
        simp only [List.length_append, length_slice]
        omega
      · simp only [List.length_append, length_slice] at hlength
        omega

theorem Taken.eq_take {most : Nat} (h : Taken s s' most bs) : bs = s.unread.take bs.length := by
  rw [h.unread, List.take_left']
  rfl

theorem Taken.length {most : Nat} (h : Taken s s' most bs) (hf : s.Fine) :
    bs.length = min most s.unread.length := by
  have hle := h.le
  have hlen := congrArg List.length h.unread
  rw [List.length_append] at hlen
  rcases (h.fine hf).2 with hmost | hnil
  · omega
  · rw [hnil, List.length_nil] at hlen
    omega

/-- **After `rd_skip(n)` `rd_wrbuf` delivers what it delivers after it has copied `n` bytes, and
  both
reach the end of the archive for the same `n`.** A failed read may cut off what is delivered. -/
theorem rdSkip_reads (h : s.Inv) (n : Nat) :
    ((rdSkip s n).2 = 0 → (rdSkip s n).1.unread = s.unread.drop n) ∧
    ((rdSkip s n).2 = 0 → (rdWrbuf s n).2.2 = n → ∀ m,
      let skipped := rdWrbuf (rdSkip s n).1 m
      let read := rdWrbuf (rdWrbuf s n).1 m
      (skipped.2.1 <+: read.2.1 ∨ read.2.1 <+: skipped.2.1) ∧ (s.Fine → skipped.2 = read.2)) ∧
    (s.Fine → ((rdSkip s n).2 = 0 ↔ (rdWrbuf s n).2.2 = n)) := by
  obtain ⟨bs, hskip, hret, hall⟩ := rdSkip_spec h n
  obtain ⟨hread, hcopied⟩ := rdWrbuf_spec h n
  have hfull : (rdWrbuf s n).2.2 = n ↔ (rdWrbuf s n).2.1.length = n := by
    rcases hcopied with hc | ⟨hnil, hpos, -, hc⟩
    · rw [hc]
      exact Int.ofNat_inj
    · rw [hc, hnil, List.length_nil]
      omega
  have hdrop : (rdSkip s n).2 = 0 → (rdSkip s n).1.unread = s.unread.drop n := by
    intro h0
    rw [hskip.unread, List.drop_left' (hret h0)]
  refine ⟨hdrop, fun h0 hn m => ?_, fun hf => ?_⟩
  · have hrest : (rdWrbuf s n).1.unread = s.unread.drop n := by
      rw [hread.unread, List.drop_left' (hfull.mp hn)]
    obtain ⟨hs, hsret⟩ := rdWrbuf_spec hskip.inv m
    obtain ⟨hr, hrret⟩ := rdWrbuf_spec hread.inv m
    have hspre := hs.eq_take
    have hrpre := hr.eq_take
    rw [hdrop h0] at hspre
    rw [hrest] at hrpre
    refine ⟨?_, fun hf => ?_⟩
    · rw [hspre, hrpre]
      exact List.prefix_or_prefix_of_prefix (List.take_prefix _ _) (List.take_prefix _ _)
    · have hsf := (hskip.fine hf).1
      have hrf := (hread.fine hf).1
      have hslen := hs.length hsf
      have hrlen := hr.length hrf
      rw [hdrop h0] at hslen
      rw [hrest] at hrlen
      have hbytes : (rdWrbuf (rdSkip s n).1 m).2.1 = (rdWrbuf (rdWrbuf s n).1 m).2.1 := by
        rw [hspre, hrpre, hslen, hrlen]
      refine Prod.ext hbytes ?_
      rw [hsret.resolve_right fun hc => hc.2.2.1 hsf, hrret.resolve_right fun hc => hc.2.2.1 hrf,
        hbytes]
  · have hslen := hskip.length hf
    have hrlen := hread.length hf
    rw [hfull]
    constructor
    · intro h0
      have := hret h0
      omega
    · intro hn
      exact hall hf (by omega)

theorem shortFile_blksz_pos : 0 < 4 := by decide

/-- A file of 6 bytes that is read 4 bytes at a time, with records of 2 bytes. -/
def shortFile : Reader where
  mem _ := 0
  bufpt := 0
  bufend := 0
  blksz := 4
  rdblksz := 2
  rdcnt := 0
  vol := ⟨.reg, [1, 2, 3, 4, 5, 6], 4, 2, 1, shortFile_blksz_pos, Nat.two_pos, Nat.one_pos⟩
  pos := 0
  arvol := 1
  lstrval := 1
  later := []
  fini := false
  exitVal := 0
  invldRec := false
  reads _ := some 4
  nread := 0

theorem rdSkip_reads_shortFile :
    (rdSkip shortFile 5).2 = 0 ∧ (rdWrbuf (rdSkip shortFile 5).1 2).2 = ([6], 1) := by
  have hinv : shortFile.Inv := ⟨by decide, by decide, by decide, by decide, by decide⟩
  have hfine : shortFile.Fine := ⟨by simp [shortFile], by decide⟩
  have hread : (rdWrbuf shortFile 5).2.2 = (5 : Nat) := by decide
  have hskip : (rdSkip shortFile 5).2 = 0 := ((rdSkip_reads hinv 5).2.2 hfine).mpr hread
  refine ⟨hskip, ?_⟩
  rw [((rdSkip_reads hinv 5).2.1 hskip hread 2).2 hfine]
  decide

/-- The calls that read what `calls` wrote, and the data they copy. -/
def readBack (s : Reader) : List Call → Reader × List (List Byte)
  | [] => (s, [])
  | .rdbuf out :: calls =>
    let (s, bs, _) := rdWrbuf s out.length
    let (s, copied) := readBack s calls
    (s, bs :: copied)
  | .skip skcnt :: calls => readBack (rdSkip s skcnt).1 calls

def Call.data : Call → List (List Byte)
  | .rdbuf out => [out]
  | .skip _ => []

theorem readBack_spec {rest : List Byte} (h : s.Inv) (hf : s.Fine) (calls : List Call)
    (hunread : s.unread = calls.flatMap Call.bytes ++ rest) :
    (readBack s calls).2 = calls.flatMap Call.data ∧ (readBack s calls).1.unread = rest := by
  -- every call takes its own bytes
  induction calls generalizing s with
  | nil => exact ⟨rfl, hunread⟩
  | cons call calls ih =>
    rw [List.flatMap_cons, List.append_assoc] at hunread
    cases call with
    | rdbuf out =>
      obtain ⟨hread, -⟩ := rdWrbuf_spec h out.length
      have hlen := hread.length hf
      have hbs := hread.eq_take
      rw [hunread, Call.bytes, List.length_append, Nat.min_eq_left (Nat.le_add_right _ _)] at hlen
      rw [hlen, hunread, Call.bytes, List.take_left] at hbs
      have hrest := hread.unread
      rw [hunread, hbs, Call.bytes, List.append_cancel_left_eq] at hrest
      obtain ⟨hcopied, hunread'⟩ := ih hread.inv (hread.fine hf).1 hrest.symm
      simp only [readBack, hcopied, hbs, hunread', List.flatMap_cons, Call.data,
        List.singleton_append, and_self]
    | skip skcnt =>
      obtain ⟨bs, hskip, hret, hall⟩ := rdSkip_spec h skcnt
      have hlen := hskip.length hf
      have hbs := hskip.eq_take
      rw [hunread, Call.bytes, List.length_append, List.length_replicate,
        Nat.min_eq_left (Nat.le_add_right _ _)] at hlen
      have hrest := hskip.unread
      rw [hlen, hunread, Call.bytes, List.take_left' (List.length_replicate ..)] at hbs
      rw [hunread, hbs, Call.bytes, List.append_cancel_left_eq] at hrest
      exact ih hskip.inv (hskip.fine hf).1 hrest.symm

/-- What is archived is read back, over volumes and with block sizes of the reader's own. -/
theorem readBack_archive (c : Config) (b : BlockSize) (writes : List Nat)
    (volumes : List (Option BlockSize)) (calls : List Call) (hgrow : Growing b.size volumes)
    (hlast : ∀ s, fill c (wrStart b writes volumes) calls = .ok s → lastTakes c s = true)
    (h : s.Inv) (hf : s.Fine) :
    Ensures (· ≠ .fuel) (archive c (wrStart b writes volumes) calls) fun w =>
      s.unread = w.out → (readBack s calls).2 = calls.flatMap Call.data := by
  refine (fill_spec (holds_start hgrow) calls).with_eq.bind fun w hw => ?_
  have hfin := wrFin_spec hw.2 (hlast w hw.1)
  cases heq : wrFin c w with
  | error e =>
    rw [heq, Ensures.error_iff] at hfin
    simp [hfin]
  | ok w' =>
    rw [heq, Ensures.ok_iff] at hfin
    obtain ⟨⟨k, hout⟩, -⟩ := hfin
    exact fun hunread => (readBack_spec h hf calls (hunread.trans hout)).1

theorem readBack_archive_file :
    let file := { shortFile with vol.data := [1, 2, 3, 0, 0, 4] }
    Ensures (· ≠ .fuel)
      (archive ⟨0, 0⟩ (wrStart ⟨6, by decide, by decide⟩ [6] [])
        [.rdbuf [1, 2, 3], .skip 2, .rdbuf [4]])
      fun w => file.unread = w.out →
        (readBack file [.rdbuf [1, 2, 3], .skip 2, .rdbuf [4]]).2 = [[1, 2, 3], [4]] :=
  readBack_archive ⟨0, 0⟩ ⟨6, by decide, by decide⟩ [6] [] [.rdbuf [1, 2, 3], .skip 2, .rdbuf [4]]
    trivial (of_fillsTo (by decide)) ⟨by decide, by decide, by decide, by decide, by decide⟩
    ⟨by simp [shortFile], by decide⟩

end Bsdi.Pax
