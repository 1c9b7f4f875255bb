import Bsdi.Pax.Skip

/-!
# Where an append starts

`appnd_start` goes back by whole blocks to the block that holds the trailer and reads the part of it
before the trailer into the buffer, to be written again. `ar_rev` does not go back beyond the start
of a file, and does not say so.
-/

namespace Bsdi.Pax

open Lib

/-- `get_phys()` on a tape whose records all have one size: it leaves the tape where it was. -/
def getPhys (s : Reader) : Option Nat :=
  if s.vol.data = [] ∨ (s.vol.data.length - s.pos) % s.vol.phys ≠ 0 then none else some s.vol.phys

def arRev (s : Reader) (sksz : Nat) : Option Reader :=
  if s.lstrval < 0 then none
  else
    match s.vol.artyp with
    | .pipe => if sksz = 0 then some { s with lstrval := 1 } else none
    | .tape =>
      match getPhys s with
      | none => none
      | some phyblk =>
        if sksz % phyblk ≠ 0 ∨ s.pos < sksz then none
        else some { s with rdblksz := phyblk, pos := s.pos - sksz, lstrval := 1 }
    | .reg | .dev =>
      -- the offset is set to zero where it would be negative
      if s.pos < sksz ∧ 1 < s.arvol then none
      else some { s with pos := s.pos - sksz, lstrval := 1 }

/-- The loop of `appnd_start` that reads the block again. -/
def rereadLoop (blksz : Nat) : Nat → Reader → Option Reader
  | 0, _ => none
  | fuel + 1, s =>
    if s.bufpt < blksz then
      match arRead s s.rdblksz with
      | (s, .bytes bs) =>
        rereadLoop blksz fuel
          { s with mem := store s.mem s.bufpt bs, bufpt := s.bufpt + bs.length }
      | _ => none
    else some s

/-- The least multiple of `blksz` that is not less than `skcnt`. -/
def roundUp (skcnt blksz : Nat) : Nat :=
  let cnt := skcnt / blksz * blksz
  if cnt < skcnt then cnt + blksz else cnt

def arSetWr (s : Reader) : Reader :=
  if s.vol.artyp = .reg then { s with vol := { s.vol with data := s.vol.data.take s.pos } } else s

/-- The part of `appnd_start` for a block whose first `cnt` bytes stay. -/
def reread (s : Reader) (cnt : Nat) : Option Reader :=
  if 0 < cnt then do
    let s ← rereadLoop s.blksz (s.blksz + 1) { s with bufpt := 0, bufend := s.blksz }
    let s ← arRev s s.bufpt
    some { s with bufpt := cnt, bufend := s.blksz }
  else some { s with bufend := s.blksz, bufpt := 0 }

def appndStart (s : Reader) (skcnt : Nat) : Option Reader :=
  if s.exitVal ≠ 0 then none
  else
    let s := { s with blksz := s.rdblksz }
    if s.vol.artyp = .pipe ∨ s.invldRec = true then none
    else do
      let skcnt := skcnt + (s.bufend - s.bufpt)
      let cnt := roundUp skcnt s.blksz
      let s ← arRev s cnt
      let s ← reread s (cnt - skcnt)
      some (arSetWr { s with rdblksz := s.blksz, rdcnt := s.rdcnt - skcnt })

variable {s t : Reader} {k skcnt : Nat}

theorem arRev_spec (h : arRev s k = some t) :
    t.pos = s.pos - k ∧ t.vol = s.vol ∧ t.mem = s.mem ∧ t.bufpt = s.bufpt ∧ t.blksz = s.blksz ∧
      t.lstrval = 1 ∧ (0 < s.rdblksz → 0 < t.rdblksz) ∧
      (s.vol.artyp = .tape → k ≤ s.pos) := by
  by_cases hneg : s.lstrval < 0
  · simp [arRev, hneg] at h
  rw [arRev, if_neg hneg] at h
  cases hart : s.vol.artyp with
  | pipe =>
    simp only [hart] at h
    split_ifs at h with hk
    cases h
    exact ⟨by rw [hk]; rfl, rfl, rfl, rfl, rfl, rfl, id, by simp⟩
  | tape =>
    simp only [hart] at h
    cases hphys : getPhys s with
    | none => simp [hphys] at h
    | some phyblk =>
      simp only [hphys] at h
      split_ifs at h with hno
      cases h
      have hsize : phyblk = s.vol.phys := by
        unfold getPhys at hphys
        split_ifs at hphys
        exact (Option.some.inj hphys).symm
      exact ⟨rfl, rfl, rfl, rfl, rfl, rfl, fun _ => hsize ▸ s.vol.phys_pos, fun _ => by omega⟩
  | reg | dev =>
    simp only [hart] at h
    split_ifs at h
    cases h
    exact ⟨rfl, rfl, rfl, rfl, rfl, rfl, id, by simp⟩

theorem roundUp_spec (skcnt : Nat) {blksz : Nat} (hpos : 0 < blksz) :
    skcnt ≤ roundUp skcnt blksz ∧ roundUp skcnt blksz < skcnt + blksz := by
  have hmod := Nat.mod_add_div' skcnt blksz
  have hlt := Nat.mod_lt skcnt hpos
  unfold roundUp
  dsimp only
  split <;> omega

/-- The buffer holds what follows the offset `start` of the archive. -/
structure Rereads (s : Reader) (start : Nat) : Prop where
  pos : s.pos = start + s.bufpt
  le : s.pos ≤ s.vol.data.length
  mem : slice s.mem 0 s.bufpt = (s.vol.data.drop start).take s.bufpt
  rdblksz_pos : 0 < s.rdblksz
  lstrval : s.lstrval = 1

theorem Rereads.read {start : Nat} (h : Rereads s start) {bs : List Byte}
    (hr : arRead s s.rdblksz = (t, .bytes bs)) :
    bs ≠ [] ∧ t.vol = s.vol ∧ t.blksz = s.blksz ∧ t.bufpt = s.bufpt ∧
      Rereads { t with mem := store t.mem t.bufpt bs, bufpt := t.bufpt + bs.length } start := by
  have hread := read_spec (s := s) h.rdblksz_pos
  unfold arRead at hr
  rw [if_neg (by rw [h.lstrval]; decide), if_neg (by rw [h.lstrval]; decide)] at hr
  cases hgot : s.read s.rdblksz with
  | eof => simp [hgot] at hr
  | error => simp [hgot] at hr
  | bytes bs' =>
    simp only [hgot, Prod.mk.injEq, Got.bytes.injEq] at hr
    obtain ⟨rfl, rfl⟩ := hr
    rw [hgot] at hread
    obtain ⟨hne, hlen, hrest⟩ := hread
    have hbs := List.length_pos_iff.mpr hne
    refine ⟨hne, rfl, rfl, rfl, ⟨?_, ?_, ?_, ?_, h.lstrval⟩⟩
    · have := h.pos
      dsimp only
      omega
    · have hlength := congrArg List.length hrest
      simp only [List.length_append, List.length_drop] at hlength
      dsimp only
      omega
    · dsimp only
      rw [slice_append, Nat.zero_add, slice_store, slice_store_before (by omega), h.mem,
        List.take_add, List.drop_drop, ← h.pos, hrest, List.take_left' rfl]
    · dsimp only
      split
      · exact hbs
      · exact h.rdblksz_pos

theorem rereadLoop_spec {blksz start fuel : Nat} (h : Rereads s start)
    (hr : rereadLoop blksz fuel s = some t) :
    Rereads t start ∧ blksz ≤ t.bufpt ∧ t.vol = s.vol ∧ t.blksz = s.blksz := by
  induction fuel generalizing s with
  | zero => simp [rereadLoop] at hr
  | succ fuel ih =>
    rw [rereadLoop] at hr
    split_ifs at hr with hlt
    · rcases ha : arRead s s.rdblksz with ⟨u, got⟩
      rw [ha] at hr
      cases got with
      | eof => simp at hr
      | error => simp at hr
      | bytes bs =>
        obtain ⟨-, hvol, hblk, -, hnext⟩ := h.read ha
        obtain ⟨ht, hle, hvol', hblk'⟩ := ih hnext hr
        exact ⟨ht, hle, hvol'.trans hvol, hblk'.trans hblk⟩
    · cases hr
      exact ⟨h, by omega, rfl, rfl⟩

/-- The archive before the offset and what the buffer holds are the archive before its trailer,
and the next byte for the buffer is for the first byte of the trailer. -/
structure AtTrailer (s t : Reader) (trailer : Nat) : Prop where
  lands : t.pos + t.bufpt = trailer
  room : t.bufpt < t.bufend
  kept : t.vol.data.take t.pos = s.vol.data.take t.pos
  buffer : slice t.mem 0 t.bufpt = (s.vol.data.drop t.pos).take t.bufpt

theorem arSetWr_kept (t : Reader) :
    (arSetWr t).pos = t.pos ∧ (arSetWr t).bufpt = t.bufpt ∧ (arSetWr t).bufend = t.bufend ∧
      (arSetWr t).mem = t.mem ∧ (arSetWr t).vol.data.take t.pos = t.vol.data.take t.pos := by
  unfold arSetWr
  split
  · exact ⟨rfl, rfl, rfl, rfl, by simp [List.take_take]⟩
  · exact ⟨rfl, rfl, rfl, rfl, rfl⟩

theorem reread_spec (hle : s.pos ≤ s.vol.data.length) (hrd : 0 < s.rdblksz) (hlst : s.lstrval = 1)
    (hk : k < s.blksz) (h : reread s k = some t) :
    t.pos = s.pos ∧ t.vol = s.vol ∧ t.bufpt = k ∧ k < t.bufend ∧
      slice t.mem 0 k = (s.vol.data.drop s.pos).take k := by
  unfold reread at h
  split_ifs at h with hpos
  · simp only [Option.bind_eq_bind, Option.bind_eq_some_iff, Option.some.injEq] at h
    obtain ⟨w, hread, x, hrev, rfl⟩ := h
    have hstart : Rereads { s with bufpt := 0, bufend := s.blksz } s.pos :=
      ⟨rfl, hle, by simp, hrd, hlst⟩
    obtain ⟨hw, hwle, hwvol, hwblk⟩ := rereadLoop_spec hstart hread
    obtain ⟨hxpos, hxvol, hxmem, -, hxblk, -⟩ := arRev_spec hrev
    have hwvol : w.vol = s.vol := hwvol
    have hwblk : w.blksz = s.blksz := hwblk
    have hfirst : slice w.mem 0 k = (s.vol.data.drop s.pos).take k := by
      rw [← take_slice (show k ≤ w.bufpt by omega), hw.mem, List.take_take, hwvol,
        Nat.min_eq_left (by omega)]
    refine ⟨?_, hxvol.trans hwvol, rfl, ?_, ?_⟩
    · have := hw.pos
      dsimp only
      omega
    · dsimp only
      rw [hxblk, hwblk]
      exact hk
    · dsimp only
      rw [hxmem]
      exact hfirst
  · cases h
    have hzero : k = 0 := by omega
    exact ⟨rfl, rfl, hzero.symm, hk, by simp [hzero]⟩

/-- **The append starts at the trailer exactly when going back by whole blocks does not reach beyond
the start of the volume.** -/
theorem appndStart_iff (h : s.Inv) (htrailer : skcnt + (s.bufend - s.bufpt) ≤ s.pos)
    (happ : appndStart s skcnt = some t) :
    AtTrailer s t (s.pos - (skcnt + (s.bufend - s.bufpt))) ↔
      roundUp (skcnt + (s.bufend - s.bufpt)) s.rdblksz ≤ s.pos := by
  unfold appndStart at happ
  split_ifs at happ
  dsimp only at happ
  split_ifs at happ
  simp only [Option.bind_eq_bind, Option.bind_eq_some_iff, Option.some.injEq] at happ
  obtain ⟨u, hrev, v, hv, rfl⟩ := happ
  generalize skcnt + (s.bufend - s.bufpt) = back at *
  obtain ⟨hle, hlt⟩ := roundUp_spec back h.rdblksz_pos
  obtain ⟨hpos, hvol, -, -, hblk, hlst, hrd, -⟩ := arRev_spec hrev
  have hpos : u.pos = s.pos - roundUp back s.rdblksz := hpos
  have hvol : u.vol = s.vol := hvol
  have hblk : u.blksz = s.rdblksz := hblk
  have hend := h.pos_le
  obtain ⟨hvpos, hvvol, hvpt, hvend, hvmem⟩ :=
    reread_spec (by rw [hvol, hpos]; omega) (hrd h.rdblksz_pos) hlst (by rw [hblk]; omega) hv
  obtain ⟨hp, hb, he, hm, hk⟩ := arSetWr_kept
    { v with rdblksz := v.blksz, rdcnt := v.rdcnt - (back : Int) }
  have hp' : (arSetWr { v with rdblksz := v.blksz, rdcnt := v.rdcnt - (back : Int) }).pos = u.pos :=
    hp.trans hvpos
  have hb' : (arSetWr { v with rdblksz := v.blksz, rdcnt := v.rdcnt - (back : Int) }).bufpt =
      roundUp back s.rdblksz - back := hb.trans hvpt
  constructor
  · intro hat
    have hlands := hat.lands
    rw [hp', hb'] at hlands
    omega
  · intro hfits
    refine ⟨by rw [hp', hb']; omega, by rw [hb', he]; exact hvend, ?_, ?_⟩
    · rw [hp]
      refine hk.trans ?_
      dsimp only
      rw [hvvol, hvol]
    · rw [hm, hb', hp', ← hvol]
      exact hvmem

/-- A file of 10 bytes with records of 4 bytes, of which 2 are left in the buffer. -/
def tenBytes : Reader :=
  { shortFile with
      vol := ⟨.reg, [1, 2, 3, 4, 5, 6, 7, 8, 9, 10], 4, 4, 1, shortFile_blksz_pos,
        shortFile_blksz_pos, Nat.one_pos⟩
      blksz := 4
      rdblksz := 4
      bufend := 2
      pos := 10 }

theorem appndStart_tenBytes : ∃ t, appndStart tenBytes 1 = some t ∧ AtTrailer tenBytes t 7 := by
  obtain ⟨t, ht⟩ : ∃ t, appndStart tenBytes 1 = some t :=
    Option.isSome_iff_exists.mp (by decide)
  exact ⟨t, ht, (appndStart_iff ⟨by decide, by decide, by decide, by decide, by decide⟩ (by decide)
    ht).mpr (by decide)⟩

theorem flawed_blksz_pos : 0 < 10240 := by decide

/-- A file of 20240 bytes, read as records of 10240 bytes, whose trailer starts at 9728: the second
record has been read and the trailer ends at byte 512 of it. -/
def flawed : Reader :=
  { shortFile with
      vol := ⟨.reg, List.replicate 9728 97 ++ List.replicate 10512 0, 10240, 10240, 1,
        flawed_blksz_pos, flawed_blksz_pos, Nat.one_pos⟩
      blksz := 10240
      rdblksz := 10240
      bufpt := 512
      bufend := 10000
      pos := 20240
      reads := fun _ => some 10240 }

theorem rereadLoop_once {blksz fuel : Nat} {bs : List Byte} (hlt : s.bufpt < blksz)
    (hr : arRead s s.rdblksz = (t, .bytes bs)) (hle : blksz ≤ t.bufpt + bs.length) :
    rereadLoop blksz (fuel + 2) s =
      some { t with mem := store t.mem t.bufpt bs, bufpt := t.bufpt + bs.length } := by
  rw [rereadLoop, if_pos hlt, hr]
  exact if_neg (by dsimp only; omega)

theorem arRead_full (hlst : s.lstrval = 1) {most : Nat} (hreads : s.reads s.nread = some most)
    (hk : 0 < k) (hmost : k ≤ most) (hlen : s.pos + k ≤ s.vol.data.length) :
    ∃ t bs, arRead s k = (t, .bytes bs) ∧ bs.length = k ∧ t.bufpt = s.bufpt ∧ t.vol = s.vol ∧
      t.lstrval = 1 ∧ t.arvol = s.arvol := by
  have hne : s.vol.data.drop s.pos ≠ [] := by
    rw [ne_eq, List.drop_eq_nil_iff]
    omega
  have hread : s.read k = .bytes ((s.vol.data.drop s.pos).take k) := by
    rw [Reader.read, hreads]
    dsimp only
    rw [if_neg hne]
    congr 2
    omega
  unfold arRead
  rw [if_neg (by rw [hlst]; decide), if_neg (by rw [hlst]; decide), hread]
  refine ⟨_, _, rfl, ?_, rfl, rfl, hlst, rfl⟩
  rw [List.length_take, List.length_drop]
  omega

theorem arRev_reg (hlst : s.lstrval = 1) (hreg : s.vol.artyp = .reg) (hvol : s.arvol = 1) :
    arRev s k = some { s with pos := s.pos - k, lstrval := 1 } := by
  unfold arRev
  rw [if_neg (by rw [hlst]; decide), hreg]
  exact if_neg (by omega)

theorem reread_reg (hlst : s.lstrval = 1) (hreg : s.vol.artyp = .reg) (hvol : s.arvol = 1)
    {most : Nat} (hreads : ∀ i, s.reads i = some most) (hblk : s.rdblksz = s.blksz)
    (hpos : 0 < s.blksz) (hmost : s.blksz ≤ most) (hlen : s.pos + s.blksz ≤ s.vol.data.length) :
    ∃ t, reread s k = some t := by
  unfold reread
  split_ifs
  · obtain ⟨u, bs, hread, hbs, hpt, huvol, hulst, harvol⟩ :=
      @arRead_full { s with bufpt := 0, bufend := s.blksz } s.blksz hlst most (hreads _) hpos hmost
        hlen
    have hloop := @rereadLoop_once { s with bufpt := 0, bufend := s.blksz } u s.blksz (s.blksz - 1)
      bs hpos (hblk ▸ hread) (by omega)
    rw [show s.blksz + 1 = s.blksz - 1 + 2 by omega, hloop]
    have hrev := @arRev_reg
      { u with mem := store u.mem u.bufpt bs, bufpt := u.bufpt + bs.length } (u.bufpt + bs.length)
      hulst ((congrArg Volume.artyp huvol).trans hreg) (harvol.trans hvol)
    simp only [Option.bind_eq_bind, Option.bind_some, hrev]
    exact ⟨_, rfl⟩
  · exact ⟨_, rfl⟩

theorem appndStart_reg (hlst : s.lstrval = 1) (hreg : s.vol.artyp = .reg) (hvol : s.arvol = 1)
    (hexit : s.exitVal = 0) (hrec : s.invldRec = false) {most : Nat}
    (hreads : ∀ i, s.reads i = some most) (hrd : 0 < s.rdblksz) (hmost : s.rdblksz ≤ most)
    (hlen : s.pos - roundUp (skcnt + (s.bufend - s.bufpt)) s.rdblksz + s.rdblksz ≤
      s.vol.data.length) :
    ∃ t, appndStart s skcnt = some t := by
  have hrev := @arRev_reg { s with blksz := s.rdblksz }
    (roundUp (skcnt + (s.bufend - s.bufpt)) s.rdblksz) hlst hreg hvol
  obtain ⟨t, ht⟩ := @reread_reg
    { s with
        blksz := s.rdblksz
        pos := s.pos - roundUp (skcnt + (s.bufend - s.bufpt)) s.rdblksz
        lstrval := 1 }
    (roundUp (skcnt + (s.bufend - s.bufpt)) s.rdblksz - (skcnt + (s.bufend - s.bufpt)))
    rfl hreg hvol most hreads rfl hrd hmost hlen
  unfold appndStart
  rw [if_neg (by simp [hexit])]
  dsimp only
  rw [if_neg (by simp [hreg, hrec]), hrev]
  simp only [Option.bind_eq_bind, Option.bind_some, ht]
  exact ⟨_, rfl⟩

theorem length_flawed : flawed.vol.data.length = 20240 := by
  rw [show flawed.vol.data = List.replicate 9728 97 ++ List.replicate 10512 0 from rfl,
    List.length_append, List.length_replicate, List.length_replicate]

/-- The append succeeds, and does not start at the trailer. -/
theorem appndStart_flawed :
    flawed.Inv ∧ ∃ t, appndStart flawed 1024 = some t ∧ ¬ AtTrailer flawed t 9728 := by
  have hinv : flawed.Inv :=
    ⟨by rw [length_flawed]; decide, by decide, by decide, by decide, by decide⟩
  obtain ⟨t, ht⟩ : ∃ t, appndStart flawed 1024 = some t :=
    appndStart_reg rfl rfl rfl rfl rfl (fun _ => rfl) (by decide) (Nat.le_refl _)
      (by rw [length_flawed]; decide)
  refine ⟨hinv, t, ht, fun hat => ?_⟩
  have := (appndStart_iff hinv (by decide) ht).mp hat
  exact absurd this (by decide)

end Bsdi.Pax
