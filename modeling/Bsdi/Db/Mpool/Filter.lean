import Bsdi.Db.Mpool.Transparent

/-!
# Pages in another form on the file

A pool with filters: `pgin` turns a page that was read into the form the client works on, and
`pgout` turns it back in the buffer before it is written. After a sync the buffer stays cached, in
the form of the file.
-/

namespace Bsdi.Db.Pool

variable {n : Nat}

/-- The filters of a pool, `mp->pgin` and `mp->pgout` with their cookie. One undoes the
other. -/
structure Filters (n : Nat) where
  pgin : Nat → Page n → Page n
  pgout : Nat → Page n → Page n
  pgin_pgout : ∀ p page, pgin p (pgout p page) = page
  pgout_pgin : ∀ p page, pgout p (pgin p page) = page

theorem Mpool.eq_of {mp mp' : Mpool n} (hbkt : mp.bkt = mp'.bkt)
    (hfile : mp.file = mp'.file) (hrest : { mp with bkt := mp'.bkt, file := mp'.file } = mp') :
    mp = mp' := by
  rw [← hrest, ← hbkt, ← hfile]

namespace Filters

variable (F : Filters n)

/-- `mpool_write`: the page is filtered in its buffer. -/
def mpoolWrite (mp : Mpool n) (bp : Nat) : Mpool n :=
  let page := F.pgout (mp.bkt bp).pgno (mp.bkt bp).page
  { mp.set bp { mp.bkt bp with page := page, dirty := false } with
    file := mp.file.write (offset n (mp.bkt bp).pgno) page }

def flushBkt (mp : Mpool n) (bp : Nat) : Mpool n :=
  if (mp.bkt bp).dirty then F.mpoolWrite mp bp else mp

def mpoolBkt (mp : Mpool n) (malloc : Option (Page n)) : Mpool n × Option Nat :=
  if mp.curcache < mp.maxcache then mpoolBktNew mp malloc
  else
    match mp.lqh.find? fun bp => !(mp.bkt bp).pinned with
    | none => mpoolBktNew mp malloc
    | some bp => ((F.flushBkt mp bp).unlink bp, some bp)

/-- `mpool_new`: a new page is not filtered. -/
def mpoolNew (mp : Mpool n) (malloc : Option (Page n)) : Mpool n × Option Nat :=
  match F.mpoolBkt mp malloc with
  | (mp, none) => (mp, none)
  | (mp, some bp) =>
    let b : Bkt n := ⟨(mp.bkt bp).page, mp.npages, false, true⟩
    (({ mp with npages := mp.npages + 1 }.set bp b).link bp, some bp)

def mpoolGet (mp : Mpool n) (pgno : Nat) (malloc : Option (Page n)) : Mpool n × Option Nat :=
  if mp.npages ≤ pgno then (mp, none)
  else
    match mpoolLook mp pgno with
    | some bp =>
      let mp := (mp.unlink bp).link bp
      (mp.set bp { mp.bkt bp with pinned := true }, some bp)
    | none =>
      match F.mpoolBkt mp malloc with
      | (mp, none) => (mp, none)
      | (mp, some bp) =>
        let off := offset n pgno
        if mp.file.size < off + n then (mp, none)
        else ((mp.set bp ⟨F.pgin pgno (mp.file.read n off), pgno, false, true⟩).link bp, some bp)

def mpoolSync (mp : Mpool n) : Mpool n := mp.lqh.foldl F.flushBkt mp

def step (s : Sys n) : Op n → Sys n
  | .new malloc =>
    match F.mpoolNew s.mp malloc with
    | (mp, none) => { s with mp := mp }
    | (mp, some bp) =>
      ⟨mp, Function.update s.pages (mp.bkt bp).pgno (mp.bkt bp).page,
        Function.update s.owed bp true⟩
  | .get pgno malloc => { s with mp := (F.mpoolGet s.mp pgno malloc).1 }
  | .write bp page => s.step (.write bp page)
  | .put bp dirty => s.step (.put bp dirty)
  | .sync => { s with mp := F.mpoolSync s.mp }

def Fixes (mp : Mpool n) : Prop :=
  ∀ bp ∈ mp.lqh, (mp.bkt bp).dirty = true →
    F.pgout (mp.bkt bp).pgno (mp.bkt bp).page = (mp.bkt bp).page

/-- The client does what it may do without filters, and syncs only pages that are the same in
both forms. -/
def Admits (s : Sys n) (op : Op n) : Prop :=
  s.Admits op ∧ (op = .sync → F.Fixes s.mp)

def opened (file : File) (maxcache : Nat) (bkt : Nat → Bkt n) (brk : Nat) : Sys n :=
  ⟨mpoolOpen n file maxcache bkt brk, fun p => F.pgin p (file.read n (n * p)), fun _ => false⟩

/-- The states of a client that does what it may do. -/
inductive Reached (file : File) (maxcache : Nat) : Sys n → Prop
  | start (bkt : Nat → Bkt n) (brk : Nat) : Reached file maxcache (F.opened file maxcache bkt brk)
  | step {s : Sys n} (op : Op n) (h : Reached file maxcache s) (hop : F.Admits s op) :
      Reached file maxcache (F.step s op)

def decode (f : File) : File where
  bytes j := if h : 0 < n then
    F.pgin (j / n) (f.read n (n * (j / n))) ⟨j % n, Nat.mod_lt j h⟩ else f.bytes j
  size := f.size

def decodePool (mp : Mpool n) : Mpool n := { mp with file := F.decode mp.file }

def decodeSys (s : Sys n) : Sys n := { s with mp := F.decodePool s.mp }

variable {F} {s : Sys n} {mp : Mpool n} {bp : Nat}

theorem read_decode (f : File) (p : Nat) :
    (F.decode f).read n (n * p) = F.pgin p (f.read n (n * p)) := by
  funext i
  have hn : 0 < n := Nat.lt_of_le_of_lt (Nat.zero_le _) i.isLt
  have hdiv : (n * p + i) / n = p := by
    rw [Nat.mul_add_div hn, Nat.div_eq_of_lt i.isLt, Nat.add_zero]
  have hmod : (n * p + i) % n = i := by rw [Nat.mul_add_mod, Nat.mod_eq_of_lt i.isLt]
  simp only [File.read, decode, dif_pos hn, hdiv, hmod]

theorem decode_write (f : File) (p : Nat) (page : Page n) :
    F.decode (f.write (n * p) (F.pgout p page)) = (F.decode f).write (n * p) page := by
  have hsize : (F.decode (f.write (n * p) (F.pgout p page))).size =
      ((F.decode f).write (n * p) page).size := rfl
  have hbytes : (F.decode (f.write (n * p) (F.pgout p page))).bytes =
      ((F.decode f).write (n * p) page).bytes := by
    funext j
    by_cases hn : 0 < n
    · simp only [decode, dif_pos hn]
      by_cases hp : p = j / n
      · subst hp
        rw [File.read_write_self, F.pgin_pgout]
        have hj := Nat.div_add_mod j n
        have hlt := Nat.mod_lt j hn
        have hin : n * (j / n) ≤ j ∧ j - n * (j / n) < n := by omega
        simp only [File.write, dif_pos hin]
        congr 1
        exact Fin.ext (by simp only; omega)
      · rw [File.read_write_ne f hp]
        have hnot : ¬ (n * p ≤ j ∧ j - n * p < n) := by
          rintro ⟨hle, hlt⟩
          refine hp ((Nat.div_eq_of_lt_le ?_ ?_).symm)
          · rwa [Nat.mul_comm]
          · rw [Nat.succ_mul, Nat.mul_comm p n]
            omega
        simp only [File.write, dif_neg hnot, dif_pos hn]
    · simp only [decode, dif_neg hn, File.write]
      have hz : ∀ q, ¬ (n * q ≤ j ∧ j - n * q < n) :=
        fun q hq => hn (Nat.lt_of_le_of_lt (Nat.zero_le _) hq.2)
      rw [dif_neg (hz p), dif_neg (hz p)]
  cases hl : F.decode (f.write (n * p) (F.pgout p page))
  cases hr : (F.decode f).write (n * p) page
  rw [hl, hr] at hsize hbytes
  simp only at hsize hbytes
  rw [hsize, hbytes]

theorem decodePool_mpoolWrite (hoff : offset n (mp.bkt bp).pgno = n * (mp.bkt bp).pgno) :
    F.decodePool (F.mpoolWrite mp bp) =
      (Pool.mpoolWrite (F.decodePool mp) bp).set bp ((F.mpoolWrite mp bp).bkt bp) := by
  have hfile : F.decode (F.mpoolWrite mp bp).file =
      (F.decode mp.file).write (offset n (mp.bkt bp).pgno) (mp.bkt bp).page := by
    rw [mpoolWrite, hoff]
    exact decode_write mp.file _ _
  have hbkt : (F.mpoolWrite mp bp).bkt =
      Function.update (Pool.mpoolWrite (F.decodePool mp) bp).bkt bp
        ((F.mpoolWrite mp bp).bkt bp) := by
    funext bp'
    by_cases heq : bp' = bp
    · subst heq
      simp
    · rw [Function.update_of_ne heq, mpoolWrite_bkt, if_neg heq]
      exact Mpool.set_bkt_ne heq
  exact Mpool.eq_of hbkt hfile rfl

theorem decodePool_flushBkt (hoff : offset n (mp.bkt bp).pgno = n * (mp.bkt bp).pgno) :
    F.decodePool (F.flushBkt mp bp) =
      (Pool.flushBkt (F.decodePool mp) bp).set bp ((F.flushBkt mp bp).bkt bp) := by
  unfold flushBkt Pool.flushBkt
  by_cases hdirty : (mp.bkt bp).dirty = true
  · rw [if_pos hdirty, if_pos (show ((F.decodePool mp).bkt bp).dirty = true from hdirty)]
    exact decodePool_mpoolWrite hoff
  · rw [if_neg hdirty, if_neg (show ¬ ((F.decodePool mp).bkt bp).dirty = true from hdirty)]
    simp [Mpool.set, decodePool]

@[simp] theorem flushBkt_pgno (bp' : Nat) :
    ((F.flushBkt mp bp).bkt bp').pgno = (mp.bkt bp').pgno := by
  unfold flushBkt
  split
  · by_cases heq : bp' = bp
    · subst heq
      simp [mpoolWrite]
    · simp [mpoolWrite, heq]
  · rfl

theorem decodePool_unlink (hoff : offset n (mp.bkt bp).pgno = n * (mp.bkt bp).pgno) :
    F.decodePool ((F.flushBkt mp bp).unlink bp) =
      ((Pool.flushBkt (F.decodePool mp) bp).unlink bp).set bp ((F.flushBkt mp bp).bkt bp) := by
  have hflush := decodePool_flushBkt (F := F) hoff
  have hpgno : ((Pool.flushBkt (F.decodePool mp) bp).bkt bp).pgno = (mp.bkt bp).pgno := by
    obtain ⟨d, hd, -⟩ := (flushed_flushBkt (F.decodePool mp) bp).bkt bp
    rw [hd]
    rfl
  have hunlink : F.decodePool ((F.flushBkt mp bp).unlink bp) =
      (F.decodePool (F.flushBkt mp bp)).unlink bp := rfl
  rw [hunlink, hflush]
  simp only [Mpool.unlink, Mpool.set_bkt_self, flushBkt_pgno, hpgno]
  rfl

theorem bkt (h : (F.decodeSys s).Coherent) (malloc : Option (Page n)) :
    (malloc = none ∧ F.mpoolBkt s.mp malloc = (s.mp, none)) ∨
      ∃ mp' bp, F.mpoolBkt s.mp malloc = (mp', some bp) ∧
        Free (F.decodeSys s) (F.decodePool mp') bp := by
  have hnew : (malloc = none ∧ mpoolBktNew s.mp malloc = (s.mp, none)) ∨
      ∃ mp' bp, mpoolBktNew s.mp malloc = (mp', some bp) ∧
        Free (F.decodeSys s) (F.decodePool mp') bp := by
    cases malloc with
    | none => exact Or.inl ⟨rfl, rfl⟩
    | some page =>
      obtain ⟨mp', heq, hfree⟩ := h.bktNew page
      obtain ⟨rfl, -⟩ := Prod.mk.inj heq
      exact Or.inr ⟨_, _, rfl, hfree⟩
  unfold mpoolBkt
  by_cases hroom : s.mp.curcache < s.mp.maxcache
  · rw [if_pos hroom]
    exact hnew
  rw [if_neg hroom]
  cases hfind : s.mp.lqh.find? fun bp => !(s.mp.bkt bp).pinned with
  | none => exact hnew
  | some bp =>
    have hpin : (s.mp.bkt bp).pinned = false := by simpa using List.find?_some hfind
    have hbp : bp ∈ s.mp.lqh := List.mem_of_find?_eq_some hfind
    have hoff : offset n (s.mp.bkt bp).pgno = n * (s.mp.bkt bp).pgno := h.offset_bkt hbp
    refine Or.inr ⟨_, bp, rfl, ?_⟩
    rw [decodePool_unlink hoff]
    exact (h.evict hbp hpin).set _

theorem coherent_new (h : (F.decodeSys s).Coherent) (malloc : Option (Page n))
    (hsmall : n * (s.mp.npages + 1) < 2 ^ 32) :
    (F.decodeSys (F.step s (.new malloc))).Coherent := by
  rw [step, mpoolNew]
  rcases bkt h malloc with ⟨-, heq⟩ | ⟨mp', bp, heq, hfree⟩
  · rw [heq]
    exact h
  rw [heq]
  have hself : ((({ mp' with npages := mp'.npages + 1 }.set bp
      ⟨(mp'.bkt bp).page, mp'.npages, false, true⟩).link bp).bkt bp) =
        ⟨(mp'.bkt bp).page, mp'.npages, false, true⟩ := Mpool.set_bkt_self
  simp only [hself]
  -- the page left in the buffer may be in the form of the file; it is new all the same
  exact hfree.fillNew (mp'.bkt bp).page hsmall

theorem got (h : (F.decodeSys s).Coherent) (pgno : Nat) (malloc : Option (Page n)) :
    Got (F.decodeSys s) pgno malloc
      (F.decodePool (F.mpoolGet s.mp pgno malloc).1, (F.mpoolGet s.mp pgno malloc).2) := by
  have hplain := h.get pgno malloc
  unfold mpoolGet
  unfold Pool.mpoolGet at hplain
  by_cases hout : s.mp.npages ≤ pgno
  · rw [if_pos hout]
    rwa [if_pos (show (F.decodeSys s).mp.npages ≤ pgno from hout)] at hplain
  rw [if_neg hout]
  rw [if_neg (show ¬ (F.decodeSys s).mp.npages ≤ pgno from hout)] at hplain
  have hlook : mpoolLook (F.decodeSys s).mp pgno = mpoolLook s.mp pgno := rfl
  rw [hlook] at hplain
  cases hfound : mpoolLook s.mp pgno with
  | some bp =>
    rw [hfound] at hplain
    exact hplain
  | none =>
    have hnone := h.look.2 (hlook.trans hfound)
    rcases bkt h malloc with ⟨hnull, heq⟩ | ⟨mp', bp, heq, hfree⟩
    · simp only [heq]
      exact ⟨h, fun bp hbp hpin => ⟨hbp, rfl, rfl, hpin⟩, fun _ _ => hnull, by simp⟩
    simp only [heq]
    obtain ⟨hoff, hfile, hcoh⟩ := hfree.fillOld (Nat.not_le.1 hout) hnone
    have hsize : ¬ mp'.file.size < offset n pgno + n := by
      rw [hoff]
      exact Nat.not_lt.2 hfile.2
    have hpage : F.pgin pgno (mp'.file.read n (n * pgno)) = s.pages pgno :=
      (read_decode mp'.file pgno).symm.trans hfile.1
    rw [if_neg hsize, hoff, hpage]
    refine
      { coherent := hcoh
        kept := fun bp' hbp' hpin => hfree.kept hbp' hpin
        null := by simp
        page := ?_ }
    rintro bp' ⟨⟩
    refine ⟨Mpool.mem_link_lqh.2 (Or.inr rfl), ?_⟩
    have hself : ((mp'.set bp ⟨s.pages pgno, pgno, false, true⟩).link bp).bkt bp =
        ⟨s.pages pgno, pgno, false, true⟩ := Mpool.set_bkt_self
    show (((mp'.set bp ⟨s.pages pgno, pgno, false, true⟩).link bp).bkt bp).pgno = pgno ∧ _
    simp only [decodePool, hself]
    exact ⟨trivial, rfl, trivial⟩

theorem bkt_flushBkt (bp' : Nat) : (F.flushBkt mp bp).bkt bp' =
    if bp' = bp ∧ (mp.bkt bp').dirty = true then
      { mp.bkt bp' with page := F.pgout (mp.bkt bp').pgno (mp.bkt bp').page, dirty := false }
    else mp.bkt bp' := by
  unfold flushBkt
  by_cases heq : bp' = bp
  · subst heq
    by_cases hdirty : (mp.bkt bp').dirty = true
    · simp [hdirty, mpoolWrite]
    · simp [hdirty]
  · have hnot : ¬ (bp' = bp ∧ (mp.bkt bp').dirty = true) := fun h => heq h.1
    rw [if_neg hnot]
    split
    · exact Mpool.set_bkt_ne heq
    · rfl

theorem frame_flushBkt (F : Filters n) (mp : Mpool n) (bp : Nat) :
    (F.flushBkt mp bp).lqh = mp.lqh ∧ (F.flushBkt mp bp).hqh = mp.hqh ∧
    (F.flushBkt mp bp).npages = mp.npages := by
  unfold flushBkt
  split
  · exact ⟨rfl, rfl, rfl⟩
  · exact ⟨rfl, rfl, rfl⟩

theorem frame_flushAll (l : List Nat) : (l.foldl F.flushBkt mp).lqh = mp.lqh ∧
    (l.foldl F.flushBkt mp).hqh = mp.hqh ∧ (l.foldl F.flushBkt mp).npages = mp.npages := by
  induction l generalizing mp with
  | nil => exact ⟨rfl, rfl, rfl⟩
  | cons bp l ih =>
    obtain ⟨hlqh, hhqh, hnpages⟩ := @ih (F.flushBkt mp bp)
    obtain ⟨hlqh', hhqh', hnpages'⟩ := frame_flushBkt F mp bp
    exact ⟨hlqh.trans hlqh', hhqh.trans hhqh', hnpages.trans hnpages'⟩

theorem bkt_flushAll (l : List Nat) (bp : Nat) : (l.foldl F.flushBkt mp).bkt bp =
    if bp ∈ l ∧ (mp.bkt bp).dirty = true then
      { mp.bkt bp with page := F.pgout (mp.bkt bp).pgno (mp.bkt bp).page, dirty := false }
    else mp.bkt bp := by
  induction l generalizing mp with
  | nil => simp
  | cons b l ih =>
    rw [List.foldl_cons, ih, bkt_flushBkt]
    -- a buffer that was flushed once is clean and is not flushed again
    by_cases hdirty : (mp.bkt bp).dirty = true
    · by_cases heq : bp = b
      · simp [heq, heq ▸ hdirty]
      · simp [heq, hdirty]
    · simp [hdirty]

theorem read_flushAll {l : List Nat} {p : Nat}
    (hoff : ∀ bp ∈ l, offset n (mp.bkt bp).pgno = n * (mp.bkt bp).pgno)
    (hne : ∀ bp ∈ l, (mp.bkt bp).pgno ≠ p) :
    (l.foldl F.flushBkt mp).file.read n (n * p) = mp.file.read n (n * p) := by
  induction l generalizing mp with
  | nil => rfl
  | cons b l ih =>
    rw [List.foldl_cons, ih]
    · unfold flushBkt
      split
      · rw [mpoolWrite, hoff b (by simp)]
        exact File.read_write_ne mp.file (hne b (by simp)) _
      · rfl
    · intro bp hbp
      rw [flushBkt_pgno]
      exact hoff bp (List.mem_cons_of_mem b hbp)
    · intro bp hbp
      rw [flushBkt_pgno]
      exact hne bp (List.mem_cons_of_mem b hbp)

theorem decodePool_flushAll {l : List Nat} (hl : ∀ bp ∈ l, bp ∈ mp.lqh)
    (hoff : ∀ bp ∈ mp.lqh, offset n (mp.bkt bp).pgno = n * (mp.bkt bp).pgno)
    (hfix : F.Fixes mp) :
    F.decodePool (l.foldl F.flushBkt mp) = l.foldl Pool.flushBkt (F.decodePool mp) := by
  induction l generalizing mp with
  | nil => rfl
  | cons b l ih =>
    have hb := hl b (by simp)
    have hstep : F.decodePool (F.flushBkt mp b) = Pool.flushBkt (F.decodePool mp) b := by
      rw [decodePool_flushBkt (hoff b hb)]
      refine Mpool.eq_of ?_ rfl rfl
      funext bp'
      by_cases heq : bp' = b
      · subst heq
        rw [Mpool.set_bkt_self, bkt_flushBkt]
        unfold Pool.flushBkt
        by_cases hdirty : (mp.bkt bp').dirty = true
        · rw [if_pos ⟨rfl, hdirty⟩, hfix bp' hb hdirty,
            if_pos (show ((F.decodePool mp).bkt bp').dirty = true from hdirty), mpoolWrite_bkt,
            if_pos rfl]
          rfl
        · rw [if_neg fun h => hdirty h.2,
            if_neg (show ¬ ((F.decodePool mp).bkt bp').dirty = true from hdirty)]
          rfl
      · exact Mpool.set_bkt_ne heq
    have hlqh := (frame_flushBkt F mp b).1
    rw [List.foldl_cons, List.foldl_cons, ← hstep]
    refine ih (fun bp hbp => ?_) (fun bp hbp => ?_) fun bp hbp hdirty => ?_
    · rw [hlqh]
      exact hl bp (List.mem_cons_of_mem b hbp)
    · rw [flushBkt_pgno]
      exact hoff bp (hlqh ▸ hbp)
    · rw [hlqh] at hbp
      rw [bkt_flushBkt] at hdirty ⊢
      split at hdirty
      · exact nomatch hdirty
      · rename_i hnot
        rw [if_neg hnot]
        exact hfix bp hbp hdirty

theorem coherent_step (h : (F.decodeSys s).Coherent) {op : Op n} (hop : F.Admits s op) :
    (F.decodeSys (F.step s op)).Coherent := by
  cases op with
  | new malloc => exact coherent_new h malloc hop.1
  | get pgno malloc => exact (got h pgno malloc).coherent
  | write bp page =>
    have hstep : ((F.decodeSys s).step (.write bp page)).Coherent := h.step hop.1
    exact hstep
  | put bp dirty =>
    have hstep : ((F.decodeSys s).step (.put bp dirty)).Coherent := h.step hop.1
    exact hstep
  | sync =>
    have hsync : F.decodeSys (F.step s .sync) = (F.decodeSys s).step .sync := by
      have hpool : F.decodePool (F.mpoolSync s.mp) = Pool.mpoolSync (F.decodePool s.mp) :=
        decodePool_flushAll (fun _ => id) (fun bp hbp => h.offset_bkt hbp) (hop.2 rfl)
      exact congrArg (fun mp => ({ s with mp := mp } : Sys n)) hpool
    rw [hsync]
    exact h.sync.1

theorem Reached.coherent {file : File} {maxcache : Nat} (h : F.Reached file maxcache s)
    (hsize : file.size < 2 ^ 32) : (F.decodeSys s).Coherent := by
  induction h with
  | start bkt brk =>
    have hopened := Sys.coherent_opened (n := n) (F.decode file) maxcache bkt brk hsize
    have hpages : (Sys.opened n (F.decode file) maxcache bkt brk).pages =
        (F.opened file maxcache bkt brk).pages := by
      funext p
      exact read_decode file p
    have heq : F.decodeSys (F.opened file maxcache bkt brk) =
        Sys.opened n (F.decode file) maxcache bkt brk := by
      simp only [decodeSys, ← hpages]
      rfl
    rw [heq]
    exact hopened
  | step op _ hop ih => exact coherent_step ih hop

theorem pgno_flushAll (l : List Nat) (bp : Nat) :
    ((l.foldl F.flushBkt mp).bkt bp).pgno = (mp.bkt bp).pgno := by
  rw [bkt_flushAll]
  split
  · rfl
  · rfl

theorem mpoolLook_sync (pgno : Nat) : mpoolLook (F.mpoolSync mp) pgno = mpoolLook mp pgno := by
  unfold mpoolLook mpoolSync
  rw [(frame_flushAll mp.lqh).2.1]
  congr 1
  funext bp
  rw [pgno_flushAll]

theorem get_sync_cached (h : (F.decodeSys s).Coherent) (hbp : bp ∈ s.mp.lqh)
    (malloc : Option (Page n)) :
    (F.mpoolGet (F.mpoolSync s.mp) (s.mp.bkt bp).pgno malloc).2 = some bp ∧
      ((F.mpoolGet (F.mpoolSync s.mp) (s.mp.bkt bp).pgno malloc).1.bkt bp).page =
        if (s.mp.bkt bp).dirty = true then F.pgout (s.mp.bkt bp).pgno (s.mp.bkt bp).page
        else (s.mp.bkt bp).page := by
  have hlook : mpoolLook (F.mpoolSync s.mp) (s.mp.bkt bp).pgno = some bp := by
    rw [mpoolLook_sync]
    cases hfound : mpoolLook s.mp (s.mp.bkt bp).pgno with
    | none => exact absurd rfl (h.look.2 hfound bp hbp)
    | some bp' =>
      obtain ⟨hbp', hpgno⟩ := h.look.1 bp' hfound
      rw [h.unique bp' hbp' bp hbp hpgno]
  have hin : ¬ (F.mpoolSync s.mp).npages ≤ (s.mp.bkt bp).pgno := by
    have hlt : (s.mp.bkt bp).pgno < s.mp.npages := h.inFile bp hbp
    rw [mpoolSync, (frame_flushAll _).2.2]
    omega
  have hpage : ((F.mpoolSync s.mp).bkt bp).page =
      if (s.mp.bkt bp).dirty = true then F.pgout (s.mp.bkt bp).pgno (s.mp.bkt bp).page
      else (s.mp.bkt bp).page := by
    rw [mpoolSync, bkt_flushAll]
    by_cases hdirty : (s.mp.bkt bp).dirty = true
    · rw [if_pos ⟨hbp, hdirty⟩, if_pos hdirty]
    · rw [if_neg fun h => hdirty h.2, if_neg hdirty]
  rw [mpoolGet, if_neg hin, hlook]
  refine ⟨rfl, ?_⟩
  rw [← hpage]
  simp only [Mpool.set_bkt_self]
  rfl

theorem file_mpoolBkt_clean (hclean : ∀ bp ∈ mp.lqh, (mp.bkt bp).dirty = false)
    (malloc : Option (Page n)) : (F.mpoolBkt mp malloc).1.file = mp.file := by
  have hnew : (mpoolBktNew mp malloc).1.file = mp.file := by
    cases malloc with
    | none => rfl
    | some page => rfl
  unfold mpoolBkt
  split
  · exact hnew
  · split
    · exact hnew
    · rename_i bp hfind
      have hbp : bp ∈ mp.lqh := List.mem_of_find?_eq_some hfind
      rw [flushBkt, if_neg (by rw [hclean bp hbp]; exact Bool.false_ne_true)]
      rfl

theorem get_sync_uncached (h : (F.decodeSys s).Coherent) {pgno : Nat} (hlt : pgno < s.mp.npages)
    (hnone : ∀ bp ∈ s.mp.lqh, (s.mp.bkt bp).pgno ≠ pgno) (malloc : Option (Page n)) :
    ∀ bp ∈ (F.mpoolGet (F.mpoolSync s.mp) pgno malloc).2,
      ((F.mpoolGet (F.mpoolSync s.mp) pgno malloc).1.bkt bp).page = s.pages pgno := by
  have hlook : mpoolLook (F.mpoolSync s.mp) pgno = none := by
    rw [mpoolLook_sync]
    cases hfound : mpoolLook s.mp pgno with
    | none => rfl
    | some bp =>
      obtain ⟨hbp, hpgno⟩ := h.look.1 bp hfound
      exact absurd hpgno (hnone bp hbp)
  have hin : ¬ (F.mpoolSync s.mp).npages ≤ pgno := by
    rw [mpoolSync, (frame_flushAll _).2.2]
    omega
  have hclean : ∀ bp ∈ (F.mpoolSync s.mp).lqh, ((F.mpoolSync s.mp).bkt bp).dirty = false := by
    intro bp hbp
    rw [mpoolSync, (frame_flushAll _).1] at hbp
    rw [mpoolSync, bkt_flushAll]
    by_cases hdirty : (s.mp.bkt bp).dirty = true
    · rw [if_pos ⟨hbp, hdirty⟩]
    · rw [if_neg fun h => hdirty h.2]
      exact Bool.eq_false_iff.2 hdirty
  have hoff : offset n pgno = n * pgno := by
    refine offset_eq (Nat.lt_of_le_of_lt ?_ h.small)
    exact Nat.mul_le_mul_left n (Nat.le_of_lt hlt)
  have hoffs : ∀ bp ∈ s.mp.lqh, offset n (s.mp.bkt bp).pgno = n * (s.mp.bkt bp).pgno :=
    fun bp hbp => h.offset_bkt hbp
  have hread : F.pgin pgno ((F.mpoolSync s.mp).file.read n (n * pgno)) = s.pages pgno := by
    rw [mpoolSync, read_flushAll hoffs hnone, ← read_decode]
    exact (h.evicted pgno hlt hnone).1
  have hfile : (F.mpoolBkt (F.mpoolSync s.mp) malloc).1.file = (F.mpoolSync s.mp).file :=
    file_mpoolBkt_clean hclean malloc
  rw [mpoolGet, if_neg hin, hlook]
  -- the buffer may be any one, what is read into it is the page of the file
  rcases hbkt : F.mpoolBkt (F.mpoolSync s.mp) malloc with ⟨mp', _ | bp⟩
  · simp
  · rw [hbkt] at hfile
    simp only [hoff]
    split
    · simp
    · rintro bp' ⟨⟩
      rw [show mp'.file = (F.mpoolSync s.mp).file from hfile, hread]
      exact congrArg Bkt.page Mpool.set_bkt_self

/-- In every state a client reaches: a page is got with the contents last left in it, whether it
was evicted or not. After a sync this is so for a page that was cached just when it was not dirty
or the output filter leaves it alone, and for every other page. -/
theorem get_after_sync (F : Filters n) (file : File) (maxcache : Nat) (hsize : file.size < 2 ^ 32)
    (s : Sys n) (h : F.Reached file maxcache s) :
    (∀ pgno < s.mp.npages, ∀ malloc,
        (malloc ≠ none → (F.mpoolGet s.mp pgno malloc).2 ≠ none) ∧
        ∀ bp ∈ (F.mpoolGet s.mp pgno malloc).2,
          ((F.mpoolGet s.mp pgno malloc).1.bkt bp).page = s.pages pgno) ∧
      (∀ bp ∈ s.mp.lqh, ∀ malloc,
        (F.mpoolGet (F.mpoolSync s.mp) (s.mp.bkt bp).pgno malloc).2 = some bp ∧
        (((F.mpoolGet (F.mpoolSync s.mp) (s.mp.bkt bp).pgno malloc).1.bkt bp).page =
            s.pages (s.mp.bkt bp).pgno ↔
          ((s.mp.bkt bp).dirty = true →
            F.pgout (s.mp.bkt bp).pgno (s.mp.bkt bp).page = (s.mp.bkt bp).page))) ∧
      ∀ pgno < s.mp.npages, (∀ bp ∈ s.mp.lqh, (s.mp.bkt bp).pgno ≠ pgno) → ∀ malloc,
        ∀ bp ∈ (F.mpoolGet (F.mpoolSync s.mp) pgno malloc).2,
          ((F.mpoolGet (F.mpoolSync s.mp) pgno malloc).1.bkt bp).page = s.pages pgno := by
  have hcoh := h.coherent hsize
  refine ⟨fun pgno hlt malloc => ?_, fun bp hbp malloc => ?_,
    fun pgno hlt hnone malloc => get_sync_uncached hcoh hlt hnone malloc⟩
  · have hgot := got hcoh pgno malloc
    refine ⟨fun hsome hnull => hsome (hgot.null hlt hnull), fun bp hbp => ?_⟩
    obtain ⟨-, -, hpage, -⟩ := hgot.page bp hbp
    exact hpage
  · obtain ⟨hsome, hpage⟩ := get_sync_cached hcoh hbp malloc
    refine ⟨hsome, ?_⟩
    have hcached : (s.mp.bkt bp).page = s.pages (s.mp.bkt bp).pgno := hcoh.cached bp hbp
    rw [hpage, ← hcached]
    by_cases hdirty : (s.mp.bkt bp).dirty = true
    · simp [hdirty]
    · simp [hdirty]

def swapped : Filters 2 where
  pgin _ page i := page (1 - i)
  pgout _ page i := page (1 - i)
  pgin_pgout _ page := funext fun
    | 0 => rfl
    | 1 => rfl
  pgout_pgin _ page := funext fun
    | 0 => rfl
    | 1 => rfl

/-- A client that starts with a file of two pages of zeros and has got page 0. -/
def first : Sys 2 :=
  swapped.step (swapped.opened ⟨fun _ => 0, 4⟩ 1 (fun _ => ⟨fun _ => 0, 0, false, false⟩) 0)
    (.get 0 (some fun _ => 9))

def changed (page : Page 2) : Sys 2 :=
  swapped.step (swapped.step first (.write 0 page)) (.put 0 true)

theorem reached_changed (page : Page 2) :
    swapped.Reached ⟨fun _ => 0, 4⟩ 1 (changed page) := by
  have hfirst : swapped.Reached ⟨fun _ => 0, 4⟩ 1 first :=
    (Reached.start _ _).step (.get 0 (some fun _ => 9)) ⟨trivial, nofun⟩
  have hpinned : 0 ∈ first.mp.lqh ∧ (first.mp.bkt 0).pinned = true := by decide +kernel
  exact (hfirst.step (.write 0 page) ⟨hpinned, nofun⟩).step (.put 0 true)
    ⟨⟨hpinned.1, hpinned.2, fun _ => rfl⟩, nofun⟩

theorem get_after_sync_equal :
    ((swapped.mpoolGet (swapped.mpoolSync (changed fun _ => 7).mp) 0 none).1.bkt 0).page =
      (changed fun _ => 7).pages 0 := by
  have hsync := get_after_sync swapped ⟨fun _ => 0, 4⟩ 1 (by decide) (changed fun _ => 7)
    (reached_changed _)
  refine ((hsync.2.1 0 (by decide +kernel) none).2).2 fun _ => ?_
  funext i
  rfl

/-- A page with two different bytes is not the same after a sync. -/
theorem get_after_sync_swapped :
    ¬ ∀ (n : Nat) (F : Filters n) (file : File) (maxcache : Nat) (s : Sys n),
      file.size < 2 ^ 32 → F.Reached file maxcache s →
      ∀ bp ∈ s.mp.lqh, (s.mp.bkt bp).dirty = true → ∀ malloc,
        ((F.mpoolGet (F.mpoolSync s.mp) (s.mp.bkt bp).pgno malloc).1.bkt bp).page =
          (s.mp.bkt bp).page := by
  intro hclaim
  have hpage := hclaim 2 swapped ⟨fun _ => 0, 4⟩ 1 (changed fun i => if i = 0 then 1 else 2)
    (by decide) (reached_changed _) 0 (by decide +kernel) (by decide +kernel) none
  exact absurd (congrFun hpage 0) (by decide +kernel)

end Filters

end Bsdi.Db.Pool
