import Bsdi.Db.Mpool.Pool

/-!
# The memory pool is transparent

A client sees the pages of the file through the pool. It gets buffers, changes them while they are
pinned and gives them back, as dirty if it made or changed the page. Each page is found with the
contents the client left in it.
-/

namespace Bsdi.Db.Pool

variable {n : Nat}

/-- A pool and its client. -/
structure Sys (n : Nat) where
  mp : Mpool n
  /-- The bytes last left in each page. -/
  pages : Nat → Page n
  /-- The page in the buffer was made or changed and is not given back yet. -/
  owed : Nat → Bool

inductive Op (n : Nat)
  | new (malloc : Option (Page n))
  | get (pgno : Nat) (malloc : Option (Page n))
  /-- The client changes the page in a buffer. -/
  | write (bp : Nat) (page : Page n)
  | put (bp : Nat) (dirty : Bool)
  | sync

def Sys.step (s : Sys n) : Op n → Sys n
  | .new malloc =>
    match mpoolNew s.mp malloc with
    | (mp, none) => { s with mp := mp }
    | (mp, some bp) =>
      ⟨mp, Function.update s.pages (mp.bkt bp).pgno (mp.bkt bp).page,
        Function.update s.owed bp true⟩
  | .get pgno malloc => { s with mp := (mpoolGet s.mp pgno malloc).1 }
  | .write bp page =>
    ⟨s.mp.set bp { s.mp.bkt bp with page := page },
      Function.update s.pages (s.mp.bkt bp).pgno page, Function.update s.owed bp true⟩
  | .put bp dirty => ⟨mpoolPut s.mp bp dirty, s.pages, Function.update s.owed bp false⟩
  | .sync => { s with mp := mpoolSync s.mp }

/-- What the client may do: the file stays below 2^32 bytes, only pinned buffers are changed
and given back, and a page that was made or changed is given back as dirty. -/
def Sys.Admits (s : Sys n) : Op n → Prop
  | .new _ => n * (s.mp.npages + 1) < 2 ^ 32
  | .get _ _ => True
  | .write bp _ => bp ∈ s.mp.lqh ∧ (s.mp.bkt bp).pinned = true
  | .put bp dirty => bp ∈ s.mp.lqh ∧ (s.mp.bkt bp).pinned = true ∧
      (s.owed bp = true → dirty = true)
  | .sync => True

instance (s : Sys n) (op : Op n) : Decidable (s.Admits op) :=
  match op with
  | .new _ => inferInstanceAs (Decidable (_ < _))
  | .get _ _ => isTrue trivial
  | .write _ _ => inferInstanceAs (Decidable (_ ∧ _))
  | .put _ _ => inferInstanceAs (Decidable (_ ∧ _))
  | .sync => isTrue trivial

def Sys.opened (n : Nat) (file : File) (maxcache : Nat) (bkt : Nat → Bkt n) (brk : Nat) : Sys n :=
  ⟨mpoolOpen n file maxcache bkt brk, fun p => file.read n (n * p), fun _ => false⟩

/-- The states of a client that does what it may do. -/
inductive Reached (file : File) (maxcache : Nat) : Sys n → Prop
  | start (bkt : Nat → Bkt n) (brk : Nat) : Reached file maxcache (Sys.opened n file maxcache bkt brk)
  | step {s : Sys n} (op : Op n) (h : Reached file maxcache s) (hop : s.Admits op) :
      Reached file maxcache (s.step op)

/-- Page `p` of the file is what the client left in it. -/
def Sys.OnFile (s : Sys n) (p : Nat) : Prop :=
  s.mp.file.read n (n * p) = s.pages p ∧ n * p + n ≤ s.mp.file.size

structure Sys.Coherent (s : Sys n) : Prop where
  nodup : s.mp.lqh.Nodup
  allocated : ∀ bp ∈ s.mp.lqh, bp < s.mp.brk
  nodupHash : ∀ k, (s.mp.hqh k).Nodup
  /-- A buffer is on the lru chain and on the hash chain of its page, or on no chain. -/
  chains : ∀ k bp, bp ∈ s.mp.hqh k ↔ bp ∈ s.mp.lqh ∧ hashkey (s.mp.bkt bp).pgno = k
  /-- At most one buffer holds a page. -/
  unique : ∀ bp ∈ s.mp.lqh, ∀ bp' ∈ s.mp.lqh, (s.mp.bkt bp).pgno = (s.mp.bkt bp').pgno → bp = bp'
  inFile : ∀ bp ∈ s.mp.lqh, (s.mp.bkt bp).pgno < s.mp.npages
  small : n * s.mp.npages < 2 ^ 32
  cached : ∀ bp ∈ s.mp.lqh, (s.mp.bkt bp).page = s.pages (s.mp.bkt bp).pgno
  /-- A buffer that is not dirty, and will not be, has the page of the file. -/
  clean : ∀ bp ∈ s.mp.lqh, (s.mp.bkt bp).dirty = false → s.owed bp = false →
    s.OnFile (s.mp.bkt bp).pgno
  /-- A page that no buffer holds is on the file. -/
  evicted : ∀ p < s.mp.npages, (∀ bp ∈ s.mp.lqh, (s.mp.bkt bp).pgno ≠ p) → s.OnFile p
  owed : ∀ bp, s.owed bp = true → bp ∈ s.mp.lqh ∧ (s.mp.bkt bp).pinned = true

/-! ### The file -/

theorem offset_eq {p : Nat} (h : n * p < 2 ^ 32) : offset n p = n * p := Nat.mod_eq_of_lt h

@[simp] theorem File.read_write_self (f : File) (off : Nat) (page : Page n) :
    (f.write off page).read n off = page := by
  funext i
  simp [File.read, File.write]

theorem File.read_write_ne (f : File) {p q : Nat} (h : p ≠ q) (page : Page n) :
    (f.write (n * p) page).read n (n * q) = f.read n (n * q) := by
  funext i
  have hi := i.isLt
  have hnot : ¬ (n * p ≤ n * q + i ∧ n * q + i - n * p < n) := by
    rintro ⟨hle, hlt⟩
    rcases Nat.lt_or_gt_of_ne h with hpq | hpq
    · have := Nat.mul_le_mul_left n (Nat.succ_le_of_lt hpq)
      rw [Nat.mul_succ] at this
      omega
    · have := Nat.mul_le_mul_left n (Nat.succ_le_of_lt hpq)
      rw [Nat.mul_succ] at this
      omega
  simp only [File.read, File.write, dif_neg hnot]

/-! ### Changing one buffer -/

section set

variable {mp : Mpool n} {bp : Nat} {b : Bkt n}

@[simp] theorem Mpool.set_bkt_self : (mp.set bp b).bkt bp = b := by simp [Mpool.set]

@[simp] theorem Mpool.set_bkt_ne {bp' : Nat} (h : bp' ≠ bp) : (mp.set bp b).bkt bp' = mp.bkt bp' := by
  simp [Mpool.set, h]

@[simp] theorem Mpool.set_lqh : (mp.set bp b).lqh = mp.lqh := rfl

@[simp] theorem Mpool.set_hqh : (mp.set bp b).hqh = mp.hqh := rfl

@[simp] theorem Mpool.set_npages : (mp.set bp b).npages = mp.npages := rfl

@[simp] theorem Mpool.set_file : (mp.set bp b).file = mp.file := rfl

@[simp] theorem Mpool.set_brk : (mp.set bp b).brk = mp.brk := rfl

end set

variable {s : Sys n} {mp : Mpool n} {bp : Nat}

/-! ### Flushing -/

@[simp] theorem mpoolWrite_lqh : (mpoolWrite mp bp).lqh = mp.lqh := rfl

@[simp] theorem mpoolWrite_hqh : (mpoolWrite mp bp).hqh = mp.hqh := rfl

@[simp] theorem mpoolWrite_npages : (mpoolWrite mp bp).npages = mp.npages := rfl

@[simp] theorem mpoolWrite_brk : (mpoolWrite mp bp).brk = mp.brk := rfl

theorem mpoolWrite_bkt (bp' : Nat) : (mpoolWrite mp bp).bkt bp' =
    { mp.bkt bp' with dirty := if bp' = bp then false else (mp.bkt bp').dirty } := by
  by_cases h : bp' = bp
  · subst h
    simp [mpoolWrite]
  · simp [mpoolWrite, h]

@[simp] theorem mpoolWrite_pgno (bp' : Nat) :
    ((mpoolWrite mp bp).bkt bp').pgno = (mp.bkt bp').pgno := by
  rw [mpoolWrite_bkt]

@[simp] theorem mpoolWrite_page (bp' : Nat) :
    ((mpoolWrite mp bp).bkt bp').page = (mp.bkt bp').page := by
  rw [mpoolWrite_bkt]

@[simp] theorem mpoolWrite_pinned (bp' : Nat) :
    ((mpoolWrite mp bp).bkt bp').pinned = (mp.bkt bp').pinned := by
  rw [mpoolWrite_bkt]

theorem Sys.Coherent.offset_bkt (h : s.Coherent) (hbp : bp ∈ s.mp.lqh) :
    offset n (s.mp.bkt bp).pgno = n * (s.mp.bkt bp).pgno := by
  refine offset_eq (Nat.lt_of_le_of_lt ?_ h.small)
  exact Nat.mul_le_mul_left n (Nat.le_of_lt (h.inFile bp hbp))

theorem Sys.Coherent.onFile_write (h : s.Coherent) (hbp : bp ∈ s.mp.lqh) {p : Nat}
    (hp : p = (s.mp.bkt bp).pgno ∨ s.OnFile p) :
    Sys.OnFile { s with mp := mpoolWrite s.mp bp } p := by
  have hfile : (mpoolWrite s.mp bp).file =
      s.mp.file.write (n * (s.mp.bkt bp).pgno) (s.mp.bkt bp).page := by
    rw [← h.offset_bkt hbp]
    rfl
  by_cases heq : (s.mp.bkt bp).pgno = p
  · refine ⟨?_, ?_⟩
    · rw [hfile, heq, File.read_write_self, h.cached bp hbp, heq]
    · rw [hfile, heq]
      exact Nat.le_max_right _ _
  · obtain ⟨hread, hsize⟩ := hp.resolve_left fun h => heq h.symm
    refine ⟨?_, ?_⟩
    · rw [hfile, File.read_write_ne _ heq, hread]
    · rw [hfile]
      exact Nat.le_trans hsize (Nat.le_max_left _ _)

theorem Sys.Coherent.write (h : s.Coherent) (hbp : bp ∈ s.mp.lqh) :
    Sys.Coherent { s with mp := mpoolWrite s.mp bp } where
  nodup := h.nodup
  allocated := h.allocated
  nodupHash := h.nodupHash
  chains k bp' := by simpa using h.chains k bp'
  unique bp₁ h₁ bp₂ h₂ heq := h.unique bp₁ h₁ bp₂ h₂ (by simpa using heq)
  inFile bp' hbp' := by simpa using h.inFile bp' hbp'
  small := h.small
  cached bp' hbp' := by simpa using h.cached bp' hbp'
  clean bp' hbp' hdirty howed := by
    simp only [mpoolWrite_pgno]
    apply h.onFile_write hbp
    by_cases heq : bp' = bp
    · exact Or.inl (by rw [heq])
    · rw [mpoolWrite_bkt, if_neg heq] at hdirty
      exact Or.inr (h.clean bp' hbp' hdirty howed)
  evicted p hp hnone := by
    apply h.onFile_write hbp
    exact Or.inr (h.evicted p hp fun bp' hbp' => by simpa using hnone bp' hbp')
  owed bp' howed := by simpa using h.owed bp' howed

structure Flushed (mp mp' : Mpool n) : Prop where
  lqh : mp'.lqh = mp.lqh
  npages : mp'.npages = mp.npages
  brk : mp'.brk = mp.brk
  bkt : ∀ bp, ∃ d, mp'.bkt bp = { mp.bkt bp with dirty := d } ∧ (d = true → (mp.bkt bp).dirty = true)

theorem flushed_flushBkt (mp : Mpool n) (bp : Nat) : Flushed mp (flushBkt mp bp) := by
  unfold flushBkt
  split
  · refine ⟨rfl, rfl, rfl, fun bp' => ⟨_, mpoolWrite_bkt bp', ?_⟩⟩
    split <;> simp
  · exact ⟨rfl, rfl, rfl, fun bp' => ⟨_, rfl, id⟩⟩

theorem Sys.Coherent.flush (h : s.Coherent) (hbp : bp ∈ s.mp.lqh) :
    Sys.Coherent { s with mp := flushBkt s.mp bp } := by
  unfold flushBkt
  split
  · exact h.write hbp
  · exact h

theorem flushBkt_clean : ((flushBkt mp bp).bkt bp).dirty = false := by
  unfold flushBkt
  split
  · rw [mpoolWrite_bkt, if_pos rfl]
  · rename_i h
    exact Bool.eq_false_iff.2 h

/-! ### The chains -/

theorem Mpool.mem_unlink_lqh (hnodup : mp.lqh.Nodup) {bp' : Nat} :
    bp' ∈ (mp.unlink bp).lqh ↔ bp' ∈ mp.lqh ∧ bp' ≠ bp := by
  rw [Mpool.unlink, hnodup.mem_erase_iff, and_comm]

theorem Mpool.mem_unlink_hqh (hnodup : (mp.hqh (hashkey (mp.bkt bp).pgno)).Nodup) {k bp' : Nat}
    (hbp : bp ∈ mp.hqh k → hashkey (mp.bkt bp).pgno = k) :
    bp' ∈ (mp.unlink bp).hqh k ↔ bp' ∈ mp.hqh k ∧ bp' ≠ bp := by
  by_cases hk : k = hashkey (mp.bkt bp).pgno
  · subst hk
    simp only [Mpool.unlink, Function.update_self]
    rw [hnodup.mem_erase_iff, and_comm]
  · simp only [Mpool.unlink, Function.update_of_ne hk]
    constructor
    · intro h
      refine ⟨h, ?_⟩
      rintro rfl
      exact hk (hbp h).symm
    · exact And.left

theorem Mpool.nodup_unlink_hqh (hnodup : ∀ k, (mp.hqh k).Nodup) (k : Nat) :
    ((mp.unlink bp).hqh k).Nodup := by
  by_cases hk : k = hashkey (mp.bkt bp).pgno
  · subst hk
    simp only [Mpool.unlink, Function.update_self]
    exact (hnodup _).erase bp
  · simp only [Mpool.unlink, Function.update_of_ne hk]
    exact hnodup k

theorem Sys.Coherent.unlink (h : s.Coherent) (hbp : bp ∈ s.mp.lqh)
    (hfile : s.OnFile (s.mp.bkt bp).pgno) (howed : s.owed bp = false) :
    Sys.Coherent { s with mp := s.mp.unlink bp } where
  nodup := h.nodup.erase bp
  allocated bp' hbp' := h.allocated bp' ((Mpool.mem_unlink_lqh h.nodup).1 hbp').1
  nodupHash := Mpool.nodup_unlink_hqh h.nodupHash
  chains k bp' := by
    rw [Mpool.mem_unlink_lqh h.nodup,
      Mpool.mem_unlink_hqh (h.nodupHash _) fun hmem => ((h.chains k bp).1 hmem).2, h.chains k bp']
    exact and_right_comm
  unique bp₁ h₁ bp₂ h₂ := h.unique bp₁ ((Mpool.mem_unlink_lqh h.nodup).1 h₁).1 bp₂
    ((Mpool.mem_unlink_lqh h.nodup).1 h₂).1
  inFile bp' hbp' := h.inFile bp' ((Mpool.mem_unlink_lqh h.nodup).1 hbp').1
  small := h.small
  cached bp' hbp' := h.cached bp' ((Mpool.mem_unlink_lqh h.nodup).1 hbp').1
  clean bp' hbp' := h.clean bp' ((Mpool.mem_unlink_lqh h.nodup).1 hbp').1
  evicted p hp hnone := by
    by_cases heq : (s.mp.bkt bp).pgno = p
    · exact heq ▸ hfile
    · refine h.evicted p hp fun bp' hbp' => ?_
      by_cases hbb : bp' = bp
      · rwa [hbb]
      · exact hnone bp' ((Mpool.mem_unlink_lqh h.nodup).2 ⟨hbp', hbb⟩)
  owed bp' hbp' := by
    obtain ⟨hmem, hpin⟩ := h.owed bp' hbp'
    refine ⟨(Mpool.mem_unlink_lqh h.nodup).2 ⟨hmem, ?_⟩, hpin⟩
    rintro rfl
    rw [howed] at hbp'
    exact Bool.false_ne_true hbp'

@[simp] theorem Mpool.mem_link_lqh {bp' : Nat} :
    bp' ∈ (mp.link bp).lqh ↔ bp' ∈ mp.lqh ∨ bp' = bp := by
  simp [Mpool.link]

theorem Mpool.mem_link_hqh {k bp' : Nat} : bp' ∈ (mp.link bp).hqh k ↔
    bp' ∈ mp.hqh k ∨ bp' = bp ∧ k = hashkey (mp.bkt bp).pgno := by
  by_cases hk : k = hashkey (mp.bkt bp).pgno
  · subst hk
    simp only [Mpool.link, Function.update_self, List.mem_cons, and_true]
    exact or_comm
  · simp only [Mpool.link, Function.update_of_ne hk, hk, and_false, or_false]

theorem Sys.OnFile.congr {s' : Sys n} {p : Nat} (h : s.OnFile p) (hfile : s'.mp.file = s.mp.file)
    (hpages : s'.pages p = s.pages p) : s'.OnFile p := by
  unfold Sys.OnFile
  rw [hfile, hpages]
  exact h

theorem Sys.Coherent.link (h : s.Coherent) (hbp : bp ∉ s.mp.lqh) (halloc : bp < s.mp.brk)
    {b : Bkt n} {npages : Nat} {pages : Nat → Page n} {owed : Nat → Bool}
    (hnpages : npages = s.mp.npages ∨ npages = s.mp.npages + 1 ∧ b.pgno = s.mp.npages)
    (hsmall : n * npages < 2 ^ 32) (hin : b.pgno < npages)
    (hnone : ∀ bp' ∈ s.mp.lqh, (s.mp.bkt bp').pgno ≠ b.pgno)
    (hpages : ∀ p, p ≠ b.pgno → pages p = s.pages p) (hpage : b.page = pages b.pgno)
    (howed : ∀ bp', bp' ≠ bp → owed bp' = s.owed bp') (hpin : b.pinned = true)
    (hclean : owed bp = false → s.OnFile b.pgno ∧ pages b.pgno = s.pages b.pgno) :
    Sys.Coherent ⟨({ s.mp with npages := npages }.set bp b).link bp, pages, owed⟩ := by
  have hne : ∀ bp' ∈ s.mp.lqh, bp' ≠ bp := fun bp' hbp' heq => hbp (heq ▸ hbp')
  have hbkt : ∀ bp' ∈ s.mp.lqh,
      (({ s.mp with npages := npages }.set bp b).link bp).bkt bp' = s.mp.bkt bp' :=
    fun bp' hbp' => Mpool.set_bkt_ne (hne bp' hbp')
  have hself : (({ s.mp with npages := npages }.set bp b).link bp).bkt bp = b :=
    Mpool.set_bkt_self
  have hkey : hashkey (({ s.mp with npages := npages }.set bp b).bkt bp).pgno = hashkey b.pgno := by
    rw [Mpool.set_bkt_self]
  have hmem : ∀ bp', bp' ∈ (({ s.mp with npages := npages }.set bp b).link bp).lqh ↔
      bp' ∈ s.mp.lqh ∨ bp' = bp := fun bp' => Mpool.mem_link_lqh
  have hmemH : ∀ k bp', bp' ∈ (({ s.mp with npages := npages }.set bp b).link bp).hqh k ↔
      bp' ∈ s.mp.hqh k ∨ bp' = bp ∧ k = hashkey b.pgno := fun k bp' => by
    rw [Mpool.mem_link_hqh, hkey]
    rfl
  generalize hmp : ({ s.mp with npages := npages }.set bp b).link bp = mp' at *
  have hlqh : mp'.lqh = s.mp.lqh ++ [bp] := by
    rw [← hmp]
    rfl
  have hfile : mp'.file = s.mp.file := by
    rw [← hmp]
    rfl
  refine
    { nodup := ?nodup, allocated := ?allocated, nodupHash := ?nodupHash, chains := ?chains,
      unique := ?unique, inFile := ?inFile, small := ?small, cached := ?cached, clean := ?clean,
      evicted := ?evicted, owed := ?owed }
  case nodup =>
    rw [hlqh, List.nodup_append]
    exact ⟨h.nodup, List.nodup_singleton bp, fun a ha c hc => by
      rw [List.mem_singleton.1 hc]
      exact hne a ha⟩
  case allocated =>
    intro bp' hbp'
    have hbrk : mp'.brk = s.mp.brk := by
      rw [← hmp]
      rfl
    rw [hbrk]
    rcases (hmem bp').1 hbp' with hbp' | rfl
    · exact h.allocated bp' hbp'
    · exact halloc
  case nodupHash =>
    intro k
    rw [← hmp]
    by_cases hk : k = hashkey (({ s.mp with npages := npages }.set bp b).bkt bp).pgno
    · subst hk
      simp only [Mpool.link, Function.update_self]
      exact (h.nodupHash _).cons fun hin => hbp ((h.chains _ _).1 hin).1
    · simp only [Mpool.link, Function.update_of_ne hk]
      exact h.nodupHash k
  case chains =>
    intro k bp'
    rw [hmem, hmemH]
    by_cases heq : bp' = bp
    · subst heq
      rw [hself]
      constructor
      · rintro (hin | ⟨-, rfl⟩)
        · exact absurd ((h.chains k bp').1 hin).1 hbp
        · exact ⟨Or.inr rfl, rfl⟩
      · rintro ⟨-, rfl⟩
        exact Or.inr ⟨rfl, rfl⟩
    · simp only [heq, false_and, or_false]
      rw [h.chains k bp']
      constructor
      · rintro ⟨hin, hk⟩
        exact ⟨hin, by rw [hbkt bp' hin, hk]⟩
      · rintro ⟨hin, hk⟩
        exact ⟨hin, by rw [← hbkt bp' hin, hk]⟩
  case unique =>
    intro bp₁ h₁ bp₂ h₂ heq
    rcases (hmem bp₁).1 h₁ with h₁ | rfl <;> rcases (hmem bp₂).1 h₂ with h₂ | rfl
    · rw [hbkt _ h₁, hbkt _ h₂] at heq
      exact h.unique _ h₁ _ h₂ heq
    · rw [hbkt _ h₁, hself] at heq
      exact absurd heq (hnone _ h₁)
    · rw [hbkt _ h₂, hself] at heq
      exact absurd heq.symm (hnone _ h₂)
    · rfl
  case inFile =>
    intro bp' hbp'
    have hnp : mp'.npages = npages := by
      rw [← hmp]
      rfl
    rw [hnp]
    rcases (hmem bp').1 hbp' with hbp' | rfl
    · rw [hbkt _ hbp']
      have := h.inFile bp' hbp'
      omega
    · rw [hself]
      exact hin
  case small =>
    rw [← hmp]
    exact hsmall
  case cached =>
    intro bp' hbp'
    rcases (hmem bp').1 hbp' with hbp' | rfl
    · simp only [hbkt _ hbp']
      rw [hpages _ (hnone bp' hbp'), h.cached bp' hbp']
    · simp only [hself]
      exact hpage
  case clean =>
    intro bp' hbp' hdirty ho
    rcases (hmem bp').1 hbp' with hbp' | rfl
    · simp only [hbkt _ hbp'] at hdirty ⊢
      exact (h.clean bp' hbp' hdirty ((howed bp' (hne bp' hbp')) ▸ ho)).congr hfile
        (hpages _ (hnone bp' hbp'))
    · simp only [hself]
      exact (hclean ho).1.congr hfile (hclean ho).2
  case evicted =>
    intro p hp hnone'
    have hnp : mp'.npages = npages := by
      rw [← hmp]
      rfl
    have hpne : p ≠ b.pgno := fun heq =>
      hnone' bp ((hmem bp).2 (Or.inr rfl)) (by simp only [hself, heq])
    refine (h.evicted p ?_ fun bp' hbp' => ?_).congr hfile (hpages p hpne)
    · simp only [hnp] at hp
      omega
    · have := hnone' bp' ((hmem bp').2 (Or.inl hbp'))
      rwa [hbkt _ hbp'] at this
  case owed =>
    intro bp' ho
    by_cases heq : bp' = bp
    · subst heq
      exact ⟨(hmem _).2 (Or.inr rfl), by simp only [hself, hpin]⟩
    · simp only [howed bp' heq] at ho
      obtain ⟨hin, hp⟩ := h.owed bp' ho
      exact ⟨(hmem _).2 (Or.inl hin), by simp only [hbkt _ hin, hp]⟩

theorem Sys.Coherent.set (h : s.Coherent) (hbp : bp ∈ s.mp.lqh) {b : Bkt n}
    {pages : Nat → Page n} {owed : Nat → Bool} (hpgno : b.pgno = (s.mp.bkt bp).pgno)
    (hpages : ∀ p, p ≠ b.pgno → pages p = s.pages p) (hpage : b.page = pages b.pgno)
    (howed : ∀ bp', bp' ≠ bp → owed bp' = s.owed bp') (hpin : owed bp = true → b.pinned = true)
    (hclean : b.dirty = false → owed bp = false →
      s.OnFile b.pgno ∧ pages b.pgno = s.pages b.pgno) :
    Sys.Coherent ⟨s.mp.set bp b, pages, owed⟩ := by
  have hpg : ∀ bp', ((s.mp.set bp b).bkt bp').pgno = (s.mp.bkt bp').pgno := by
    intro bp'
    by_cases heq : bp' = bp
    · rw [heq, Mpool.set_bkt_self, hpgno]
    · rw [Mpool.set_bkt_ne heq]
  have hother : ∀ bp' ∈ s.mp.lqh, bp' ≠ bp → (s.mp.bkt bp').pgno ≠ b.pgno := by
    intro bp' hbp' hne heq
    exact hne (h.unique bp' hbp' bp hbp (heq.trans hpgno))
  refine
    { nodup := h.nodup, allocated := h.allocated, nodupHash := h.nodupHash, chains := ?chains,
      unique := ?unique, inFile := ?inFile, small := h.small, cached := ?cached, clean := ?clean,
      evicted := ?evicted, owed := ?owed }
  case chains =>
    intro k bp'
    simp only [hpg]
    exact h.chains k bp'
  case unique =>
    intro bp₁ h₁ bp₂ h₂
    simp only [hpg]
    exact h.unique bp₁ h₁ bp₂ h₂
  case inFile =>
    intro bp' hbp'
    simp only [hpg]
    exact h.inFile bp' hbp'
  case cached =>
    intro bp' hbp'
    by_cases heq : bp' = bp
    · rw [heq]
      simp only [Mpool.set_bkt_self, hpage]
    · simp only [Mpool.set_bkt_ne heq]
      rw [hpages _ (hother bp' hbp' heq)]
      exact h.cached bp' hbp'
  case clean =>
    intro bp' hbp' hdirty ho
    by_cases heq : bp' = bp
    · subst heq
      simp only [Mpool.set_bkt_self] at hdirty ⊢
      exact (hclean hdirty ho).1.congr rfl (hclean hdirty ho).2
    · simp only [Mpool.set_bkt_ne heq] at hdirty ⊢
      exact (h.clean bp' hbp' hdirty (howed bp' heq ▸ ho)).congr rfl
        (hpages _ (hother bp' hbp' heq))
  case evicted =>
    intro p hp hnone
    have hne : p ≠ b.pgno := by
      intro heq
      refine hnone bp hbp ?_
      rw [hpg, ← hpgno, heq]
    refine (h.evicted p hp fun bp' hbp' => ?_).congr rfl (hpages p hne)
    have := hnone bp' hbp'
    rwa [hpg] at this
  case owed =>
    intro bp' ho
    by_cases heq : bp' = bp
    · subst heq
      exact ⟨hbp, by simp only [Mpool.set_bkt_self, hpin ho]⟩
    · simp only [howed bp' heq] at ho
      simp only [Mpool.set_bkt_ne heq]
      exact h.owed bp' ho

theorem Sys.Coherent.relink (h : s.Coherent) (hbp : bp ∈ s.mp.lqh) :
    Sys.Coherent { s with mp := (s.mp.unlink bp).link bp } := by
  have hmem : ∀ bp', bp' ∈ ((s.mp.unlink bp).link bp).lqh ↔ bp' ∈ s.mp.lqh := by
    intro bp'
    rw [Mpool.mem_link_lqh, Mpool.mem_unlink_lqh h.nodup]
    by_cases heq : bp' = bp
    · simp [heq, hbp]
    · simp [heq]
  have hkey : hashkey ((s.mp.unlink bp).bkt bp).pgno = hashkey (s.mp.bkt bp).pgno := rfl
  have hmemH : ∀ k bp', bp' ∈ ((s.mp.unlink bp).link bp).hqh k ↔ bp' ∈ s.mp.hqh k := by
    intro k bp'
    rw [Mpool.mem_link_hqh,
      Mpool.mem_unlink_hqh (h.nodupHash _) fun hin => ((h.chains k bp).1 hin).2, hkey]
    by_cases heq : bp' = bp
    · subst heq
      simp only [ne_eq, not_true, and_false, true_and, false_or]
      rw [h.chains]
      exact ⟨fun hk => ⟨hbp, hk.symm⟩, fun hk => hk.2.symm⟩
    · simp [heq]
  have hnot : bp ∉ (s.mp.unlink bp).lqh := fun hin => ((Mpool.mem_unlink_lqh h.nodup).1 hin).2 rfl
  have hnotH : ∀ k, bp ∉ (s.mp.unlink bp).hqh k := fun k hin =>
    ((Mpool.mem_unlink_hqh (h.nodupHash _) fun hin => ((h.chains k bp).1 hin).2).1 hin).2 rfl
  refine
    { nodup := ?nodup, allocated := ?allocated, nodupHash := ?nodupHash, chains := ?chains,
      unique := ?unique, inFile := ?inFile, small := h.small, cached := ?cached, clean := ?clean,
      evicted := ?evicted, owed := ?owed }
  case nodup =>
    refine List.nodup_append.2 ⟨h.nodup.erase bp, List.nodup_singleton bp, fun a ha c hc => ?_⟩
    rw [List.mem_singleton.1 hc]
    rintro rfl
    exact hnot ha
  case allocated => exact fun bp' hbp' => h.allocated bp' ((hmem bp').1 hbp')
  case nodupHash =>
    intro k
    have hrest : ((s.mp.unlink bp).hqh k).Nodup := Mpool.nodup_unlink_hqh h.nodupHash k
    by_cases hk : k = hashkey ((s.mp.unlink bp).bkt bp).pgno
    · subst hk
      simp only [Mpool.link, Function.update_self]
      exact hrest.cons (hnotH _)
    · simp only [Mpool.link, Function.update_of_ne hk]
      exact hrest
  case chains =>
    intro k bp'
    rw [hmem, hmemH]
    exact h.chains k bp'
  case unique => exact fun bp₁ h₁ bp₂ h₂ => h.unique bp₁ ((hmem bp₁).1 h₁) bp₂ ((hmem bp₂).1 h₂)
  case inFile => exact fun bp' hbp' => h.inFile bp' ((hmem bp').1 hbp')
  case cached => exact fun bp' hbp' => h.cached bp' ((hmem bp').1 hbp')
  case clean => exact fun bp' hbp' => h.clean bp' ((hmem bp').1 hbp')
  case evicted =>
    exact fun p hp hnone => h.evicted p hp fun bp' hbp' => hnone bp' ((hmem bp').2 hbp')
  case owed =>
    intro bp' ho
    exact ⟨(hmem bp').2 (h.owed bp' ho).1, (h.owed bp' ho).2⟩

/-! ### Finding a buffer -/

theorem Sys.Coherent.look (h : s.Coherent) {pgno : Nat} :
    (∀ bp ∈ mpoolLook s.mp pgno, bp ∈ s.mp.lqh ∧ (s.mp.bkt bp).pgno = pgno) ∧
      (mpoolLook s.mp pgno = none → ∀ bp ∈ s.mp.lqh, (s.mp.bkt bp).pgno ≠ pgno) := by
  refine ⟨fun bp hbp => ?_, fun hnone bp hbp heq => ?_⟩
  · have hfound := List.find?_some hbp
    have hmem := List.mem_of_find?_eq_some hbp
    exact ⟨((h.chains _ bp).1 hmem).1, of_decide_eq_true hfound⟩
  · rw [mpoolLook, List.find?_eq_none] at hnone
    refine hnone bp ?_ (decide_eq_true heq)
    rw [h.chains]
    exact ⟨hbp, by rw [heq]⟩

/-- What `mpool_bkt` leaves when it has a buffer `bp`: it is on no chain, and every pinned
buffer is where it was. -/
structure Free (s : Sys n) (mp' : Mpool n) (bp : Nat) : Prop where
  coherent : Sys.Coherent { s with mp := mp' }
  off : bp ∉ mp'.lqh
  allocated : bp < mp'.brk
  npages : mp'.npages = s.mp.npages
  sub : ∀ bp' ∈ mp'.lqh, bp' ∈ s.mp.lqh ∧ (mp'.bkt bp').pgno = (s.mp.bkt bp').pgno
  pinned : ∀ bp' ∈ s.mp.lqh, (s.mp.bkt bp').pinned = true →
    bp' ∈ mp'.lqh ∧ mp'.bkt bp' = s.mp.bkt bp'

theorem Sys.Coherent.congr (h : s.Coherent) {mp' : Mpool n} (hlqh : mp'.lqh = s.mp.lqh)
    (hhqh : mp'.hqh = s.mp.hqh) (hbrk : s.mp.brk ≤ mp'.brk) (hnpages : mp'.npages = s.mp.npages)
    (hfile : mp'.file = s.mp.file) (hbkt : ∀ bp ∈ s.mp.lqh, mp'.bkt bp = s.mp.bkt bp) :
    Sys.Coherent { s with mp := mp' } := by
  obtain ⟨bkt, brk, lqh, hqh, curcache, maxcache, npages, file⟩ := mp'
  obtain rfl : lqh = _ := hlqh
  obtain rfl : hqh = _ := hhqh
  obtain rfl : npages = _ := hnpages
  obtain rfl : file = _ := hfile
  simp only at hbkt hbrk
  refine
    { nodup := h.nodup, allocated := fun bp' hbp' => Nat.lt_of_lt_of_le (h.allocated bp' hbp') hbrk
      nodupHash := h.nodupHash, chains := ?chains, unique := ?unique, inFile := ?inFile
      small := h.small, cached := ?cached, clean := ?clean, evicted := ?evicted, owed := ?owed }
  case chains =>
    intro k bp'
    simp only [h.chains k bp']
    constructor
    · rintro ⟨hin, hk⟩
      exact ⟨hin, by rw [hbkt bp' hin, hk]⟩
    · rintro ⟨hin, hk⟩
      rw [hbkt bp' hin] at hk
      exact ⟨hin, hk⟩
  case unique =>
    intro bp₁ h₁ bp₂ h₂
    simp only [hbkt bp₁ h₁, hbkt bp₂ h₂]
    exact h.unique bp₁ h₁ bp₂ h₂
  case inFile =>
    intro bp' hbp'
    simp only [hbkt bp' hbp']
    exact h.inFile bp' hbp'
  case cached =>
    intro bp' hbp'
    simp only [hbkt bp' hbp']
    exact h.cached bp' hbp'
  case clean =>
    intro bp' hbp'
    simp only [hbkt bp' hbp']
    exact h.clean bp' hbp'
  case evicted =>
    intro p hp hnone
    refine h.evicted p hp fun bp' hbp' => ?_
    rw [← hbkt bp' hbp']
    exact hnone bp' hbp'
  case owed =>
    intro bp' ho
    obtain ⟨hin, hp⟩ := h.owed bp' ho
    exact ⟨hin, by simp only [hbkt bp' hin, hp]⟩

theorem Free.set {mp' : Mpool n} (h : Free s mp' bp) (b : Bkt n) : Free s (mp'.set bp b) bp := by
  have hbkt : ∀ bp' ∈ mp'.lqh, (mp'.set bp b).bkt bp' = mp'.bkt bp' := fun bp' hbp' =>
    Mpool.set_bkt_ne fun heq => h.off (heq ▸ hbp')
  exact
    { coherent := h.coherent.congr rfl rfl (Nat.le_refl _) rfl rfl hbkt
      off := h.off
      allocated := h.allocated
      npages := h.npages
      sub := fun bp' hbp' => ⟨(h.sub bp' hbp').1, by rw [hbkt bp' hbp', (h.sub bp' hbp').2]⟩
      pinned := fun bp' hbp' hpin => by
        obtain ⟨hin, heq⟩ := h.pinned bp' hbp' hpin
        exact ⟨hin, by rw [hbkt bp' hin, heq]⟩ }

theorem Sys.Coherent.bktNew (h : s.Coherent) (page : Page n) :
    ∃ mp', mpoolBktNew s.mp (some page) = (mp', some s.mp.brk) ∧ Free s mp' s.mp.brk := by
  have hnot : s.mp.brk ∉ s.mp.lqh := fun hin => Nat.lt_irrefl _ (h.allocated _ hin)
  have hbkt : ∀ bp' ∈ s.mp.lqh, (s.mp.set s.mp.brk
      { s.mp.bkt s.mp.brk with page := page }).bkt bp' = s.mp.bkt bp' := fun bp' hbp' =>
    Mpool.set_bkt_ne fun heq => hnot (heq ▸ hbp')
  exact ⟨_, rfl,
    { coherent := h.congr rfl rfl (Nat.le_succ _) rfl rfl hbkt
      off := hnot
      allocated := Nat.lt_succ_self _
      npages := rfl
      sub := fun bp' hbp' => ⟨hbp', congrArg Bkt.pgno (hbkt bp' hbp')⟩
      pinned := fun bp' hbp' _ => ⟨hbp', hbkt bp' hbp'⟩ }⟩

theorem Sys.Coherent.evict (h : s.Coherent) (hbp : bp ∈ s.mp.lqh)
    (hpin : (s.mp.bkt bp).pinned = false) : Free s ((flushBkt s.mp bp).unlink bp) bp := by
  have hflush : Flushed s.mp (flushBkt s.mp bp) := flushed_flushBkt s.mp bp
  have hcoh : Sys.Coherent { s with mp := flushBkt s.mp bp } := h.flush hbp
  have howed : s.owed bp = false := by
    rw [Bool.eq_false_iff]
    intro ho
    rw [(h.owed bp ho).2] at hpin
    exact Bool.noConfusion hpin
  have hin : bp ∈ (flushBkt s.mp bp).lqh := hflush.lqh ▸ hbp
  have hmem : ∀ bp', bp' ∈ ((flushBkt s.mp bp).unlink bp).lqh ↔ bp' ∈ s.mp.lqh ∧ bp' ≠ bp := by
    intro bp'
    rw [Mpool.mem_unlink_lqh hcoh.nodup, hflush.lqh]
  refine
    { coherent := hcoh.unlink hin (hcoh.clean bp hin flushBkt_clean howed) howed
      off := fun h => ((hmem bp).1 h).2 rfl
      allocated := hcoh.allocated bp hin
      npages := hflush.npages
      sub := fun bp' hbp' => ⟨((hmem bp').1 hbp').1, ?_⟩
      pinned := fun bp' hbp' hp => ⟨(hmem bp').2 ⟨hbp', ?_⟩, ?_⟩ }
  · obtain ⟨d, hd, -⟩ := hflush.bkt bp'
    show ((flushBkt s.mp bp).bkt bp').pgno = _
    rw [hd]
  · rintro rfl
    rw [hp] at hpin
    exact Bool.noConfusion hpin
  · have hne : bp' ≠ bp := by
      rintro rfl
      rw [hp] at hpin
      exact Bool.noConfusion hpin
    show (flushBkt s.mp bp).bkt bp' = s.mp.bkt bp'
    unfold flushBkt
    split
    · rw [mpoolWrite_bkt, if_neg hne]
    · rfl

theorem Sys.Coherent.bkt (h : s.Coherent) (malloc : Option (Page n)) :
    (malloc = none ∧ mpoolBkt s.mp malloc = (s.mp, none)) ∨
      ∃ mp' bp, mpoolBkt s.mp malloc = (mp', some bp) ∧ Free s mp' bp := by
  have hnew : (malloc = none ∧ mpoolBktNew s.mp malloc = (s.mp, none)) ∨
      ∃ mp' bp, mpoolBktNew s.mp malloc = (mp', some bp) ∧ Free s mp' bp := by
    cases malloc with
    | none => exact Or.inl ⟨rfl, rfl⟩
    | some page =>
      obtain ⟨mp', heq, hfree⟩ := h.bktNew page
      exact Or.inr ⟨mp', _, heq, hfree⟩
  unfold mpoolBkt
  by_cases hroom : s.mp.curcache < s.mp.maxcache
  · rw [if_pos hroom]
    exact hnew
  rw [if_neg hroom]
  cases hfind : s.mp.lqh.find? fun bp => !(s.mp.bkt bp).pinned with
  | none => exact hnew
  | some bp =>
    have hpin : (s.mp.bkt bp).pinned = false := by simpa using List.find?_some hfind
    exact Or.inr ⟨_, bp, rfl, h.evict (List.mem_of_find?_eq_some hfind) hpin⟩

/-! ### The operations -/

def Kept (mp mp' : Mpool n) (bp : Nat) : Prop :=
  bp ∈ mp'.lqh ∧ (mp'.bkt bp).pgno = (mp.bkt bp).pgno ∧ (mp'.bkt bp).page = (mp.bkt bp).page ∧
    (mp'.bkt bp).pinned = true

theorem Free.kept {mp' : Mpool n} (h : Free s mp' bp) {b : Bkt n} {npages bp' : Nat}
    (hbp' : bp' ∈ s.mp.lqh) (hpin : (s.mp.bkt bp').pinned = true) :
    Kept s.mp (({ mp' with npages := npages }.set bp b).link bp) bp' := by
  obtain ⟨hin, heq⟩ := h.pinned bp' hbp' hpin
  have hne : bp' ≠ bp := fun heq => h.off (heq ▸ hin)
  have hbkt : (({ mp' with npages := npages }.set bp b).link bp).bkt bp' = s.mp.bkt bp' :=
    (Mpool.set_bkt_ne hne).trans heq
  refine ⟨Mpool.mem_link_lqh.2 (Or.inl hin), ?_, ?_, ?_⟩
  · rw [hbkt]
  · rw [hbkt]
  · rw [hbkt, hpin]

theorem Free.fillNew {mp' : Mpool n} (h : Free s mp' bp) (page : Page n)
    (hsmall : n * (s.mp.npages + 1) < 2 ^ 32) :
    Sys.Coherent ⟨({ mp' with npages := mp'.npages + 1 }.set bp
        ⟨page, mp'.npages, false, true⟩).link bp,
      Function.update s.pages mp'.npages page, Function.update s.owed bp true⟩ := by
  have hcoh := h.coherent
  have hnone : ∀ bp' ∈ mp'.lqh, (mp'.bkt bp').pgno ≠ mp'.npages := fun bp' hbp' =>
    Nat.ne_of_lt (hcoh.inFile bp' hbp')
  refine hcoh.link (b := ⟨page, mp'.npages, false, true⟩) h.off h.allocated (Or.inr ⟨rfl, rfl⟩) ?_
    (Nat.lt_succ_self _) hnone ?_ ?_ ?_ rfl ?_
  · rw [h.npages]
    exact hsmall
  · intro p hp
    exact Function.update_of_ne hp _ _
  · simp
  · intro bp' hne
    exact Function.update_of_ne hne _ _
  · simp

theorem Sys.Coherent.new (h : s.Coherent) (malloc : Option (Page n))
    (hsmall : n * (s.mp.npages + 1) < 2 ^ 32) :
    (s.step (.new malloc)).Coherent ∧ ∀ bp ∈ s.mp.lqh, (s.mp.bkt bp).pinned = true →
      Kept s.mp (s.step (.new malloc)).mp bp := by
  rw [Sys.step, mpoolNew]
  rcases h.bkt malloc with ⟨-, heq⟩ | ⟨mp', bp, heq, hfree⟩
  · rw [heq]
    exact ⟨h, fun bp hbp hpin => ⟨hbp, rfl, rfl, hpin⟩⟩
  rw [heq]
  refine ⟨?_, fun bp' hbp' hpin => hfree.kept hbp' hpin⟩
  have hself : ((({ mp' with npages := mp'.npages + 1 }.set bp
      ⟨(mp'.bkt bp).page, mp'.npages, false, true⟩).link bp).bkt bp) =
        ⟨(mp'.bkt bp).page, mp'.npages, false, true⟩ := Mpool.set_bkt_self
  simp only [hself]
  exact hfree.fillNew _ hsmall

/-- `mpool_get` of a page of the file: a buffer with what was left in the page, unless there is
no memory for it. -/
structure Got (s : Sys n) (pgno : Nat) (malloc : Option (Page n)) (r : Mpool n × Option Nat) :
    Prop where
  coherent : Sys.Coherent { s with mp := r.1 }
  kept : ∀ bp ∈ s.mp.lqh, (s.mp.bkt bp).pinned = true → Kept s.mp r.1 bp
  null : pgno < s.mp.npages → r.2 = none → malloc = none
  page : ∀ bp ∈ r.2, bp ∈ r.1.lqh ∧ (r.1.bkt bp).pgno = pgno ∧
    (r.1.bkt bp).page = s.pages pgno ∧ (r.1.bkt bp).pinned = true

theorem Free.fillOld {mp' : Mpool n} {pgno : Nat} (h : Free s mp' bp) (hlt : pgno < s.mp.npages)
    (hnone : ∀ bp' ∈ s.mp.lqh, (s.mp.bkt bp').pgno ≠ pgno) :
    offset n pgno = n * pgno ∧ Sys.OnFile { s with mp := mp' } pgno ∧
      Sys.Coherent { s with mp := (mp'.set bp ⟨s.pages pgno, pgno, false, true⟩).link bp } := by
  have hcoh := h.coherent
  have hnone' : ∀ bp' ∈ mp'.lqh, (mp'.bkt bp').pgno ≠ pgno := by
    intro bp' hbp'
    obtain ⟨hin, hpg⟩ := h.sub bp' hbp'
    rw [hpg]
    exact hnone bp' hin
  rw [← h.npages] at hlt
  have hfile := hcoh.evicted pgno hlt hnone'
  refine ⟨offset_eq (Nat.lt_of_le_of_lt ?_ hcoh.small), hfile, ?_⟩
  · exact Nat.mul_le_mul_left n (Nat.le_of_lt hlt)
  · exact hcoh.link h.off h.allocated (Or.inl rfl) hcoh.small hlt hnone'
      (fun _ _ => rfl) rfl (fun _ _ => rfl) rfl fun _ => ⟨hfile, rfl⟩

theorem Sys.Coherent.get (h : s.Coherent) (pgno : Nat) (malloc : Option (Page n)) :
    Got s pgno malloc (mpoolGet s.mp pgno malloc) := by
  unfold mpoolGet
  by_cases hout : s.mp.npages ≤ pgno
  · rw [if_pos hout]
    exact ⟨h, fun bp hbp hpin => ⟨hbp, rfl, rfl, hpin⟩, fun hin => absurd hin (by omega), by simp⟩
  rw [if_neg hout]
  cases hlook : mpoolLook s.mp pgno with
  | some bp =>
    obtain ⟨hbp, hpg⟩ := h.look.1 bp hlook
    have hcoh := h.relink hbp
    have hmem : ∀ bp', bp' ∈ ((s.mp.unlink bp).link bp).lqh ↔ bp' ∈ s.mp.lqh := by
      intro bp'
      rw [Mpool.mem_link_lqh, Mpool.mem_unlink_lqh h.nodup]
      by_cases heq : bp' = bp
      · simp [heq, hbp]
      · simp [heq]
    have hbkt : ((s.mp.unlink bp).link bp).bkt = s.mp.bkt := rfl
    refine
      { coherent := ?_
        kept := fun bp' hbp' hpin => ?_
        null := by simp
        page := ?_ }
    · refine hcoh.set ((hmem bp).2 hbp) rfl (fun _ _ => rfl) (hcoh.cached bp ((hmem bp).2 hbp))
        (fun _ _ => rfl) (fun _ => rfl) fun hdirty ho => ⟨?_, rfl⟩
      exact hcoh.clean bp ((hmem bp).2 hbp) hdirty ho
    · refine ⟨(hmem bp').2 hbp', ?_⟩
      by_cases heq : bp' = bp
      · subst heq
        simp [hbkt]
      · simp [heq, hbkt, hpin]
    · rintro bp' ⟨⟩
      refine ⟨(hmem bp).2 hbp, ?_⟩
      simp only [Mpool.set_bkt_self, hbkt]
      exact ⟨hpg, by rw [h.cached bp hbp, hpg], trivial⟩
  | none =>
    have hnone := h.look.2 hlook
    rcases h.bkt malloc with ⟨hnull, heq⟩ | ⟨mp', bp, heq, hfree⟩
    · simp only [heq]
      exact ⟨h, fun bp hbp hpin => ⟨hbp, rfl, rfl, hpin⟩, fun _ _ => hnull, by simp⟩
    simp only [heq]
    obtain ⟨hoff, hfile, hcoh⟩ := hfree.fillOld (Nat.not_le.1 hout) hnone
    have hsize : ¬ mp'.file.size < offset n pgno + n := by
      rw [hoff]
      exact Nat.not_lt.2 hfile.2
    rw [if_neg hsize, hoff, show mp'.file.read n (n * pgno) = s.pages pgno from hfile.1]
    have hself : ((mp'.set bp ⟨s.pages pgno, pgno, false, true⟩).link bp).bkt bp =
        ⟨s.pages pgno, pgno, false, true⟩ := Mpool.set_bkt_self
    refine
      { coherent := hcoh
        kept := fun bp' hbp' hpin => hfree.kept hbp' hpin
        null := by simp
        page := ?_ }
    rintro bp' ⟨⟩
    refine ⟨Mpool.mem_link_lqh.2 (Or.inr rfl), ?_⟩
    simp only [hself]
    exact ⟨trivial, trivial, trivial⟩

theorem Flushed.trans {mp₁ mp₂ mp₃ : Mpool n} (h : Flushed mp₁ mp₂) (h' : Flushed mp₂ mp₃) :
    Flushed mp₁ mp₃ := by
  refine ⟨h'.lqh.trans h.lqh, h'.npages.trans h.npages, h'.brk.trans h.brk, fun bp => ?_⟩
  obtain ⟨d, hd, hdirty⟩ := h.bkt bp
  obtain ⟨d', hd', hdirty'⟩ := h'.bkt bp
  refine ⟨d', by rw [hd', hd], fun htrue => ?_⟩
  have hmid := hdirty' htrue
  rw [hd] at hmid
  exact hdirty hmid

theorem Sys.Coherent.flushAll (h : s.Coherent) {l : List Nat} (hl : l ⊆ s.mp.lqh) :
    Sys.Coherent { s with mp := l.foldl flushBkt s.mp } ∧ Flushed s.mp (l.foldl flushBkt s.mp) ∧
      ∀ bp ∈ l, ((l.foldl flushBkt s.mp).bkt bp).dirty = false := by
  induction l generalizing s with
  | nil => exact ⟨h, ⟨rfl, rfl, rfl, fun bp => ⟨_, rfl, id⟩⟩, by simp⟩
  | cons bp l ih =>
    rw [List.cons_subset] at hl
    have hone := flushed_flushBkt s.mp bp
    have hsub : l ⊆ (flushBkt s.mp bp).lqh := by
      rw [hone.lqh]
      exact hl.2
    obtain ⟨hcoh, hrest, hclean⟩ := ih (h.flush hl.1) hsub
    refine ⟨hcoh, hone.trans hrest, fun bp' hbp' => ?_⟩
    rcases List.mem_cons.1 hbp' with rfl | hbp'
    · -- the rest of the loop makes no buffer dirty
      obtain ⟨d, hd, hdirty⟩ := hrest.bkt bp'
      have hfalse : ((flushBkt s.mp bp').bkt bp').dirty = false := flushBkt_clean
      rw [List.foldl_cons]
      rw [hd]
      by_contra hne
      rw [Bool.not_eq_false] at hne
      rw [hdirty hne] at hfalse
      exact Bool.noConfusion hfalse
    · exact hclean bp' hbp'

theorem Sys.Coherent.sync (h : s.Coherent) :
    (s.step .sync).Coherent ∧ Flushed s.mp (mpoolSync s.mp) ∧
      ∀ p < s.mp.npages, (∀ bp ∈ s.mp.lqh, (s.mp.bkt bp).pgno = p → s.owed bp = false) →
        (s.step .sync).OnFile p := by
  obtain ⟨hcoh, hflush, hclean⟩ := h.flushAll (List.Subset.refl _)
  refine ⟨hcoh, hflush, fun p hp howed => ?_⟩
  by_cases hheld : ∃ bp ∈ s.mp.lqh, (s.mp.bkt bp).pgno = p
  · obtain ⟨bp, hbp, hpg⟩ := hheld
    have hpg' : ((mpoolSync s.mp).bkt bp).pgno = p := by
      obtain ⟨d, hd, -⟩ := hflush.bkt bp
      rw [mpoolSync, hd, hpg]
    have hin : bp ∈ (s.mp.lqh.foldl flushBkt s.mp).lqh := by
      rw [hflush.lqh]
      exact hbp
    have hfile := hcoh.clean bp hin (hclean bp hbp) (howed bp hbp hpg)
    rw [show ((s.mp.lqh.foldl flushBkt s.mp).bkt bp).pgno = p from hpg'] at hfile
    exact hfile
  · refine hcoh.evicted p (hflush.npages ▸ hp) fun bp hbp heq => hheld ⟨bp, hflush.lqh ▸ hbp, ?_⟩
    obtain ⟨d, hd, -⟩ := hflush.bkt bp
    rw [hd] at heq
    exact heq

theorem Sys.Coherent.step (h : s.Coherent) {op : Op n} (hop : s.Admits op) :
    (s.step op).Coherent := by
  cases op with
  | new malloc => exact (h.new malloc hop).1
  | get pgno malloc => exact (h.get pgno malloc).coherent
  | write bp page =>
    refine h.set hop.1 rfl (fun p hp => Function.update_of_ne hp _ _) ?_
      (fun bp' hne => Function.update_of_ne hne _ _) (fun _ => hop.2) ?_
    · simp
    · simp
  | put bp dirty =>
    obtain ⟨hbp, hpin, hdirty⟩ := hop
    refine h.set hbp rfl (fun _ _ => rfl) (h.cached bp hbp)
      (fun bp' hne => Function.update_of_ne hne _ _) ?_ ?_
    · simp
    · intro hclean _
      rw [Bool.or_eq_false_iff] at hclean
      -- a page that was changed is given back as dirty
      have howed : s.owed bp = false := by
        rw [Bool.eq_false_iff]
        intro ho
        rw [hdirty ho] at hclean
        exact Bool.noConfusion hclean.2
      exact ⟨h.clean bp hbp hclean.1 howed, rfl⟩
  | sync => exact h.sync.1

theorem Sys.coherent_opened (file : File) (maxcache : Nat) (bkt : Nat → Bkt n) (brk : Nat)
    (hsize : file.size < 2 ^ 32) : (Sys.opened n file maxcache bkt brk).Coherent where
  nodup := List.nodup_nil
  allocated := by simp [Sys.opened, mpoolOpen]
  nodupHash _ := List.nodup_nil
  chains := by simp [Sys.opened, mpoolOpen]
  unique := by simp [Sys.opened, mpoolOpen]
  inFile := by simp [Sys.opened, mpoolOpen]
  small := Nat.lt_of_le_of_lt (Nat.mul_div_le _ _) hsize
  cached := by simp [Sys.opened, mpoolOpen]
  clean := by simp [Sys.opened, mpoolOpen]
  evicted p hp _ := by
    refine ⟨rfl, ?_⟩
    have hle := Nat.mul_le_mul_left n (Nat.succ_le_of_lt hp)
    rw [Nat.mul_succ] at hle
    exact Nat.le_trans hle (Nat.mul_div_le _ _)
  owed := by simp [Sys.opened]

theorem Reached.coherent {file : File} {maxcache : Nat} (h : Reached file maxcache s)
    (hsize : file.size < 2 ^ 32) : s.Coherent := by
  induction h with
  | start bkt brk => exact Sys.coherent_opened file maxcache bkt brk hsize
  | step op _ hop ih => exact ih.step hop

theorem Sys.Coherent.kept (h : s.Coherent) {op : Op n} (hop : s.Admits op) (hbp : bp ∈ s.mp.lqh)
    (hpin : (s.mp.bkt bp).pinned = true) (hput : ∀ dirty, op ≠ .put bp dirty) :
    bp ∈ (s.step op).mp.lqh ∧ ((s.step op).mp.bkt bp).pgno = (s.mp.bkt bp).pgno ∧
      ((s.step op).mp.bkt bp).pinned = true ∧
      ((∀ page, op ≠ .write bp page) → ((s.step op).mp.bkt bp).page = (s.mp.bkt bp).page) := by
  cases op with
  | new malloc =>
    obtain ⟨hin, hpg, hpage, hpin'⟩ := (h.new malloc hop).2 bp hbp hpin
    exact ⟨hin, hpg, hpin', fun _ => hpage⟩
  | get pgno malloc =>
    obtain ⟨hin, hpg, hpage, hpin'⟩ := (h.get pgno malloc).kept bp hbp hpin
    exact ⟨hin, hpg, hpin', fun _ => hpage⟩
  | write bp' page =>
    by_cases heq : bp = bp'
    · subst heq
      refine ⟨hbp, ?_, ?_, fun hwrite => absurd rfl (hwrite page)⟩
      · simp [Sys.step]
      · simp [Sys.step, hpin]
    · refine ⟨hbp, ?_⟩
      simp [Sys.step, heq, hpin]
  | put bp' dirty =>
    have hne : bp ≠ bp' := fun heq => hput dirty (by rw [heq])
    refine ⟨hbp, ?_⟩
    simp [Sys.step, mpoolPut, hne, hpin]
  | sync =>
    obtain ⟨d, hd, -⟩ := h.sync.2.1.bkt bp
    have hbkt : (s.step .sync).mp.bkt bp = { s.mp.bkt bp with dirty := d } := hd
    have hin : bp ∈ (mpoolSync s.mp).lqh := by
      rw [h.sync.2.1.lqh]
      exact hbp
    refine ⟨hin, ?_⟩
    rw [hbkt]
    exact ⟨rfl, hpin, fun _ => rfl⟩

/-- In every state a client reaches: a page of the file is got with the contents last left in it,
at most one buffer holds it, pinned buffers stay until they are given back, and after a sync the
file has every page that the client is not about to give back as dirty. -/
theorem mpool_transparent (file : File) (maxcache : Nat) (hsize : file.size < 2 ^ 32) (s : Sys n)
    (h : Reached file maxcache s) :
    (∀ pgno < s.mp.npages, ∀ malloc,
        (malloc ≠ none → (mpoolGet s.mp pgno malloc).2 ≠ none) ∧
        ∀ bp ∈ (mpoolGet s.mp pgno malloc).2,
          ((mpoolGet s.mp pgno malloc).1.bkt bp).pgno = pgno ∧
          ((mpoolGet s.mp pgno malloc).1.bkt bp).page = s.pages pgno) ∧
      (∀ bp ∈ s.mp.lqh, ∀ bp' ∈ s.mp.lqh,
        (s.mp.bkt bp).pgno = (s.mp.bkt bp').pgno → bp = bp') ∧
      (∀ op, s.Admits op → ∀ bp ∈ s.mp.lqh, (s.mp.bkt bp).pinned = true →
        (∀ dirty, op ≠ .put bp dirty) →
          bp ∈ (s.step op).mp.lqh ∧ ((s.step op).mp.bkt bp).pgno = (s.mp.bkt bp).pgno ∧
          ((s.step op).mp.bkt bp).pinned = true ∧ ((∀ page, op ≠ .write bp page) →
            ((s.step op).mp.bkt bp).page = (s.mp.bkt bp).page)) ∧
      (∀ p < s.mp.npages, (∀ bp ∈ s.mp.lqh, (s.mp.bkt bp).pgno = p → s.owed bp = false) →
        (s.step .sync).OnFile p) := by
  have hcoh := h.coherent hsize
  refine ⟨fun pgno hp malloc => ?_, hcoh.unique,
    fun op hop bp hbp hpin hput => hcoh.kept hop hbp hpin hput, hcoh.sync.2.2⟩
  have hget := hcoh.get pgno malloc
  refine ⟨fun hsome hnone => hsome (hget.null hp hnone), fun bp hbp => ?_⟩
  obtain ⟨-, hpg, hpage, -⟩ := hget.page bp hbp
  exact ⟨hpg, hpage⟩

/-- Two pages of one byte through a cache of one buffer: page 0 is changed and given back, and
page 1 takes its buffer. -/
def evicting : List (Op 1) :=
  [.get 0 (some fun _ => 9), .write 0 (fun _ => 7), .put 0 true, .get 1 none]

theorem mpool_transparent_evicting :
    let s := evicting.foldl Sys.step (Sys.opened 1 ⟨fun _ => 0, 2⟩ 1 (fun _ => ⟨fun _ => 0, 0, false,
      false⟩) 0)
    s.mp.lqh = [0] ∧ s.pages 0 0 = 7 ∧
      ∀ bp ∈ (mpoolGet s.mp 0 (some fun _ => 9)).2,
        ((mpoolGet s.mp 0 (some fun _ => 9)).1.bkt bp).page = s.pages 0 := by
  intro s
  have hreached : Reached ⟨fun _ => 0, 2⟩ 1 s :=
    (((Reached.start (fun _ => ⟨fun _ => 0, 0, false, false⟩) 0).step (.get 0 (some fun _ => 9))
      (by decide +kernel)).step (.write 0 fun _ => 7) (by decide +kernel)).step (.put 0 true)
      (by decide +kernel) |>.step (.get 1 none) (by decide +kernel)
  refine ⟨by decide +kernel, by decide +kernel, fun bp hbp => ?_⟩
  exact (((mpool_transparent _ 1 (by decide) s hreached).1 0 (by decide +kernel) _).2 bp hbp).2

end Bsdi.Db.Pool
