import Bsdi.Db.Recno.Counted

/-!
# Deleting at the cursor

The cursor of a recno database is a number. It is compared here with the place of the record that
`__rec_seq` returned last, which moves when records before it are deleted.
-/

namespace Bsdi.Db.Recno

variable {irec : Tree → ℕ → Ret × Tree} {t : Tree} {i : ℕ}

/-- A well-formed tree that knows its number of records. -/
structure Tree.Sound (t : Tree) : Prop where
  counted : Counted t.height t.root
  nrecs : t.nrecs = t.recs.length
  bound : t.nrecs < 2 ^ 32

theorem Tree.Sound.found (hs : t.Sound) (hi : i < t.recs.length) :
    ∃ path index, descend i t.height t.root 0 = (path, index) ∧
      (leafAt t.height t.root path)[index]? = t.recs[i]? ∧
      Counted t.height (setLeaf ((leafAt t.height t.root path).eraseIdx index) t.height
        (recount decr t.height t.root path) path) ∧
      Recno.recs t.height (setLeaf ((leafAt t.height t.root path).eraseIdx index) t.height
        (recount decr t.height t.root path) path) = t.recs.eraseIdx i := by
  have hbound := hs.bound
  rw [hs.nrecs] at hbound
  have hspec := descend_spec 0 t.root hs.counted hi (by rwa [Nat.zero_add])
  rwa [Nat.zero_add] at hspec

theorem recount_eq {f : ℕ → ℕ} {h : ℕ} {page : Page h} {path : List ℕ} (hp : path = [] ∨ h = 0) :
    recount f h page path = page := by
  cases h with
  | zero => rfl
  | succ h =>
    obtain rfl := hp.resolve_right (Nat.succ_ne_zero h)
    rfl

/-- Nothing fails halfway: all counts are restored after a search that fails, and the overflow
pages of record `i` can be freed. -/
def Answers.Fine (answers : Answers) (t : Tree) (i : ℕ) : Prop :=
  match answers.fault with
  | some lost => lost = 0 ∨ t.height = 0
  | none => answers.freed = true ∨ t.height = 0 ∨
      ∀ rl, t.recs[i]? = some rl → rl.bigData = false

/-- What a deletion of record `i` may do. -/
def Deleted (t : Tree) (i : ℕ) (status : Ret) (t' : Tree) : Prop :=
  status = .success ∧ t'.recs = t.recs.eraseIdx i ∧ t'.Sound ∨ status ≠ .success ∧ t' = t

theorem recRdelete_spec {answers : Answers} (hs : t.Sound) (hi : i < t.recs.length)
    (hfine : answers.Fine t i) :
    ∃ status t', recRdelete answers i t = some (status, t') ∧ Deleted t i status t' ∧
      t'.rcursor = t.rcursor := by
  obtain ⟨path, index, hdescend, hitem, hcounted, herase⟩ := hs.found hi
  rw [recRdelete, recSearch, hdescend]
  rw [Answers.Fine] at hfine
  cases hfault : answers.fault with
  | some lost =>
    rw [hfault] at hfine
    dsimp only
    have hback : recount (Srchop.count .sdelete) t.height t.root (path.take lost) = t.root :=
      recount_eq (hfine.imp_left fun hlost => by rw [hlost, List.take_zero])
    rw [hback]
    exact ⟨.error, t, rfl, Or.inr ⟨Ret.noConfusion, rfl⟩, rfl⟩
  | none =>
    rw [hfault] at hfine
    dsimp only
    rw [leafAt_recount, recDleaf, hitem, List.getElem?_eq_getElem hi]
    dsimp only
    by_cases hbig : t.recs[i].bigData ∧ ¬answers.freed
    · rw [if_pos hbig]
      have hheight : t.height = 0 := by
        rcases hfine with hfreed | hheight | hsmall
        · exact absurd hfreed hbig.2
        · exact hheight
        · have := hsmall _ (List.getElem?_eq_getElem hi)
          rw [this] at hbig
          exact absurd hbig.1 Bool.false_ne_true
      have hback : recount (Srchop.count .sdelete) t.height t.root path = t.root :=
        recount_eq (Or.inr hheight)
      rw [hback]
      exact ⟨.error, t, rfl, Or.inr ⟨Ret.noConfusion, rfl⟩, rfl⟩
    · rw [if_neg hbig]
      have hpos : 0 < t.nrecs := by
        rw [hs.nrecs]
        exact Nat.zero_lt_of_lt hi
      have hdecr := decr_of_pos hpos hs.bound
      refine ⟨.success, _, rfl, Or.inl ⟨rfl, herase, hcounted, ?_, ?_⟩, rfl⟩
      · have hlen := congrArg List.length herase
        rw [List.length_eraseIdx_of_lt hi, ← hs.nrecs, ← hdecr] at hlen
        exact hlen.symm
      · change decr t.nrecs < 2 ^ 32
        have := hs.bound
        omega

/-- What the four functions behind `bt_irec` do to the tree: they append records. -/
structure Appends (irec : Tree → ℕ → Ret × Tree) : Prop where
  sound : ∀ t top, t.Sound → (irec t top).2.Sound
  recs : ∀ t top, t.Sound → ∃ l, (irec t top).2.recs = t.recs ++ l

/-- The outcome of a scan: no record is lost, and the one that is returned is in its place. -/
structure Scanned (t : Tree) (out : Option Rleaf × Ret × Tree) : Prop where
  sound : out.2.2.Sound
  recs : ∃ l, out.2.2.recs = t.recs ++ l
  found : out.2.1 = .success → ∀ k, out.2.2.rcursor = k + 1 →
    k < out.2.2.recs.length ∧ out.1 = out.2.2.recs[k]?

theorem Scanned.fail {status : Ret} {t' : Tree} (hs : t'.Sound) (hrecs : ∃ l, t'.recs = t.recs ++ l)
    (hstatus : status ≠ .success) : Scanned t (none, status, t') :=
  ⟨hs, hrecs, fun h => absurd h hstatus⟩

theorem Scanned.trans {t' : Tree} {out : Option Rleaf × Ret × Tree} (h : Scanned t' out)
    (hrecs : ∃ l, t'.recs = t.recs ++ l) : Scanned t out := by
  obtain ⟨l, hl⟩ := hrecs
  obtain ⟨m, hm⟩ := h.recs
  exact ⟨h.sound, ⟨l ++ m, by rw [hm, hl, List.append_assoc]⟩, h.found⟩

theorem seqReturn_spec {found : Found} {nrec : ℕ} (hs : t.Sound) (hn : nrec ≤ t.nrecs) :
    Scanned t (seqReturn found nrec t) := by
  rw [seqReturn]
  by_cases hpages : ¬found.pages
  · rw [if_pos hpages]
    exact Scanned.fail hs ⟨[], (List.append_nil _).symm⟩ Ret.noConfusion
  · rw [if_neg hpages]
    refine ⟨⟨hs.counted, hs.nrecs, hs.bound⟩, ⟨[], (List.append_nil _).symm⟩, fun _ k hk => ?_⟩
    have hk' : nrec = k + 1 := hk
    have hbound := hs.bound
    have hlt : k < t.recs.length := by
      rw [← hs.nrecs]
      omega
    obtain ⟨path, index, hdescend, hitem, -⟩ := hs.found hlt
    have hdecr : decr nrec = k := by
      rw [decr_of_pos (by omega) (by omega), hk', Nat.add_sub_cancel]
    dsimp only
    rw [hdecr, hdescend]
    exact ⟨hlt, hitem⟩

section

variable (hi : Appends irec)

include hi

theorem seqRecord_spec {found : Found} {nrec : ℕ} (hs : t.Sound) :
    Scanned t (seqRecord irec found nrec t) := by
  have hend : ∀ {status : Ret} {t' : Tree}, t'.Sound → (∃ l, t'.recs = t.recs ++ l) →
      Scanned t (if status ≠ .success then (none, status, t')
        else if t'.nrecs = 0 ∨ t'.nrecs < nrec then (none, .special, t')
        else seqReturn found nrec t') := fun {status t'} hs' hrecs => by
    by_cases hstatus : status ≠ .success
    · rw [if_pos hstatus]
      exact Scanned.fail hs' hrecs hstatus
    · rw [if_neg hstatus]
      by_cases hfar : t'.nrecs = 0 ∨ t'.nrecs < nrec
      · rw [if_pos hfar]
        exact Scanned.fail hs' hrecs Ret.noConfusion
      · rw [if_neg hfar]
        exact (seqReturn_spec hs' (by omega)).trans hrecs
  rw [seqRecord]
  by_cases hfar : t.nrecs = 0 ∨ t.nrecs < nrec
  · rw [if_pos hfar]
    cases t.eof with
    | true => exact hend hs ⟨[], (List.append_nil _).symm⟩
    | false => exact hend (hi.sound t nrec hs) (hi.recs t nrec hs)
  · rw [if_neg hfar]
    exact seqReturn_spec hs (by omega)

theorem seqLast_spec {found : Found} (hs : t.Sound) : Scanned t (seqLast irec found t) := by
  have hend : ∀ {status : Ret} {t' : Tree}, t'.Sound → (∃ l, t'.recs = t.recs ++ l) →
      Scanned t (if status = .error then (none, .error, t')
        else seqRecord irec found t'.nrecs t') := fun {status t'} hs' hrecs => by
    by_cases hstatus : status = .error
    · rw [if_pos hstatus]
      exact Scanned.fail hs' hrecs Ret.noConfusion
    · rw [if_neg hstatus]
      exact (seqRecord_spec hi hs').trans hrecs
  rw [seqLast]
  cases t.eof with
  | true => exact hend hs ⟨[], (List.append_nil _).symm⟩
  | false => exact hend (hi.sound t _ hs) (hi.recs t _ hs)

theorem recSeq_spec (found : Found) (flags : Flag) (key : ℕ) (hs : t.Sound) :
    Scanned t (recSeq irec found flags key t) := by
  have hfail : ∀ {status : Ret}, status ≠ .success → Scanned t (none, status, t) :=
    fun hstatus => Scanned.fail hs ⟨[], (List.append_nil _).symm⟩ hstatus
  cases flags with
  | cursor =>
    rw [recSeq]
    by_cases hkey : key = 0
    · rw [if_pos hkey]
      exact hfail Ret.noConfusion
    · rw [if_neg hkey]
      exact seqRecord_spec hi hs
  | next => exact seqRecord_spec hi hs
  | first => exact seqRecord_spec hi hs
  | prev =>
    rw [recSeq]
    by_cases hinit : t.init
    · rw [if_pos hinit]
      by_cases hzero : decr t.rcursor = 0
      · rw [if_pos hzero]
        exact hfail Ret.noConfusion
      · rw [if_neg hzero]
        exact seqRecord_spec hi hs
    · rw [if_neg hinit]
      exact seqLast_spec hi hs
  | last => exact seqLast_spec hi hs
  | none => exact hfail Ret.noConfusion
  | iafter => exact hfail Ret.noConfusion
  | ibefore => exact hfail Ret.noConfusion
  | nooverwrite => exact hfail Ret.noConfusion
  | setcursor => exact hfail Ret.noConfusion
  | recnosync => exact hfail Ret.noConfusion

end

/-- The requests of a run, each with what the pages answer. -/
inductive Request
  | seq (flags : Flag) (key : ℕ) (found : Found)
  | delete (flags : Flag) (key : ℕ) (answers : Answers)

/-- A database, and the place of the record that `__rec_seq` returned last, if it is still there. -/
structure World where
  t : Tree
  last : Option ℕ

/-- The place of record number `n`. -/
def place : ℕ → Option ℕ
  | 0 => none
  | n + 1 => some n

/-- Where a record is after record `i` was deleted. -/
def shift (i : ℕ) : Option ℕ → Option ℕ
  | none => none
  | some k => if k = i then none else if i < k then some (k - 1) else some k

/-- One request; `none` when `__rec_dleaf` is called with an index that is not on its page. -/
def step (irec : Tree → ℕ → Ret × Tree) (w : World) : Request → Option (Ret × World)
  | .seq flags key found =>
    let out := recSeq irec found flags key w.t
    some (out.2.1, ⟨out.2.2, if out.2.1 = .success then place out.2.2.rcursor else w.last⟩)
  | .delete flags key answers =>
    match recDelete answers flags key w.t with
    | none => none
    | some (status, t) =>
      let removed := if flags = .cursor then decr w.t.rcursor else key - 1
      some (status, ⟨t, if status = .success then shift removed w.last else w.last⟩)

/-- A deletion at the cursor removes exactly the record that was returned last, or nothing. A scan
returns the record at its place, and a deletion by number removes that record. -/
def Right (irec : Tree → ℕ → Ret × Tree) (w : World) (request : Request) (status : Ret)
    (w' : World) : Prop :=
  match request with
  | .seq flags key found =>
    status = .success → ∀ k, w'.last = some k → (recSeq irec found flags key w.t).1 = w'.t.recs[k]?
  | .delete .cursor _ _ =>
    (status = .success ∧ ∃ k, w.last = some k ∧ k < w.t.recs.length ∧
      w'.t.recs = w.t.recs.eraseIdx k) ∨ (status ≠ .success ∧ w'.t = w.t)
  | .delete _ key _ => status = .success → w'.t.recs = w.t.recs.eraseIdx (key - 1)

/-- Every request of a run does right, and `__rec_dleaf` is never called with a wrong index. -/
def Holds (irec : Tree → ℕ → Ret × Tree) : World → List Request → Prop
  | _, [] => True
  | w, request :: rest =>
    ∃ status w', step irec w request = some (status, w') ∧ Right irec w request status w' ∧
      Holds irec w' rest

/-- Before a request: nothing will fail halfway, and at the cursor, the record that was returned
last is still there under the number of the cursor. -/
def Fit (w : World) : Request → Prop
  | .seq _ _ _ => True
  | .delete .none key answers => 0 < key → key ≤ w.t.nrecs → answers.Fine w.t (key - 1)
  | .delete .cursor _ answers => w.t.init → w.t.nrecs ≠ 0 →
      (∃ k, w.last = some k ∧ w.t.rcursor = k + 1) ∧ answers.Fine w.t (w.t.rcursor - 1)
  | .delete _ _ _ => True

def AllFit (irec : Tree → ℕ → Ret × Tree) : World → List Request → Prop
  | _, [] => True
  | w, request :: rest =>
    Fit w request ∧ ∀ status w', step irec w request = some (status, w') → AllFit irec w' rest

structure World.Sound (w : World) : Prop where
  tree : w.t.Sound
  last : ∀ k, w.last = some k → k < w.t.recs.length

theorem shift_lt {k n : ℕ} {last : Option ℕ} (hlast : ∀ k, last = some k → k < n) (hin : i < n)
    (hk : shift i last = some k) : k < n - 1 := by
  cases last with
  | none => cases hk
  | some l =>
    have hl := hlast l rfl
    rw [shift] at hk
    by_cases heq : l = i
    · rw [if_pos heq] at hk
      cases hk
    · rw [if_neg heq] at hk
      by_cases hlt : i < l
      · rw [if_pos hlt] at hk
        have := Option.some.inj hk
        omega
      · rw [if_neg hlt] at hk
        have := Option.some.inj hk
        omega

theorem World.Sound.deleted {w : World} (hw : w.Sound) (hin : i < w.t.recs.length) {t' : Tree}
    (hrecs : t'.recs = w.t.recs.eraseIdx i) (ht : t'.Sound) : World.Sound ⟨t', shift i w.last⟩ :=
  ⟨ht, fun k hk => by
    change k < t'.recs.length
    rw [hrecs, List.length_eraseIdx_of_lt hin]
    exact shift_lt hw.last hin hk⟩

theorem place_eq_some {n k : ℕ} : place n = some k ↔ n = k + 1 := by
  cases n with
  | zero =>
    refine ⟨fun h => ?_, fun h => absurd h (Nat.succ_ne_zero k).symm⟩
    cases h
  | succ n => exact Option.some_inj.trans Nat.succ_inj.symm

def Tree.setCursor (t : Tree) (n : ℕ) : Tree := { t with rcursor := n }

theorem recs_setCursor {n : ℕ} : (t.setCursor n).recs = t.recs := rfl

theorem Tree.Sound.setCursor {n : ℕ} (hs : t.Sound) : (t.setCursor n).Sound :=
  ⟨hs.counted, hs.nrecs, hs.bound⟩

theorem recDelete_number (answers : Answers) {key : ℕ} (hs : t.Sound)
    (hfit : 0 < key → key ≤ t.nrecs → answers.Fine t (key - 1)) :
    ∃ status t', recDelete answers .none key t = some (status, t') ∧
      (status = .success → key - 1 < t.recs.length ∧ t'.recs = t.recs.eraseIdx (key - 1) ∧
        t'.Sound) ∧ (status ≠ .success → t' = t) := by
  rw [recDelete]
  by_cases hzero : key = 0
  · rw [if_pos hzero]
    exact ⟨.error, t, rfl, fun h => Ret.noConfusion h, fun _ => rfl⟩
  · rw [if_neg hzero]
    by_cases hfar : t.nrecs < key
    · rw [if_pos hfar]
      exact ⟨.special, t, rfl, fun h => Ret.noConfusion h, fun _ => rfl⟩
    · rw [if_neg hfar]
      have hlt : key - 1 < t.recs.length := by
        rw [← hs.nrecs]
        omega
      obtain ⟨status, t', heq, hdeleted, -⟩ := recRdelete_spec hs hlt (hfit (by omega) (by omega))
      refine ⟨status, t', heq, fun hstatus => ?_, fun hstatus => ?_⟩
      · rcases hdeleted with ⟨-, hrecs, hsound⟩ | ⟨hfail, -⟩
        · exact ⟨hlt, hrecs, hsound⟩
        · exact absurd hstatus hfail
      · rcases hdeleted with ⟨hsuccess, -⟩ | ⟨-, heq'⟩
        · exact absurd hsuccess hstatus
        · exact heq'

theorem recDelete_cursor (answers : Answers) (key : ℕ) (hs : t.Sound)
    (hfit : t.init → t.nrecs ≠ 0 →
      0 < t.rcursor ∧ t.rcursor ≤ t.recs.length ∧ answers.Fine t (t.rcursor - 1)) :
    ∃ status t', recDelete answers .cursor key t = some (status, t') ∧
      (status = .success → t.init ∧ t.nrecs ≠ 0 ∧
        t'.recs = t.recs.eraseIdx (t.rcursor - 1) ∧ t'.Sound) ∧
      (status ≠ .success → t' = t) := by
  rw [recDelete]
  by_cases hinit : t.init
  · rw [if_neg (not_not.2 hinit)]
    by_cases hzero : t.nrecs = 0
    · rw [if_pos hzero]
      exact ⟨.special, t, rfl, fun h => Ret.noConfusion h, fun _ => rfl⟩
    · rw [if_neg hzero]
      obtain ⟨hpos, hle, hfine⟩ := hfit hinit hzero
      have hbound := hs.bound
      rw [hs.nrecs] at hbound
      have hdecr : decr t.rcursor = t.rcursor - 1 := decr_of_pos hpos (by omega)
      obtain ⟨status, t', heq, hdeleted, -⟩ := recRdelete_spec hs (by omega) hfine
      rw [hdecr, heq]
      rcases hdeleted with ⟨rfl, hrecs, hsound⟩ | ⟨hfail, rfl⟩
      · exact ⟨.success, t'.setCursor (decr t'.rcursor), rfl,
          fun _ => ⟨hinit, hzero, recs_setCursor.trans hrecs, hsound.setCursor⟩,
          fun h => absurd rfl h⟩
      · cases status with
        | success => exact absurd rfl hfail
        | error => exact ⟨.error, t', rfl, fun h => Ret.noConfusion h, fun _ => rfl⟩
        | special => exact ⟨.special, t', rfl, fun h => Ret.noConfusion h, fun _ => rfl⟩
  · rw [if_pos hinit]
    exact ⟨.error, t, rfl, fun h => Ret.noConfusion h, fun _ => rfl⟩

section

variable (hi : Appends irec)

include hi

theorem step_spec {w : World} {request : Request} (hw : w.Sound) (hfit : Fit w request) :
    ∃ status w', step irec w request = some (status, w') ∧ Right irec w request status w' ∧
      w'.Sound := by
  cases request with
  | seq flags key found =>
    obtain ⟨hsound, ⟨l, hl⟩, hfound⟩ := recSeq_spec hi found flags key hw.tree
    refine ⟨(recSeq irec found flags key w.t).2.1, ⟨(recSeq irec found flags key w.t).2.2,
      if (recSeq irec found flags key w.t).2.1 = .success then
        place (recSeq irec found flags key w.t).2.2.rcursor else w.last⟩, rfl,
      fun hstatus k hk => ?_, hsound, fun k hk => ?_⟩
    · dsimp only at hk
      rw [if_pos hstatus] at hk
      exact (hfound hstatus k (place_eq_some.1 hk)).2
    · dsimp only at hk
      by_cases hstatus : (recSeq irec found flags key w.t).2.1 = .success
      · rw [if_pos hstatus] at hk
        exact (hfound hstatus k (place_eq_some.1 hk)).1
      · rw [if_neg hstatus] at hk
        have hlt := hw.last k hk
        change k < (recSeq irec found flags key w.t).2.2.recs.length
        rw [hl, List.length_append]
        omega
  | delete flags key answers =>
    have hrefused : World.Sound ⟨w.t, w.last⟩ := hw
    cases flags with
    | none =>
      obtain ⟨status, t', heq, hdone, hsame⟩ := recDelete_number answers hw.tree hfit
      rw [step, heq]
      by_cases hstatus : status = .success
      · obtain ⟨hlt, hrecs, hsound⟩ := hdone hstatus
        refine ⟨status, _, rfl, fun _ => hrecs, ?_⟩
        rw [if_pos hstatus]
        exact hw.deleted hlt hrecs hsound
      · obtain rfl := hsame hstatus
        refine ⟨status, _, rfl, fun h => absurd h hstatus, ?_⟩
        rw [if_neg hstatus]
        exact hrefused
    | cursor =>
      have hfit' : w.t.init → w.t.nrecs ≠ 0 → 0 < w.t.rcursor ∧ w.t.rcursor ≤ w.t.recs.length ∧
          answers.Fine w.t (w.t.rcursor - 1) := fun hinit hzero => by
        obtain ⟨⟨k, hlast, hk⟩, hfine⟩ := hfit hinit hzero
        have := hw.last k hlast
        exact ⟨by omega, by omega, hfine⟩
      obtain ⟨status, t', heq, hdone, hsame⟩ :=
        recDelete_cursor answers key hw.tree hfit'
      rw [step, heq]
      by_cases hstatus : status = .success
      · obtain ⟨hinit, hzero, hrecs, hsound⟩ := hdone hstatus
        obtain ⟨⟨k, hlast, hk⟩, -⟩ := hfit hinit hzero
        have hlt := hw.last k hlast
        rw [hk, Nat.add_sub_cancel] at hrecs
        refine ⟨status, _, rfl, Or.inl ⟨hstatus, k, hlast, hlt, hrecs⟩, ?_⟩
        have hbound := hw.tree.bound
        rw [hw.tree.nrecs] at hbound
        have hdecr : decr w.t.rcursor = k := by
          rw [decr_of_pos (by omega) (by omega), hk, Nat.add_sub_cancel]
        rw [if_pos hstatus, if_pos rfl, hdecr]
        exact hw.deleted hlt hrecs hsound
      · obtain rfl := hsame hstatus
        refine ⟨status, _, rfl, Or.inr ⟨hstatus, rfl⟩, ?_⟩
        rw [if_neg hstatus]
        exact hrefused
    | first => exact ⟨.error, _, rfl, fun h => Ret.noConfusion h, hrefused⟩
    | iafter => exact ⟨.error, _, rfl, fun h => Ret.noConfusion h, hrefused⟩
    | ibefore => exact ⟨.error, _, rfl, fun h => Ret.noConfusion h, hrefused⟩
    | last => exact ⟨.error, _, rfl, fun h => Ret.noConfusion h, hrefused⟩
    | next => exact ⟨.error, _, rfl, fun h => Ret.noConfusion h, hrefused⟩
    | nooverwrite => exact ⟨.error, _, rfl, fun h => Ret.noConfusion h, hrefused⟩
    | prev => exact ⟨.error, _, rfl, fun h => Ret.noConfusion h, hrefused⟩
    | setcursor => exact ⟨.error, _, rfl, fun h => Ret.noConfusion h, hrefused⟩
    | recnosync => exact ⟨.error, _, rfl, fun h => Ret.noConfusion h, hrefused⟩

end

def twoRecords : World :=
  ⟨⟨0, [⟨[97], false⟩, ⟨[98], false⟩], 2, true, false, 0⟩, none⟩

def noFile (t : Tree) (_ : ℕ) : Ret × Tree := (.special, t)

theorem appends_noFile : Appends noFile :=
  ⟨fun _ _ hs => hs, fun t _ _ => ⟨[], (List.append_nil t.recs).symm⟩⟩

theorem sound_twoRecords : twoRecords.Sound :=
  ⟨⟨show 2 < 2 ^ 16 by decide, rfl, show 2 < 2 ^ 32 by decide⟩, fun k hk => by cases hk⟩

theorem scan_twoRecords : step noFile twoRecords (.seq .first 0 ⟨true, true⟩) =
    some (.success, ⟨{ twoRecords.t with init := true, rcursor := 1 }, some 0⟩) := rfl

end Bsdi.Db.Recno
