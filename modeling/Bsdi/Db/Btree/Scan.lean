import Bsdi.Db.Btree.Cut
import Bsdi.Db.Btree.Seq
import Bsdi.Db.Btree.Stack

/-!
# Scanning from a deleted cursor

`__bt_delete` at the cursor saves the key of the record, and the next scan looks for the first
record from that key on, in whichever direction it goes.
-/

namespace Bsdi.Db

open Bsdi.Lib

namespace Btree

variable {c : Config} {t t' : Btree} {cs cs' : List Chain} {fs fs' : List Pgno}
variable {leaves A B : List Node} {ups : List (List Node)} {x : Node} {bl : BLeaf}
variable {ord : Dbt → Dbt → Int} {dom : Dbt → Prop} {u v : List (Option Item)} {key : Dbt}

/-- A tree in order. Its keys may be on overflow pages. -/
structure InOrder (c : Config) (ord : Dbt → Dbt → Int) (dom : Dbt → Prop) (t : Btree)
    (cs : List Chain) (fs : List Pgno) (leaves : List Node) (ups : List (List Node)) : Prop where
  tree : Tree c t cs fs leaves ups
  filled : Filled leaves ups
  ordered : Ordered ord dom cs leaves ups

theorem InOrder.pairs (h : InOrder c ord dom t cs fs leaves ups) :
    (contents cs leaves).Pairwise fun p q => ord p.1 q.1 < 0 :=
  pairs_sorted (by simpa using h.tree.shape.length_fences) h.ordered.fenced h.tree.shape.records

theorem InOrder.frame (h : InOrder c ord dom t cs fs leaves ups) (hpages : t'.pages = t.pages)
    (hfree : t'.free = t.free) : InOrder c ord dom t' cs fs leaves ups :=
  { h with tree := ⟨by rw [hpages, hfree]; exact h.tree.rep, h.tree.shape⟩ }

theorem Ordered.dropPage {ups' : List (List Node)}
    (hshape : Shape c cs (A ++ { x with linp := [] } :: B) ups)
    (h : Ordered ord dom cs (A ++ { x with linp := [] } :: B) ups)
    (hshrunk : Shrunk Node.linp (slotKey cs) slotChild Node.pgno pRoot ups A.length ups') :
    Ordered ord dom cs (A ++ B) ups' where
  fenced := by
    have hfenced := h.fenced
    have hlen := hshape.length_fences
    simp only [List.map_append, List.map_cons, nodeKeys_mk] at hfenced ⊢
    refine hfenced.remove_near ?_ (by simpa [leafFences] using hshrunk.fences_eq)
    rw [hlen]
    simp
    omega
  dom level hlevel n hn s hs := by
    rcases List.mem_cons.1 hlevel with rfl | hup
    · refine h.dom _ (List.mem_cons_self ..) n ?_ s hs
      simp only [List.mem_append, List.mem_cons] at hn ⊢
      tauto
    · exact hshrunk.all (fun s => ∀ k ∈ slotKey cs s, dom k)
        (fun up hup n hn s hs => h.dom up (List.mem_cons_of_mem _ hup) n hn s hs)
        level hup n hn s hs

theorem InOrder.delete (hs : Sound c) (hnodups : c.nodups = true)
    (h : InOrder c ord dom t cs fs (A ++ x :: B) ups) (hlinp : x.linp = u ++ some (.bl bl) :: v)
    (hpath : u ++ v = [] → Path Node.linp Node.pgno ups A.length (path t.stack))
    (key : Option Dbt) :
    ∃ t₁ pg t', btDleaf c t key x.pgno u.length = .ok t₁ ∧ t₁.pages[x.pgno]? = some pg ∧
      (if pg.nextindex = 0 then btPdelete c t₁ x.pgno else .ok t₁) = .ok t' ∧
      t'.cursor = dleafCursor t x.pgno u.length (full cs bl.bigkey bl.key) ∧
      ∃ cs' fs' leaves' ups', InOrder c ord dom t' cs' fs' leaves' ups' ∧
        ups'.length ≤ ups.length ∧ contents cs' leaves' =
          contents cs A ++ (u.filterMap (slotPair cs) ++ v.filterMap (slotPair cs)) ++
            contents cs B := by
  obtain ⟨t₁, cs', fs₁, pg, t', heq₁, hremoves, hget, heq, hend⟩ :=
    h.tree.delete hs hnodups hlinp hpath key
  obtain ⟨htree, hsame⟩ := hremoves.tree h.tree hlinp
  have hordered := (h.ordered.erase h.tree.shape hlinp).rechain hsame
  have hcontents := contents_erase hsame
  refine ⟨t₁, pg, t', heq₁, hget, heq, ?_⟩
  rcases hend with ⟨hkept, st, rfl⟩ | ⟨hnil, hups, fs', hunlinks⟩
  · refine ⟨hremoves.cursor, cs', fs₁, _, ups, ⟨{ htree with }, fun hups n hn => ?_, hordered⟩,
      Nat.le_refl _, hcontents⟩
    simp only [List.mem_append, List.mem_cons] at hn
    rcases hn with hn | rfl | hn
    · exact h.filled hups n (by simp [hn])
    · exact hkept hups
    · exact h.filled hups n (by simp [hn])
  · obtain ⟨rfl, rfl⟩ := List.append_eq_nil_iff.1 hnil
    have hcursor : t'.cursor = t₁.cursor := by rw [hunlinks.only]
    refine ⟨hcursor.trans hremoves.cursor, ?_⟩
    rcases hunlinks.tree with ⟨ups', hrep, hshrunk, hint⟩ | ⟨rfl, rfl, hrep⟩
    · refine ⟨cs', fs', A ++ B, ups', ⟨⟨hrep, hshrunk.tower_cons htree.shape.tower, ?_, hint,
        by simpa [leafRefs] using htree.shape.refs⟩, fun _ n hn => ?_,
        hordered.dropPage htree.shape hshrunk⟩, Nat.le_of_eq hshrunk.height, ?_⟩
      · intro n hn
        refine htree.shape.leaf n ?_
        simp only [List.mem_append, List.mem_cons] at hn ⊢
        tauto
      · refine h.filled hups n ?_
        simp only [List.mem_append, List.mem_cons] at hn ⊢
        tauto
      · simpa using hcontents
    · have hfits := (htree.shape.leaf _ (List.mem_cons_self ..)).fits
      refine ⟨cs', fs', [⟨pRoot, .bleaf, []⟩], [], ⟨⟨hrep, ⟨rfl, trivial⟩, ?_, by simp,
        by simp [leafRefs]⟩, fun hne => absurd rfl hne, ?_, ?_⟩, Nat.zero_le _, by simp [contents]⟩
      · intro n hn
        obtain rfl := List.mem_singleton.1 hn
        exact ⟨rfl, by simp, hfits⟩
      · simp [Fenced, leafFences, fences, marks, nodeKeys]
      · intro level hlevel n hn s hs
        obtain rfl := List.mem_singleton.1 hlevel
        obtain rfl := List.mem_singleton.1 hn
        exact absurd hs (by simp)

/-- Position `e` is that of record `bl` of page `x`. -/
structure RecordAt (leaves A : List Node) (x : Node) (B : List Node) (u : List (Option Item))
    (bl : BLeaf) (v : List (Option Item)) (e : Epgno) : Prop where
  leaves_eq : leaves = A ++ x :: B
  linp_eq : x.linp = u ++ some (.bl bl) :: v
  pos : e = ⟨x.pgno, u.length⟩

theorem btRet_spec {e : Epgno} (hsize : 0 < plen c) (h : Tree c t cs fs leaves ups)
    (he : RecordAt leaves A x B u bl v e) : btRet c t e = .ok (recordPair cs bl) := by
  obtain ⟨rfl, hlinp, rfl⟩ := he
  obtain ⟨pg, hget, hpg⟩ := Rep.getNode (D := []) h.rep
  have hbl : pg.getBleaf u.length = .ok bl := by
    simp [Page.getBleaf, Page.slot, hpg.linp, hlinp]
  obtain ⟨bl', hbl', -, hkey, hdata⟩ := (h.shape.leaf x (by simp)).slots (some (.bl bl))
    (by simp [hlinp])
  obtain rfl : bl = bl' := by simpa using hbl'
  have hretData : btRetData c t bl = .ok (full cs bl.bigdata bl.data) :=
    fullKey_spec hsize h.rep hdata
  simp only [btRet, mpoolGet, hget, ok_bind, hbl, fullKey_spec hsize h.rep hkey, hretData]
  rfl

/-- The outcome of `__bt_first` for a key that is not in the tree: the first record behind it. -/
def FirstBehind (ord : Dbt → Dbt → Int) (cs : List Chain) (leaves : List Node) (key : Dbt) :
    Ret × Option Epgno → Prop
  | (r, none) => r = .special ∧ ∀ p ∈ contents cs leaves, ord p.1 key < 0
  | (r, some e) => r = .success ∧ ∃ A x B u bl v, RecordAt leaves A x B u bl v e ∧
      (∀ p ∈ contents cs A ++ u.filterMap (slotPair cs), ord p.1 key < 0) ∧
      ord key (recordPair cs bl).1 < 0

theorem btFirst_spec (hs : Sound c) (hnodups : c.nodups = true) (hord : TotalCmp ord)
    (hcmp : ∀ a b, dom a → dom b → c.cmp a b = ord a b)
    (h : InOrder c ord dom t cs fs leaves ups) (hdepth : ups.length ≤ stackSize)
    (hkey : dom key) (habsent : ∀ p ∈ contents cs leaves, p.1 ≠ key) :
    ∃ r e st, btFirst c t key = .ok (r, e, { t with stack := st }) ∧
      FirstBehind ord cs leaves key (r, e) := by
  obtain ⟨⟨t₁, e, exact⟩, A, x, B, u, v, hsearch, hloc, hplace⟩ :=
    btSearch_spec key hs.plen_pos hnodups h.tree.shape h.tree.rep hdepth
  have hplaced := hplace ord dom hord hcmp hkey h.ordered
  obtain ⟨rfl, hlinp, heq, -, hpgno, hindex, -⟩ := hloc
  obtain ⟨st, rfl⟩ : ∃ st, t₁ = { t with stack := st } := ⟨_, heq⟩
  obtain ⟨pgno, index⟩ := e
  obtain ⟨rfl, rfl⟩ : pgno = x.pgno ∧ index = u.length := ⟨hpgno, hindex⟩
  cases exact with
  | true =>
    obtain ⟨bl, w, rfl, -, hbl⟩ := hplaced.record h.tree.shape hlinp
    exact absurd hbl (habsent (recordPair cs bl) (by rw [contents_split hlinp]; simp))
  | false =>
    obtain ⟨hbefore, hbehind⟩ := hplaced.sides hord h.tree.shape h.ordered.fenced hlinp
    obtain ⟨pg, hget, hpg⟩ := Rep.getNode (D := []) h.tree.rep
    have hnextindex : pg.nextindex = u.length + v.length := by
      rw [Page.nextindex, hpg.linp, hlinp, List.length_append]
    cases v with
    | cons s v =>
      -- the record is on the page
      obtain ⟨bl, rfl⟩ := h.tree.shape.records x (by simp) s (by simp [hlinp])
      refine ⟨.success, some ⟨x.pgno, u.length⟩, st, ?_, rfl, A, x, B, u, bl, v,
        ⟨rfl, hlinp, rfl⟩, hbefore, hbehind _ (by simp [slotPair])⟩
      have hne : ¬ u.length = pg.nextindex := by simp [hnextindex]
      rw [btFirst, hsearch]
      simp only [ok_bind, Bool.false_eq_true, if_false, mpoolGet, hget, hne]
    | nil =>
      cases B with
      | nil =>
        refine ⟨.special, none, st, ?_, rfl, fun p hp => hbefore p ?_⟩
        · rw [btFirst, hsearch]
          have hnext : pg.nextpg = pInvalid := hpg.nextpg
          simp [mpoolGet, hget, hnextindex, hnext]
        · simpa [hlinp, contents] using hp
      | cons y B =>
        -- the record is the first one of the next page
        have hups : ups ≠ [] := by
          rintro rfl
          simpa using h.tree.shape.tower.alone.2
        obtain ⟨s, w, hy⟩ := List.exists_cons_of_ne_nil (h.filled hups y (by simp))
        obtain ⟨bl, rfl⟩ := h.tree.shape.records y (by simp) s (by simp [hy])
        have hrep : Rep (plen c) t.pages t.free ⟨((A ++ [x]) ++ y :: B) :: ups, cs, fs⟩ := by
          simpa using h.tree.rep
        obtain ⟨pg', hget', hpg'⟩ := Rep.getNode (D := []) hrep
        have hzero : y.pgno ≠ pInvalid := (Rep.nonzero_node (D := []) hrep).1
        refine ⟨.success, some ⟨y.pgno, 0⟩, st, ?_, rfl, A ++ [x], y, B, [], bl, w,
          ⟨by simp, hy, rfl⟩, ?_, hbehind _ (by simp [hy, slotPair])⟩
        · have hnext : pg.nextpg = y.pgno := hpg.nextpg
          rw [btFirst, hsearch]
          simp [mpoolGet, hget, hnextindex, hnext, hzero, hget', hpg'.pgno]
        · simpa [hlinp, contents] using hbefore

/-- The pair that a scan from `key` returns: the nearest one, or nothing if there is no pair that
way. -/
def Nearest (lt : Dbt → Dbt → Prop) (pairs : List (Dbt × Dbt)) (key : Dbt) :
    Option (Dbt × Dbt) → Prop
  | some p => p ∈ pairs ∧ lt key p.1 ∧ ∀ q ∈ pairs, lt key q.1 → q = p ∨ lt p.1 q.1
  | none => ∀ q ∈ pairs, ¬ lt key q.1

def Ahead (ord : Dbt → Dbt → Int) (flags : Flag) (a b : Dbt) : Prop :=
  if flags = .prev then ord b a < 0 else ord a b < 0

/-- The answer of a scan: the nearest pair, or `RET_SPECIAL`. -/
def Answers (ord : Dbt → Dbt → Int) (flags : Flag) (pairs : List (Dbt × Dbt)) (key : Dbt)
    (r : Ret) (reply : Option (Dbt × Dbt)) : Prop :=
  r = (if reply.isSome then .success else .special) ∧
    Nearest (Ahead ord flags) pairs key reply

theorem Nearest.prev_iff {pairs : List (Dbt × Dbt)} {reply : Option (Dbt × Dbt)}
    (hord : TotalCmp ord) (habsent : ∀ p ∈ pairs, p.1 ≠ key)
    (h : Nearest (fun a b => ord a b < 0) pairs key reply) :
    Nearest (fun a b => ord b a < 0) pairs key reply ↔ pairs = [] := by
  cases reply with
  | some p =>
    refine ⟨fun hprev => absurd (hord.trans _ _ _ h.2.1 hprev.2.1) (hord.irrefl _), ?_⟩
    rintro rfl
    exact absurd h.1 (by simp)
  | none =>
    constructor
    · intro hprev
      refine List.eq_nil_iff_forall_not_mem.2 fun q hq => habsent q hq ?_
      have hnext : ¬ ord key q.1 < 0 := h q hq
      have hprev : ¬ ord q.1 key < 0 := hprev q hq
      rw [hord.neg_swap] at hprev
      exact ((hord.eq_zero key q.1).1 (by omega)).symm
    · rintro rfl
      simp [Nearest]

theorem FirstBehind.answer {r : Ret} {e : Option Epgno} (hs : Sound c) (hord : TotalCmp ord)
    (h : InOrder c ord dom t cs fs leaves ups) (hfirst : FirstBehind ord cs leaves key (r, e)) :
    Answers ord .next (contents cs leaves) key r none ∧ e = none ∨
      ∃ p e', e = some e' ∧ btRet c t e' = .ok p ∧
        Answers ord .next (contents cs leaves) key r (some p) := by
  cases e with
  | none =>
    obtain ⟨hr, hbefore⟩ := hfirst
    refine .inl ⟨⟨hr, fun q hq => ?_⟩, rfl⟩
    have hlt := hbefore q hq
    rw [hord.neg_swap] at hlt
    simp only [Ahead, reduceCtorEq, if_false]
    omega
  | some e =>
    obtain ⟨hr, A, x, B, u, bl, v, hat, hbefore, hkey⟩ := hfirst
    refine .inr ⟨recordPair cs bl, e, rfl, btRet_spec hs.plen_pos h.tree hat, hr, ?_, hkey, ?_⟩
    · rw [hat.leaves_eq, contents_split hat.linp_eq]
      simp
    · intro q hq hahead
      have hpairs := h.pairs
      rw [hat.leaves_eq, contents_split hat.linp_eq] at hq hpairs
      rw [List.mem_append, List.mem_cons] at hq
      rcases hq with hq | rfl | hq
      · have hlt := hbefore q hq
        rw [hord.neg_swap] at hlt
        simp only [Ahead, reduceCtorEq, if_false] at hahead
        omega
      · exact .inl rfl
      · exact .inr ((List.pairwise_cons.1 (List.pairwise_append.1 hpairs).2.1).1 q hq)

/-- The cursor is on a record: it was set by a scan, and the record was not deleted. -/
structure CursorAt (t : Btree) (e : Epgno) : Prop where
  init : t.cursor.init = true
  acquire : t.cursor.acquire = false
  after : t.cursor.after = false
  before : t.cursor.before = false
  pg : t.cursor.pg = e

theorem deleteCursor_eq {e : Epgno} (hs : Sound c) (hnodups : c.nodups = true)
    (htree : Tree c t cs fs leaves ups) (hdepth : ups.length ≤ stackSize)
    (hat : RecordAt leaves A x B u bl v e) (hcursor : CursorAt t e) :
    ∃ st, (u ++ v = [] → Path Node.linp Node.pgno ups A.length (path st)) ∧
      ∀ t₁ pg₁ t', btDleaf c { t with stack := st } none x.pgno u.length = .ok t₁ →
        t₁.pages[x.pgno]? = some pg₁ →
        (if pg₁.nextindex = 0 then btPdelete c t₁ x.pgno else .ok t₁) = .ok t' →
        deleteCursor c t = .ok (.success, { t' with modified := true }) := by
  obtain ⟨rfl, hlinp, rfl⟩ := hat
  obtain ⟨pg, hget, hpg⟩ := Rep.getNode (D := []) htree.rep
  have hpgno : t.cursor.pg.pgno = x.pgno := by rw [hcursor.pg]
  have hindex : t.cursor.pg.index = u.length := by rw [hcursor.pg]
  have hnextindex : pg.nextindex = (u ++ v).length + 1 := by
    simp [Page.nextindex, hpg.linp, hlinp]
    omega
  obtain ⟨st, hacquire, hpath⟩ : ∃ st,
      (pg.nextindex = 1 ∧ btStkacq c t = .ok { t with stack := st } ∨
        pg.nextindex ≠ 1 ∧ st = t.stack) ∧
      (u ++ v = [] → Path Node.linp Node.pgno ups A.length (path st)) := by
    by_cases hone : u ++ v = []
    · obtain ⟨st, heq, hpath⟩ :=
        btStkacq_spec hs.plen_pos hnodups htree.shape htree.rep hdepth hpgno
      exact ⟨st, .inl ⟨by simp [hnextindex, hone], heq⟩, fun _ => hpath⟩
    · exact ⟨t.stack, .inr ⟨by simpa [hnextindex] using hone, rfl⟩, fun hnil => absurd hnil hone⟩
  refine ⟨st, hpath, fun t₁ pg₁ t' heq₁ hget₁ heq => ?_⟩
  rw [deleteCursor, if_neg (by simp [hcursor.init]),
    if_neg (by simp [hcursor.acquire, hcursor.after, hcursor.before])]
  simp only [hpgno, mpoolGet, hget, ok_bind]
  rcases hacquire with ⟨hone, hstk⟩ | ⟨hone, rfl⟩
  · by_cases hzero : pg₁.nextindex = 0
    · rw [if_pos hzero] at heq
      simp only [if_pos hone, hstk, ok_bind, hindex, heq₁, hget₁, if_pos hzero, heq]
    · rw [if_neg hzero] at heq
      obtain rfl := Except.ok.inj heq
      simp only [if_pos hone, hstk, ok_bind, hindex, heq₁, hget₁, if_neg hzero]
  · by_cases hzero : pg₁.nextindex = 0
    · rw [if_pos hzero] at heq
      simp only [if_neg hone, ok_bind, hindex, heq₁, hget₁, if_pos hzero, heq]
    · rw [if_neg hzero] at heq
      obtain rfl := Except.ok.inj heq
      simp only [if_neg hone, ok_bind, hindex, heq₁, hget₁, if_neg hzero]

theorem deleteCursor_spec {e : Epgno} (hs : Sound c) (hnodups : c.nodups = true)
    (h : InOrder c ord dom t cs fs leaves ups) (hdepth : ups.length ≤ stackSize)
    (hat : RecordAt leaves A x B u bl v e) (hcursor : CursorAt t e) :
    ∃ t₁, deleteCursor c t = .ok (.success, t₁) ∧ t₁.cursor.init = true ∧
      t₁.cursor.acquire = true ∧ t₁.cursor.key = (recordPair cs bl).1 ∧
      ∃ cs' fs' leaves' ups', InOrder c ord dom t₁ cs' fs' leaves' ups' ∧
        ups'.length ≤ stackSize ∧ contents cs' leaves' =
          contents cs A ++ (u.filterMap (slotPair cs) ++ v.filterMap (slotPair cs)) ++
            contents cs B := by
  obtain ⟨st, hpath, hrun⟩ := deleteCursor_eq hs hnodups h.tree hdepth hat hcursor
  obtain ⟨rfl, hlinp, rfl⟩ := hat
  have h₁ : InOrder c ord dom { t with stack := st } cs fs (A ++ x :: B) ups := h.frame rfl rfl
  obtain ⟨t₁, pg₁, t', heq₁, hget₁, heq, hcur, cs', fs', leaves', ups', horder, hheight,
    hcontents⟩ := h₁.delete hs hnodups hlinp hpath none
  have hon : ({ t with stack := st } : Btree).cursorOn x.pgno ∧ t.cursor.pg.index = u.length := by
    rw [hcursor.pg]
    exact ⟨by simp [cursorOn, hcursor.init, hcursor.acquire, hcursor.pg], rfl⟩
  rw [dleafCursor, if_pos hon] at hcur
  exact ⟨{ t' with modified := true }, hrun t₁ pg₁ t' heq₁ hget₁ heq,
    by rw [hcur]; exact hcursor.init, by rw [hcur], by rw [hcur]; rfl, cs', fs', leaves', ups',
    horder.frame rfl rfl, by omega, hcontents⟩

theorem InOrder.erase_pair (hord : TotalCmp ord) (h : InOrder c ord dom t cs fs leaves ups)
    {e : Epgno} (hat : RecordAt leaves A x B u bl v e) :
    (contents cs leaves).erase (recordPair cs bl) =
        contents cs A ++ (u.filterMap (slotPair cs) ++ v.filterMap (slotPair cs)) ++
          contents cs B ∧
      (∀ p ∈ (contents cs leaves).erase (recordPair cs bl), p.1 ≠ (recordPair cs bl).1) ∧
      ((contents cs leaves).erase (recordPair cs bl) = [] ↔ (contents cs leaves).length = 1) := by
  have hpairs := h.pairs
  rw [hat.leaves_eq, contents_split hat.linp_eq] at hpairs ⊢
  obtain ⟨-, hbehind, hbefore⟩ := List.pairwise_append.1 hpairs
  have hne : ∀ p ∈ contents cs A ++ u.filterMap (slotPair cs), p.1 ≠ (recordPair cs bl).1 := by
    intro p hp heq
    exact hord.irrefl _ (heq ▸ hbefore p hp _ (List.mem_cons_self ..))
  have hne' : ∀ p ∈ v.filterMap (slotPair cs) ++ contents cs B, p.1 ≠ (recordPair cs bl).1 := by
    intro p hp heq
    exact hord.irrefl _ (heq ▸ (List.pairwise_cons.1 hbehind).1 p hp)
  rw [List.erase_append_right _ fun hmem => hne _ hmem rfl, List.erase_cons_head]
  refine ⟨by simp only [List.append_assoc], fun p hp => ?_, ?_⟩
  · exact (List.mem_append.1 hp).elim (hne p) (hne' p)
  · rw [← List.length_eq_zero_iff]
    simp only [List.length_append, List.length_cons]
    omega

/-- A scan from a deleted cursor, in a tree without duplicates. The answer is right for `R_NEXT`;
for `R_PREV` it is that of `R_NEXT`, which is right only if no record is left. -/
theorem btSeq_deleted {e : Epgno} (hs : Sound c) (hnodups : c.nodups = true)
    (hrdonly : c.rdonly = false) (hord : TotalCmp ord)
    (hcmp : ∀ a b, dom a → dom b → c.cmp a b = ord a b)
    (h : InOrder c ord dom t cs fs leaves ups) (hdepth : ups.length ≤ stackSize)
    (hat : RecordAt leaves A x B u bl v e) (hcursor : CursorAt t e) (key₁ key₂ : Dbt)
    {f : Flag} (hf : f = .next ∨ f = .prev) :
    ∃ t₁ r reply t₂, btDelete c t key₁ .cursor = .ok (.success, t₁) ∧
      btSeq c t₁ key₂ f = .ok (r, reply, t₂) ∧
      (Answers ord f ((contents cs leaves).erase (recordPair cs bl)) (recordPair cs bl).1 r reply ↔
        f = .next ∨ (contents cs leaves).length = 1) := by
  obtain ⟨hleft, habsent, hempty⟩ := h.erase_pair hord hat
  obtain ⟨t₁, hdelete, hinit, hacquire, hkey, cs', fs', leaves', ups', horder, hheight,
    hcontents⟩ := deleteCursor_spec hs hnodups h hdepth hat hcursor
  have hdom : dom (recordPair cs bl).1 := by
    obtain ⟨rfl, hlinp, -⟩ := hat
    exact h.ordered.dom _ (List.mem_cons_self ..) x (by simp) (some (.bl bl)) (by simp [hlinp])
      _ rfl
  rw [hleft, ← hcontents] at habsent hempty ⊢
  obtain ⟨r, e', st, hfirst, hbehind⟩ :=
    btFirst_spec hs hnodups hord hcmp horder hheight hdom habsent
  -- both directions return what `__bt_first` found
  obtain ⟨reply, t₂, hseq, hnext⟩ : ∃ reply t₂, btSeq c t₁ key₂ f = .ok (r, reply, t₂) ∧
      Answers ord .next (contents cs' leaves') (recordPair cs bl).1 r reply := by
    have hadv : btSeqadv c t₁ f = .ok (r, e', { t₁ with stack := st }) := by
      rw [btSeqadv, if_pos hacquire, hkey, hfirst]
    have hflags : f = .next ∨ f = .prev ∨ f = .first ∨ f = .last ∨ f = .cursor := by tauto
    have hframe : InOrder c ord dom (({ t₁ with stack := st } : Btree).btSetcur (e'.getD ⟨0, 0⟩))
        cs' fs' leaves' ups' := horder.frame rfl rfl
    rcases hbehind.answer hs hord hframe with ⟨hanswer, rfl⟩ | ⟨p, e', rfl, hret, hanswer⟩
    · refine ⟨none, { t₁ with stack := st }, ?_, hanswer⟩
      rw [btSeq, if_pos hflags, if_pos ⟨hf, hinit⟩, hadv, ok_bind]
    · have hr : r = .success := hanswer.1
      refine ⟨some p, ({ t₁ with stack := st } : Btree).btSetcur e', ?_, hanswer⟩
      rw [btSeq, if_pos hflags, if_pos ⟨hf, hinit⟩, hadv, ok_bind]
      simp only [Option.getD_some] at hret
      simp only [hret, ok_bind, hr]
  refine ⟨t₁, r, reply, t₂, by simp [btDelete, hrdonly, hdelete], hseq, ?_⟩
  rcases hf with rfl | rfl
  · exact ⟨fun _ => .inl rfl, fun _ => hnext⟩
  · rw [← hempty]
    have hiff := Nearest.prev_iff hord habsent hnext.2
    exact ⟨fun hprev => .inr (hiff.1 hprev.2),
      fun hor => ⟨hnext.1, hiff.2 (hor.resolve_left (by simp))⟩⟩

def bytePair (j : UInt8) : BLeaf := ⟨[j], [], false, false⟩

def threeNode : Node := ⟨pRoot, .bleaf, [some (.bl (bytePair 1)), some (.bl (bytePair 2)),
  some (.bl (bytePair 3))]⟩

def threePairs : Btree :=
  { newTree .bleaf with
    pages := [junkPage, { rootPage .bleaf with linp := threeNode.linp }]
    cursor := { noCursor with init := true, pg := ⟨pRoot, 1⟩ } }

def OnPage (c : Config) (key : Dbt) : Prop := key.length ≤ c.ovflsize

theorem threePairs_sound : Sound smallConfig := sound_open (by decide) (by decide) (by decide)

theorem threePairs_compares : Compares smallConfig lexCmp :=
  compares_default (by decide) (by decide) (by decide) rfl rfl

theorem threePairs_order :
    InOrder smallConfig lexCmp (OnPage smallConfig) threePairs [] [] [threeNode] [] where
  tree :=
    { rep :=
        { linked := by
            intro level hlevel
            obtain rfl := List.mem_singleton.1 hlevel
            exact ⟨⟨_, rfl, ⟨rfl, rfl, rfl, rfl, rfl⟩⟩, trivial⟩
          chains := by simp
          free := rfl
          nodup := by simp [View.pgnos]
          nonzero := by simp [View.pgnos, threeNode, pRoot, pInvalid]
          pos := by simp [threePairs]
          max := by simp [threePairs, u32Mod] }
      shape :=
        { tower := ⟨rfl, trivial⟩
          leaf := by
            intro n hn
            obtain rfl := List.mem_singleton.1 hn
            refine ⟨rfl, fun s hs => ?_, by rw [Fits]; decide +kernel⟩
            simp only [threeNode, List.mem_cons, List.not_mem_nil, or_false] at hs
            rcases hs with rfl | rfl | rfl <;>
              exact ⟨_, rfl, by decide +kernel, by simp [bytePair], by simp [bytePair]⟩
          internal := by simp
          refs := by decide +kernel } }
  filled := fun hne => absurd rfl hne
  ordered :=
    { fenced := by
        simp [Fenced, leafFences, fences, marks, nodeKeys, threeNode, slotKey, itemKey, bytePair,
          Mark.Before, lexCmp]
      dom := by
        intro level hlevel n hn s hs k hk
        obtain rfl := List.mem_singleton.1 hlevel
        obtain rfl := List.mem_singleton.1 hn
        simp only [threeNode, List.mem_cons, List.not_mem_nil, or_false] at hs
        rcases hs with rfl | rfl | rfl <;>
          (obtain rfl := Option.some.inj hk; rw [OnPage]; decide +kernel) }

theorem threePairs_record : RecordAt [threeNode] [] threeNode [] [some (.bl (bytePair 1))]
    (bytePair 2) [some (.bl (bytePair 3))] ⟨pRoot, 1⟩ :=
  ⟨rfl, rfl, rfl⟩

theorem btSeq_deleted_next : ∃ t₁ r reply t₂,
    btDelete smallConfig threePairs [] .cursor = .ok (.success, t₁) ∧
    btSeq smallConfig t₁ [] .next = .ok (r, reply, t₂) ∧
    Answers lexCmp .next [([1], []), ([3], [])] [2] r reply := by
  obtain ⟨t₁, r, reply, t₂, hdelete, hseq, hiff⟩ :=
    btSeq_deleted threePairs_sound (by decide) rfl threePairs_compares.total
      threePairs_compares.cmp threePairs_order (by decide) threePairs_record
      ⟨rfl, rfl, rfl, rfl, rfl⟩ [] [] (.inl rfl)
  exact ⟨t₁, r, reply, t₂, hdelete, hseq, hiff.2 (.inl rfl)⟩

/-- With `R_PREV` the next record is returned too. -/
theorem btSeq_deleted_prev :
    ¬ ∀ (c : Config) (ord : Dbt → Dbt → Int) (dom : Dbt → Prop) (t : Btree) (cs : List Chain)
      (fs : List Pgno) (leaves A : List Node) (x : Node) (B : List Node) (ups : List (List Node))
      (u : List (Option Item)) (bl : BLeaf) (v : List (Option Item)) (e : Epgno) (f : Flag),
      Sound c → c.nodups = true → c.rdonly = false → TotalCmp ord →
      (∀ a b, dom a → dom b → c.cmp a b = ord a b) → InOrder c ord dom t cs fs leaves ups →
      ups.length ≤ stackSize → RecordAt leaves A x B u bl v e → CursorAt t e →
      (f = .next ∨ f = .prev) →
      ∃ t₁ r reply t₂, btDelete c t [] .cursor = .ok (.success, t₁) ∧
        btSeq c t₁ [] f = .ok (r, reply, t₂) ∧
        Answers ord f ((contents cs leaves).erase (recordPair cs bl)) (recordPair cs bl).1 r
          reply := by
  intro hclaim
  obtain ⟨t₁, r, reply, t₂, hdelete, hseq, hanswers⟩ :=
    hclaim smallConfig lexCmp (OnPage smallConfig) threePairs [] [] [threeNode] [] threeNode [] []
      [some (.bl (bytePair 1))] (bytePair 2) [some (.bl (bytePair 3))] ⟨pRoot, 1⟩ .prev
      threePairs_sound (by decide) rfl threePairs_compares.total threePairs_compares.cmp
      threePairs_order (by decide) threePairs_record ⟨rfl, rfl, rfl, rfl, rfl⟩ (.inr rfl)
  have hreply : ((btDelete smallConfig threePairs [] .cursor).toOption.bind fun q =>
      (btSeq smallConfig q.2 [] .prev).toOption.bind fun q => q.2.1) = some ([3], []) := by
    decide +kernel
  rw [hdelete] at hreply
  simp only [Except.toOption, Option.bind_some, hseq] at hreply
  subst hreply
  exact absurd hanswers.2.2.1 (by rw [Ahead]; decide +kernel)

end Btree

end Bsdi.Db
