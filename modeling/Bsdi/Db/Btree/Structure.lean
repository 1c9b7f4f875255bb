import Bsdi.Db.Btree.Roomy

/-!
# The structure of a tree

What holds of the pages of a tree whose pages have room for four pairs, after every run of
calls: its levels, the links between the pages of a level, the separators on its internal
pages and its free list.
-/

namespace Bsdi.Db

open Bsdi.Lib

namespace Btree

variable {c : Config} {t : Btree} {cs : List Chain} {fs : List Pgno}
variable {leaves : List Node} {ups : List (List Node)}
variable {ord : Dbt → Dbt → Int} {m : Dbt → Option Dbt}

/-- `k` is the key of a record on page `p` or on a leaf page below it. -/
inductive Under (ps : List Page) : Pgno → Dbt → Prop
  | leaf {p : Pgno} {h : Page} {bl : BLeaf} (hget : ps[p]? = some h) (htype : h.type = .bleaf)
    (hmem : some (.bl bl) ∈ h.linp) : Under ps p bl.key
  | internal {p : Pgno} {h : Page} {bi : BInternal} {k : Dbt} (hget : ps[p]? = some h)
    (htype : h.type = .binternal) (hmem : some (.bi bi) ∈ h.linp) (hbelow : Under ps bi.pgno k) :
    Under ps p k

/-- The structure of a tree: `leaves` are its leaf pages from left to right, `ups` the levels
of internal pages above them and `fs` the pages on the free list. -/
structure Structured (ord : Dbt → Dbt → Int) (t : Btree) (leaves : List Node)
    (ups : List (List Node)) (fs : List Pgno) : Prop where
  /-- The pages of a level are linked in both directions. -/
  linked : ∀ level ∈ leaves :: ups, Linked Node.pgno (Shows t.pages) pInvalid level pInvalid
  /-- Each level is the pages the level above leads to, and the top one is the root. -/
  tower : Tower Node.linp slotChild Node.pgno pRoot (leaves :: ups)
  leaf : ∀ n ∈ leaves, n.type = .bleaf ∧ ∀ s ∈ n.linp, ∃ bl, s = some (.bl bl) ∧ bl.bigkey = false
  internal : ∀ up ∈ ups, ∀ n ∈ up, n.type = .binternal ∧ n.linp ≠ [] ∧
    ∀ s ∈ n.linp, ∃ bi, s = some (.bi bi) ∧ bi.bigkey = false
  /-- A separator is above every key below the entry before it on its level. -/
  above : ∀ up ∈ ups, ∀ P d e Q,
    up.flatMap Node.linp = P ++ some (.bi d) :: some (.bi e) :: Q →
    ∀ k, Under t.pages d.pgno k → ord k e.key < 0
  /-- A separator that is not the first of its page is not above any key below its entry. -/
  below : ∀ up ∈ ups, ∀ n ∈ up, ∀ u e v, n.linp = u ++ some (.bi e) :: v → u ≠ [] →
    ∀ k, Under t.pages e.pgno k → ¬ ord k e.key < 0
  /-- The keys of the leaf pages are in order. -/
  sorted : (leaves.map (nodeKeys [])).flatten.Pairwise fun a b => ord a b < 0
  filled : ups ≠ [] → ∀ n ∈ leaves, n.linp ≠ []
  freed : FreeAt t.pages t.free fs
  apart : ∀ p ∈ fs, p ∉ (leaves :: ups).flatten.map Node.pgno

theorem Sorted.under_brackets (hord : TotalCmp ord) (h : Sorted c ord t cs fs leaves ups) {p : Pgno}
    {k : Dbt} (hunder : Under t.pages p k) {D U : List (List Node)} {A B : List Node} {x : Node}
    (hlevels : leaves :: ups = D ++ (A ++ x :: B) :: U) (hx : x.pgno = p) :
    Brackets ord (fences Node.linp (slotKey cs) U) A.length k := by
  have hshape := h.tree.shape
  induction hunder generalizing D A x B U with
  | @leaf p pg bl hget htype hmem =>
    subst hx
    have hrep := h.tree.rep
    rw [hlevels] at hrep
    obtain ⟨pg', hget', hpg⟩ := hrep.getNode
    obtain rfl : pg = pg' := Option.some.inj (hget.symm.trans hget')
    cases D with
    | cons L D =>
      have hup : A ++ x :: B ∈ ups := by
        rw [(List.cons.inj hlevels).2]
        simp
      have hinternal := (hshape.internal _ hup x (by simp)).type
      rw [← hpg.type, htype] at hinternal
      simp at hinternal
    | nil =>
      obtain ⟨rfl, rfl⟩ : leaves = A ++ x :: B ∧ ups = U := by simpa using hlevels
      rw [hpg.linp] at hmem
      obtain ⟨X, low, Y, hXY, hX, hY⟩ := hshape.tower.split_fences (slotKey cs)
      have hfenced := h.fenced
      rw [leafFences, hXY, List.map_append, List.map_cons] at hfenced
      have hkey : bl.key ∈ nodeKeys cs x := List.mem_filterMap.2
        ⟨_, hmem, by simp [slotKey, itemKey, h.small x (by simp) bl hmem]⟩
      obtain ⟨hlow, hnext⟩ := hfenced.within (by simpa using hX) (by simpa using hY) hkey
      exact ⟨X, low, Y, hXY, hX, hlow, hnext⟩
  | @internal p pg bi k hget htype hmem _ ih =>
    subst hx
    have hrep := h.tree.rep
    rw [hlevels] at hrep
    obtain ⟨pg', hget', hpg⟩ := hrep.getNode
    obtain rfl : pg = pg' := Option.some.inj (hget.symm.trans hget')
    obtain rfl | ⟨D, level, rfl⟩ := List.eq_nil_or_concat D
    · obtain ⟨rfl, rfl⟩ : leaves = A ++ x :: B ∧ ups = U := by simpa using hlevels
      have hleaf := (hshape.leaf x (by simp)).type
      rw [← hpg.type, htype] at hleaf
      simp at hleaf
    · rw [List.concat_eq_append, List.append_assoc, List.singleton_append] at hlevels
      obtain ⟨D', hD'⟩ : ∃ D', ups = D' ++ (A ++ x :: B) :: U := by
        cases D with
        | nil => exact ⟨[], (List.cons.inj hlevels).2⟩
        | cons L D => exact ⟨D ++ [level], by simpa using (List.cons.inj hlevels).2⟩
      have htower : Tower Node.linp slotChild Node.pgno pRoot (level :: (A ++ x :: B) :: U) := by
        have := hshape.tower
        rw [hlevels] at this
        exact this.suffix
      rw [hpg.linp] at hmem
      obtain ⟨u, v, hlinp⟩ := List.append_of_mem hmem
      obtain ⟨A', x', B', rfl, hA', hx'⟩ := htower.child_node hlinp rfl
      have hbelow := ih hlevels hx'
      rw [hA'] at hbelow
      have hne : ∀ m ∈ B, m.linp ≠ [] := fun m hm =>
        (hshape.internal (A ++ x :: B) (by simp [hD']) m (by simp [hm])).ne
      refine hbelow.ascend hord hlinp hne ?_ (h.ordered.sorted_fences hshape hD')
      rw [htower.2.length (slotKey cs)]
      simp
      omega

theorem Sorted.entry_brackets (hord : TotalCmp ord) (h : Sorted c ord t cs fs leaves ups)
    {D U : List (List Node)} {up : List Node} {P Q : List (Option Item)} {e : BInternal} {k : Dbt}
    (hups : ups = D ++ up :: U) (hslots : up.flatMap Node.linp = P ++ some (.bi e) :: Q)
    (hunder : Under t.pages e.pgno k) :
    Brackets ord (fences Node.linp (slotKey cs) (up :: U)) P.length k := by
  obtain ⟨D', level, hlevels⟩ : ∃ D' level, leaves :: ups = D' ++ level :: up :: U := by
    rw [hups]
    obtain rfl | ⟨D, level, rfl⟩ := List.eq_nil_or_concat D
    · exact ⟨[], leaves, rfl⟩
    · exact ⟨leaves :: D, level, by simp⟩
  have htower : Tower Node.linp slotChild Node.pgno pRoot (level :: up :: U) := by
    have := h.tree.shape.tower
    rw [hlevels] at this
    exact this.suffix
  obtain ⟨A, x, B, rfl, hA, hx⟩ := htower.child_at hslots rfl
  rw [← hA]
  exact h.under_brackets hord hunder hlevels hx

theorem Lowest.suffix {D U : List (List Node)} {le : Option Dbt → Option Dbt → Prop}
    (h : Lowest Node.linp (slotKey cs) le (D ++ U)) : Lowest Node.linp (slotKey cs) le U := by
  induction D with
  | nil => exact h
  | cons level D ih => exact ih h.2

theorem Sorted.structured (hord : TotalCmp ord) (h : Sorted c ord t cs fs leaves ups) :
    Structured ord t leaves ups fs where
  linked level hlevel := h.tree.rep.linked level hlevel
  tower := h.tree.shape.tower
  leaf n hn := by
    refine ⟨(h.tree.shape.leaf n hn).type, fun s hs => ?_⟩
    obtain ⟨bl, rfl, -⟩ := (h.tree.shape.leaf n hn).slots s hs
    exact ⟨bl, rfl, h.small n hn bl hs⟩
  internal up hup n hn := by
    have hint := h.tree.shape.internal up hup n hn
    refine ⟨hint.type, hint.ne, fun s hs => ?_⟩
    obtain ⟨bi, rfl, hbig, -⟩ := (hint.slots s hs).small h.plain
    exact ⟨bi, rfl, hbig⟩
  above up hup P d e Q hslots k hunder := by
    obtain ⟨D, U, hups⟩ := List.append_of_mem hup
    obtain ⟨X, low, Y, hXY, hX, -, hnext⟩ := h.entry_brackets hord hups hslots hunder
    have htower : Tower Node.linp slotChild Node.pgno pRoot (up :: U) := by
      have := h.tree.shape.tower.2
      rw [hups] at this
      exact this.suffix
    have hlow : Lowest Node.linp (slotKey cs) (LowLe ord) (up :: U) := by
      have := h.low
      rw [hups] at this
      exact Lowest.suffix this
    -- the fence of the next entry, and the key on it
    have hfences := hlow.1.forall₂ (htower.length (slotKey cs)) (LowLe.refl hord)
    rw [← fences, hXY, hslots, List.map_append, List.map_cons, List.map_cons] at hfences
    have htail := (List.forall₂_drop_append _ _ _ hfences)
    rw [List.length_map, ← hX, List.drop_left] at htail
    cases htail with
    | cons _ hrest =>
      cases hrest with
      | @cons y _ Y' _ hle _ =>
        have hbig : e.bigkey = false := by
          obtain ⟨n, hn, hs⟩ := List.mem_flatMap.1
            (by rw [hslots]; simp : some (Item.bi e) ∈ up.flatMap Node.linp)
          obtain ⟨bi, hbi, hbig, -⟩ :=
            ((h.tree.shape.internal up hup n hn).slots _ hs).small h.plain
          obtain rfl : e = bi := by simpa using hbi
          exact hbig
        have := LowLe.before hord (hnext y (by simp)) hle
        simpa [slotKey, itemKey, hbig, Mark.Before] using this
  below up hup n hn u e v hlinp hu k hunder := by
    obtain ⟨D, U, hups⟩ := List.append_of_mem hup
    obtain ⟨A, B, rfl⟩ := List.append_of_mem hn
    have hslots : (A ++ n :: B).flatMap Node.linp =
        (A.flatMap Node.linp ++ u) ++ some (.bi e) :: (v ++ B.flatMap Node.linp) := by simp [hlinp]
    obtain ⟨P, low, Q, hPQ, hP, hlow, -⟩ := h.entry_brackets hord hups hslots hunder
    have htower : Tower Node.linp slotChild Node.pgno pRoot ((A ++ n :: B) :: U) := by
      have := h.tree.shape.tower.2
      rw [hups] at this
      exact this.suffix
    obtain ⟨X, low', Y, hXY, hX, -⟩ := htower.split_fences (slotKey cs)
    obtain ⟨d, u, rfl⟩ := List.exists_cons_of_ne_nil hu
    have hnode : fences Node.linp (slotKey cs) ((A ++ n :: B) :: U) =
        (levelFences Node.linp (slotKey cs) X A ++ low' :: u.map (slotKey cs)) ++
          slotKey cs (some (.bi e)) ::
            (v.map (slotKey cs) ++ levelFences Node.linp (slotKey cs) Y B) := by
      rw [fences, hXY, levelFences_append_cons hX, hlinp]
      simp [nodeFences]
    rw [hnode] at hPQ
    obtain ⟨-, htail⟩ := List.append_inj hPQ (by
      simp [length_levelFences hX, hP, slotCount])
    obtain ⟨bi, hbi, hbig, -⟩ := ((h.tree.shape.internal _ hup n (by simp)).slots _
      (by simp [hlinp] : some (Item.bi e) ∈ n.linp)).small h.plain
    obtain rfl : e = bi := by simpa using hbi
    rw [← (List.cons.inj htail).1] at hlow
    simpa [slotKey, itemKey, hbig, Mark.Before] using hlow
  sorted := by
    have hlen := h.tree.shape.tower.length (slotKey cs)
    have hsorted := h.fenced.sorted (by simpa using hlen)
    have hsame : leaves.map (nodeKeys []) = leaves.map (nodeKeys cs) := by
      refine List.map_congr_left fun n hn => List.filterMap_congr fun s hs => ?_
      obtain ⟨bl, rfl, -⟩ := (h.tree.shape.leaf n hn).slots s hs
      simp [slotKey, itemKey, h.small n hn bl hs]
    rw [hsame]
    exact hsorted
  filled := h.filled
  freed := h.tree.rep.free
  apart p hp hmem := by
    have hnodup := h.tree.rep.nodup
    rw [View.pgnos, List.nodup_append] at hnodup
    exact hnodup.2.2 p hmem p (List.mem_append_right _ hp) rfl

/-- The tree is not deeper than `bt_stack`, and `bt_fast` does not find a place for the pair
on an emptied page. -/
def Direct (c : Config) (t : Btree) : Op → Prop
  | .put key data => depth t.pages (stackSize + 1) pRoot ≤ stackSize ∧ Fresh c t key data
  | .putNew key data => depth t.pages (stackSize + 1) pRoot ≤ stackSize ∧ Fresh c t key data
  | .get _ => depth t.pages (stackSize + 1) pRoot ≤ stackSize
  | .delete _ => depth t.pages (stackSize + 1) pRoot ≤ stackSize

theorem Sorted.safe {op : Op} (hs : Sound c) (hnodups : c.nodups = true) (hroomy : Roomy c)
    (h : Sorted c ord t cs fs leaves ups) (hdirect : Direct c t op) (hsmall : op.Small c) :
    Safe c t op := by
  cases op with
  | put key data =>
    exact ⟨hdirect.1, hdirect.2,
      h.splitsWell hs hnodups hroomy (h.depth_le hdirect.1) hsmall.1⟩
  | putNew key data =>
    exact ⟨hdirect.1, hdirect.2,
      h.splitsWell hs hnodups hroomy (h.depth_le hdirect.1) hsmall.1⟩
  | get key => exact hdirect
  | delete key => exact hdirect

theorem roomy_open {b : Btreeinfo} {blksize maxpages : Nat} (hvalid : b.valid = true)
    (hkeys : 4 ≤ b.minkeypage) (hspace : indxSize + nbleafdbt 0 0 ≤ pairSpace b blksize) :
    Roomy (openConfig b blksize maxpages) := by
  have hpsize : minpsize ≤ openPsize b blksize := (openPsize_bounds hvalid).1
  have hquarter : 4 * pairSpace b blksize ≤ openPsize b blksize - btdataoff := by
    rw [pairSpace, if_neg (by omega)]
    exact Nat.le_trans (Nat.mul_le_mul_right _ hkeys) (Nat.mul_div_le _ _)
  have hnb : nbleafdbt 0 0 = 12 ∧ nbleafdbt novflsize novflsize = 28 := ⟨rfl, rfl⟩
  show 4 * (_ + nbleafdbt 0 0 + indxSize) ≤ openPsize b blksize - btdataoff
  rw [openOvflsize_eq hvalid hspace]
  simp only [hnb.1, hnb.2, indxSize, btdataoff, minpsize] at *
  omega

/-- After every run of calls on a new tree with room for four pairs on a page, the tree has
the structure. -/
theorem run_structured (b : Btreeinfo) (blksize maxpages : Nat) (ord : Dbt → Dbt → Int)
    (ops : List Op) (hvalid : b.valid = true) (hdup : b.dup = false) (hkeys : 4 ≤ b.minkeypage)
    (hmax : maxpages ≤ u32Mod) (hspace : indxSize + nbleafdbt 0 0 ≤ pairSpace b blksize)
    (hord : Compares (openConfig b blksize maxpages) ord)
    (hsmall : ∀ op ∈ ops, op.Small (openConfig b blksize maxpages))
    (hdirect : Admitted (step (openConfig b blksize maxpages))
      (Direct (openConfig b blksize maxpages)) (newTree .bleaf) ops) :
    Ensures (· = .nospace) (run (step (openConfig b blksize maxpages)) (newTree .bleaf) ops)
      fun r => ∃ leaves ups fs, Structured ord r.2 leaves ups fs := by
  have hs := sound_open hvalid hmax hspace
  have hroomy : Roomy (openConfig b blksize maxpages) := roomy_open hvalid hkeys hspace
  have hnodups : (openConfig b blksize maxpages).nodups = true := by simp [openConfig, hdup]
  refine (run_invariant (I := fun t => ∃ m, Holds (openConfig b blksize maxpages) ord t m)
    (fun t op hinv hok => ?_) ⟨_, holds_new hs⟩ (hdirect.and hsmall)).mono ?_
  · obtain ⟨m, hholds⟩ := hinv
    obtain ⟨cs, fs, leaves, ups, hsorted, -⟩ := id hholds
    exact (step_spec hs hnodups rfl hord hholds (hsorted.safe hs hnodups hroomy hok.1 hok.2)
      hok.2).mono fun r hr => ⟨_, hr.2⟩
  · rintro r ⟨m, cs, fs, leaves, ups, hsorted, -⟩
    exact ⟨leaves, ups, fs, hsorted.structured hord.total⟩

/-- A put that looks for its position with `__bt_search`: `bt_order` is `NOT`, or `bt_fast`
misses. -/
def searches (c : Config) (t : Btree) (key data : Dbt) : Bool :=
  t.order == .not ||
    match storePair c t key data with
    | .ok (t₁, bl) =>
      match btFast c t₁ bl with
      | .ok (_, none) => true
      | _ => false
    | .error _ => true

theorem fresh_of_searches {key data : Dbt} (h : searches c t key data = true) :
    Fresh c t key data := by
  intro hne t₁ bl pg hstore hget _
  simp only [searches, beq_iff_eq, hne, hstore, Bool.or_eq_true, false_or, btFast, hget] at h
  cases hhit : fastHit c t₁ bl pg with
  | error e => simp [hhit] at h
  | ok hit =>
    cases hit with
    | none => rfl
    | some p => simp [hhit] at h

/-- The calls that look for their position with `__bt_search`. -/
def searchesOp (c : Config) (t : Btree) (op : Op) : Bool :=
  decide (depth t.pages (stackSize + 1) pRoot ≤ stackSize) &&
    match op with
    | .put key data => searches c t key data
    | .putNew key data => searches c t key data
    | .get _ => true
    | .delete _ => true

theorem direct_of_searches {op : Op} (h : searchesOp c t op = true) : Direct c t op := by
  have h := (Bool.and_eq_true _ _).mp h
  rw [decide_eq_true_eq] at h
  cases op with
  | put key data => exact ⟨h.1, fresh_of_searches h.2⟩
  | putNew key data => exact ⟨h.1, fresh_of_searches h.2⟩
  | get key => exact h.1
  | delete key => exact h.1

inductive InTree (ps : List Page) : Pgno → Prop
  | root : InTree ps pRoot
  | child {p : Pgno} {h : Page} {bi : BInternal} (hp : InTree ps p) (hget : ps[p]? = some h)
    (htype : h.type = .binternal) (hmem : some (.bi bi) ∈ h.linp) : InTree ps bi.pgno

def longKey (n : UInt8) : Dbt := n :: List.replicate 100 0

/-- Twelve leaf records in three levels; the first leaf page under the second page of the
middle level is emptied, and a key that belonged to it is stored. -/
def firstOps : List Op :=
  [255, 0, 240, 230, 220, 210, 200, 190, 180, 170, 160, 150, 140].map (fun n => .put (longKey n) []) ++
    [.delete (longKey 220), .delete (longKey 230), .put (longKey 235) []]

def finalPages (res : Except Fault (List Reply × Btree)) : List Page :=
  match res with
  | .ok r => r.2.pages
  | .error _ => []

theorem run_structured_first :
    Ensures (· = .nospace)
      (run (step (openConfig ⟨false, 512, 4, some lexCmp, none⟩ 8192 1000)) (newTree .bleaf) firstOps)
      fun r => ∃ leaves ups fs, Structured lexCmp r.2 leaves ups fs := by
  have hspace : indxSize + nbleafdbt 0 0 ≤ pairSpace ⟨false, 512, 4, some lexCmp, none⟩ 8192 := by
    decide
  have hadmits : admits (step (openConfig ⟨false, 512, 4, some lexCmp, none⟩ 8192 1000))
      (searchesOp (openConfig ⟨false, 512, 4, some lexCmp, none⟩ 8192 1000)) (newTree .bleaf)
      firstOps = true := by decide +kernel
  have hsmall : ∀ op ∈ firstOps,
      op.Small (openConfig ⟨false, 512, 4, some lexCmp, none⟩ 8192 1000) := by decide +kernel
  generalize firstOps = ops at hadmits hsmall
  exact run_structured ⟨false, 512, 4, some lexCmp, none⟩ 8192 1000 lexCmp ops (by decide) rfl
    (by decide) (by decide) hspace (compares_total totalCmp_lexCmp rfl rfl) hsmall
    (admitted_of_admits (fun _ _ => direct_of_searches) hadmits)

/-- The separator of a first entry may be above a key below it, on a page that is not the
first of its level. -/
theorem first_separator_above :
    ¬ ∀ (b : Btreeinfo) (blksize maxpages : Nat) (ord : Dbt → Dbt → Int) (ops : List Op),
      b.valid = true → b.dup = false → 4 ≤ b.minkeypage → maxpages ≤ u32Mod →
      indxSize + nbleafdbt 0 0 ≤ pairSpace b blksize →
      Compares (openConfig b blksize maxpages) ord →
      (∀ op ∈ ops, op.Small (openConfig b blksize maxpages)) →
      admits (step (openConfig b blksize maxpages)) (searchesOp (openConfig b blksize maxpages))
        (newTree .bleaf) ops = true →
      Ensures (· = .nospace) (run (step (openConfig b blksize maxpages)) (newTree .bleaf) ops)
        fun r => ∀ p h bi k, InTree r.2.pages p → r.2.pages[p]? = some h → h.type = .binternal →
          h.prevpg ≠ pInvalid → some (.bi bi) ∈ h.linp → Under r.2.pages bi.pgno k →
          ¬ ord k bi.key < 0 := by
  intro hclaim
  have hspace : indxSize + nbleafdbt 0 0 ≤ pairSpace ⟨false, 512, 4, some lexCmp, none⟩ 8192 := by
    decide
  have hadmits : admits (step (openConfig ⟨false, 512, 4, some lexCmp, none⟩ 8192 1000))
      (searchesOp (openConfig ⟨false, 512, 4, some lexCmp, none⟩ 8192 1000)) (newTree .bleaf)
      firstOps = true := by decide +kernel
  have hsmall : ∀ op ∈ firstOps,
      op.Small (openConfig ⟨false, 512, 4, some lexCmp, none⟩ 8192 1000) := by decide +kernel
  -- the root, the second page of the middle level and the leaf page below its first entry
  have hpages : ∀ ps, finalPages (run (step (openConfig ⟨false, 512, 4, some lexCmp, none⟩ 8192
        1000)) (newTree .bleaf) firstOps) = ps →
      (ps[1]?.map fun h => (h.type, h.linp[1]?)) =
        some (.binternal, some (some (.bi ⟨longKey 220, 9, false⟩))) ∧
      (ps[9]?.map fun h => (h.type, h.prevpg, h.linp[0]?)) =
        some (.binternal, 8, some (some (.bi ⟨longKey 240, 3, false⟩))) ∧
      (ps[3]?.map fun h => (h.type, h.linp[0]?)) =
        some (.bleaf, some (some (.bl ⟨longKey 235, [], false, false⟩))) := by
    rintro ps rfl
    decide +kernel
  have hlt : lexCmp (longKey 235) (longKey 240) < 0 := by decide
  generalize firstOps = ops at hadmits hsmall hpages
  have hrun := hclaim ⟨false, 512, 4, some lexCmp, none⟩ 8192 1000 lexCmp ops (by decide) rfl
    (by decide) (by decide) hspace (compares_total totalCmp_lexCmp rfl rfl) hsmall hadmits
  generalize run (step (openConfig ⟨false, 512, 4, some lexCmp, none⟩ 8192 1000)) (newTree .bleaf)
    ops = res at hrun hpages
  obtain ⟨hroot, hmiddle, hleaf⟩ := hpages _ rfl
  cases res with
  | error e => simp [finalPages] at hroot
  | ok r =>
    simp only [finalPages, Option.map_eq_some_iff, Prod.mk.injEq] at hroot hmiddle hleaf
    obtain ⟨root, hroot, hrtype, hrslot⟩ := hroot
    obtain ⟨middle, hmiddle, hmtype, hmprev, hmslot⟩ := hmiddle
    obtain ⟨leaf, hleaf, hltype, hlslot⟩ := hleaf
    have hrmem : some (Item.bi ⟨longKey 220, 9, false⟩) ∈ root.linp := List.mem_of_getElem? hrslot
    have hlmem : some (Item.bl ⟨longKey 235, [], false, false⟩) ∈ leaf.linp :=
      List.mem_of_getElem? hlslot
    have hin : InTree r.2.pages 9 := InTree.child .root hroot hrtype hrmem
    have hunder : Under r.2.pages 3 (longKey 235) := Under.leaf hleaf hltype hlmem
    exact hrun 9 middle ⟨longKey 240, 3, false⟩ (longKey 235) hin hmiddle hmtype
      (by rw [hmprev]; decide) (List.mem_of_getElem? hmslot) hunder hlt

end Btree

end Bsdi.Db
