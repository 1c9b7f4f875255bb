import Bsdi.Db.Btree.Fast

/-!
# Trees in order

The invariant of a tree without duplicates whose keys stay on their pages: the pages hold a
well-formed tree, its keys are in order, and `bt_last` designates a leaf page or one that
was emptied.
-/

namespace Bsdi.Db

open Bsdi.Lib

namespace Btree

variable {c : Config} {t t₁ : Btree} {cs new : List Chain} {fs fs₁ : List Pgno}
variable {leaves A B : List Node} {ups : List (List Node)} {x : Node} {key data : Dbt} {bl : BLeaf}
variable {ord : Dbt → Dbt → Int}

/-- The comparison function is a total order on the keys that stay on a page, and the prefix
function returns enough of a key to tell it from a smaller one. -/
structure Compares (c : Config) (ord : Dbt → Dbt → Int) : Prop where
  total : TotalCmp ord
  cmp : ∀ a b, a.length ≤ c.ovflsize → b.length ≤ c.ovflsize → c.cmp a b = ord a b
  pfx : ∀ pfx ∈ c.pfx, ∀ a b, a.length ≤ c.ovflsize → b.length ≤ c.ovflsize → ord a b < 0 →
    pfx a b ≠ 0 ∧ ord a (b.take (pfx a b)) < 0 ∧ ¬ ord b (b.take (pfx a b)) < 0

/-- A tree in order without big keys. -/
structure Sorted (c : Config) (ord : Dbt → Dbt → Int) (t : Btree) (cs : List Chain)
    (fs : List Pgno) (leaves : List Node) (ups : List (List Node)) : Prop where
  tree : Tree c t cs fs leaves ups
  filled : Filled leaves ups
  fenced : Fenced ord (leafFences cs ups) (leaves.map (nodeKeys cs))
  small : ∀ n ∈ leaves, ∀ bl, some (.bl bl) ∈ n.linp → bl.bigkey = false
  plain : ∀ ch ∈ cs, ch.preserve = false
  low : Lowest Node.linp (slotKey cs) (LowLe ord) ups
  cached : Cached t leaves fs

/-- A tree in order without big keys, whatever `bt_last` designates. -/
structure Arranged (c : Config) (ord : Dbt → Dbt → Int) (t : Btree) (cs : List Chain)
    (fs : List Pgno) (leaves : List Node) (ups : List (List Node)) : Prop where
  tree : Tree c t cs fs leaves ups
  filled : Filled leaves ups
  fenced : Fenced ord (leafFences cs ups) (leaves.map (nodeKeys cs))
  small : ∀ n ∈ leaves, ∀ bl, some (.bl bl) ∈ n.linp → bl.bigkey = false
  plain : ∀ ch ∈ cs, ch.preserve = false
  low : Lowest Node.linp (slotKey cs) (LowLe ord) ups

theorem Sorted.arranged (h : Sorted c ord t cs fs leaves ups) : Arranged c ord t cs fs leaves ups :=
  { h with }

theorem Arranged.sorted (h : Arranged c ord t cs fs leaves ups) (hcached : Cached t leaves fs) :
    Sorted c ord t cs fs leaves ups :=
  { h with cached := hcached }

theorem InternalSlot.small {s : Option Item} (h : InternalSlot c cs s)
    (hplain : ∀ ch ∈ cs, ch.preserve = false) :
    ∃ bi, s = some (.bi bi) ∧ bi.bigkey = false ∧ bi.key.length ≤ c.ovflsize := by
  obtain ⟨bi, rfl, hlen, hbig⟩ := h
  refine ⟨bi, rfl, ?_, hlen⟩
  by_contra hb
  obtain ⟨ch, hch, -, -, hpreserve⟩ := hbig (by simpa using hb)
  rw [hplain ch hch] at hpreserve
  exact Bool.false_ne_true hpreserve

theorem Shape.ordered (hshape : Shape c cs leaves ups)
    (hfenced : Fenced ord (leafFences cs ups) (leaves.map (nodeKeys cs)))
    (hsmall : ∀ n ∈ leaves, ∀ bl, some (.bl bl) ∈ n.linp → bl.bigkey = false)
    (hplain : ∀ ch ∈ cs, ch.preserve = false) :
    Ordered ord (fun k => k.length ≤ c.ovflsize) cs leaves ups where
  fenced := hfenced
  dom level hlevel n hn s hs k hk := by
    rcases List.mem_cons.1 hlevel with rfl | hup
    · obtain ⟨bl, rfl, hlen, -⟩ := (hshape.leaf n hn).slots s hs
      obtain rfl : bl.key = k := by
        simpa [slotKey, itemKey, hsmall n hn bl hs] using hk
      exact Nat.le_trans (Nat.le_add_right _ _) hlen
    · obtain ⟨bi, rfl, hb, hlen⟩ := ((hshape.internal level hup n hn).slots s hs).small hplain
      obtain rfl : bi.key = k := by simpa [slotKey, itemKey, hb] using hk
      exact hlen

theorem Arranged.ordered (h : Arranged c ord t cs fs leaves ups) :
    Ordered ord (fun k => k.length ≤ c.ovflsize) cs leaves ups :=
  h.tree.shape.ordered h.fenced h.small h.plain

theorem Sorted.ordered (h : Sorted c ord t cs fs leaves ups) :
    Ordered ord (fun k => k.length ≤ c.ovflsize) cs leaves ups :=
  h.arranged.ordered

theorem Position.place {u v : List (Option Item)} {exact : Bool} (hord : Compares c ord)
    (hkey : key.length ≤ c.ovflsize)
    (h : Ordered ord (fun k => k.length ≤ c.ovflsize) cs (A ++ x :: B) ups)
    (hposition : Position c cs A x B ups u v key exact) : PlacedAt ord cs ups A u v key exact :=
  hposition.placed ord _ hord.total hord.cmp hkey h

theorem ChainAt.overflow {size : Nat} {ps : List Page} {pgs : List Pgno} {bytes : Dbt}
    (h : ChainAt size ps pgs bytes) : ∀ p ∈ pgs, ∃ pg, ps[p]? = some pg ∧ pg.type = .overflow := by
  induction pgs generalizing bytes with
  | nil => simp
  | cons p rest ih =>
    intro q hq
    cases rest with
    | nil =>
      obtain ⟨-, pg, hget, -, htype, -⟩ := h
      obtain rfl : q = p := by simpa using hq
      exact ⟨pg, hget, htype⟩
    | cons r rest =>
      obtain ⟨-, ⟨pg, hget, -, htype, -⟩, hrest⟩ := h
      rcases List.mem_cons.1 hq with rfl | hq
      · exact ⟨pg, hget, htype⟩
      · exact ih hrest q hq

theorem Sorted.store (h : Sorted c ord t cs fs leaves ups)
    (hp : Pending c t (leaves :: ups) cs fs key data new fs₁ t₁ bl) :
    Tree c t₁ (new ++ cs) fs₁ leaves ups ∧
      Ordered ord (fun k => k.length ≤ c.ovflsize) (new ++ cs) leaves ups ∧
      contents (new ++ cs) leaves = contents cs leaves ∧
      (∀ ch ∈ new ++ cs, ch.preserve = false) ∧
      Lowest Node.linp (slotKey (new ++ cs)) (LowLe ord) ups := by
  have hkeep : Keeps cs (new ++ cs) [] := fun ch hch _ => List.mem_append_right _ hch
  have hsame := h.tree.shape.same hkeep (by simp) h.tree.rep hp.rep
  refine ⟨⟨hp.rep, h.tree.shape.rechain hkeep (by simp)⟩, h.ordered.rechain hsame,
    contents_congr (hsame leaves (by simp)), fun ch hch => ?_,
    lowest_congr (fun up hup n hn s hs => (hsame up (List.mem_cons_of_mem _ hup) n hn s hs).key) h.low⟩
  rcases List.mem_append.1 hch with hch | hch
  · exact hp.plain ch hch
  · exact h.plain ch hch

theorem Sorted.cacheMiss (h : Sorted c ord t cs fs leaves ups)
    (hp : Pending c t (leaves :: ups) cs fs key data new fs₁ t₁ bl)
    (hstore : storePair c t key data = .ok (t₁, bl)) (hfresh : Fresh c t key data) :
    CacheMiss c t₁ leaves bl := by
  have horder : t₁.order = t.order ∧ t₁.last = t.last := by
    rw [hp.eq]
    exact ⟨rfl, rfl⟩
  intro hne
  rw [horder.1] at hne ⊢
  have hempty := fun pg => hfresh hne t₁ bl pg hstore
  rw [horder.2] at hempty ⊢
  refine (h.cached hne).imp id ?_
  rintro ⟨hmem, pg, hget, hlinp⟩
  by_cases hnew : t.last.pgno ∈ new.flatMap Chain.pgnos
  · obtain ⟨ch, hch, hq⟩ := List.mem_flatMap.1 hnew
    obtain ⟨pg', hget', htype'⟩ :=
      (hp.rep.chains ch (List.mem_append_left _ hch)).1.overflow _ hq
    exact ⟨pg', hget', fastHit_overflow htype'⟩
  · have hget₁ : t₁.pages[t.last.pgno]? = some pg := by
      rw [hp.same _ (List.getElem?_eq_some_iff.1 hget).1 hnew, hget]
    exact ⟨pg, hget₁, hempty pg hget₁ hlinp⟩

section

variable {tbl bl₂ : BLeaf} {s : Dbt} {u v v₁ w L R : List (Option Item)}

theorem Separator.between (hord : Compares c ord) (htbl : tbl.key.length ≤ c.ovflsize)
    (hbl₂ : bl₂.key.length ≤ c.ovflsize) (hsmall : bl₂.bigkey = false)
    (hlt : ord tbl.key bl₂.key < 0) (h : Separator c cs ups tbl bl₂ s) :
    ord tbl.key s < 0 ∧ ¬ ord bl₂.key s < 0 := by
  have hwhole : ord tbl.key bl₂.key < 0 ∧ ¬ ord bl₂.key bl₂.key < 0 :=
    ⟨hlt, hord.total.irrefl _⟩
  rcases h with ⟨-, rfl⟩ | ⟨first, k, key, hkey, rfl⟩
  · exact hwhole
  · rw [hsmall, full_false]
    unfold parentKey at hkey
    split at hkey
    · obtain rfl := Except.ok.inj hkey
      exact hwhole
    · rename_i pfx hpfx
      split_ifs at hkey
      · obtain rfl := Except.ok.inj hkey
        exact (hord.pfx pfx hpfx _ _ htbl hbl₂ hlt).2
      · obtain rfl := Except.ok.inj hkey
        exact hwhole
      · obtain rfl := Except.ok.inj hkey
        exact hwhole

theorem sides_lt (hsorted : ((L ++ R).filterMap (slotKey cs)).Pairwise fun a b => ord a b < 0)
    (hL : L = v₁ ++ [some (.bl tbl)]) (hR : R = some (.bl bl₂) :: w) (htbl : tbl.bigkey = false)
    (hbl₂ : bl₂.bigkey = false) :
    ord tbl.key bl₂.key < 0 ∧
      (∀ a ∈ L.filterMap (slotKey cs), a = tbl.key ∨ ord a tbl.key < 0) ∧
      ∀ b ∈ R.filterMap (slotKey cs), b = bl₂.key ∨ ord bl₂.key b < 0 := by
  have hkeys : (L ++ R).filterMap (slotKey cs) =
      (v₁.filterMap (slotKey cs) ++ [tbl.key]) ++ bl₂.key :: w.filterMap (slotKey cs) := by
    simp [hL, hR, slotKey, itemKey, htbl, hbl₂]
  rw [hkeys] at hsorted
  obtain ⟨hinit, htail, hcross⟩ := List.pairwise_append.1 hsorted
  have hleft := (List.pairwise_append.1 hinit).2.2
  have hright := (List.pairwise_cons.1 htail).1
  refine ⟨hcross tbl.key (by simp) bl₂.key (by simp), fun a ha => ?_, fun b hb => ?_⟩
  · have : a ∈ v₁.filterMap (slotKey cs) ∨ a = tbl.key := by
      simpa [hL, slotKey, itemKey, htbl, List.filterMap_append] using ha
    exact this.symm.imp id fun ha => hleft a ha tbl.key (by simp)
  · have : b = bl₂.key ∨ b ∈ w.filterMap (slotKey cs) := by
      simpa [hR, slotKey, itemKey, hbl₂] using hb
    exact this.imp id fun hb => hright b hb

/-- What is known before the record is inserted into leaf page `x`, which may be empty. -/
structure Insertable (c : Config) (ord : Dbt → Dbt → Int) (t : Btree) (cs : List Chain)
    (fs : List Pgno) (A : List Node) (x : Node) (B : List Node) (ups : List (List Node))
    (u v : List (Option Item)) (bl : BLeaf) : Prop where
  tree : Tree c t cs fs (A ++ x :: B) ups
  others : ups ≠ [] → ∀ n ∈ A ++ B, n.linp ≠ []
  fenced : Fenced ord (leafFences cs ups) ((A ++ x :: B).map (nodeKeys cs))
  small : ∀ n ∈ A ++ x :: B, ∀ bl, some (.bl bl) ∈ n.linp → bl.bigkey = false
  plain : ∀ ch ∈ cs, ch.preserve = false
  low : Lowest Node.linp (slotKey cs) (LowLe ord) ups
  linp : x.linp = u ++ v
  placed : PlacedAt ord cs ups A u v bl.key false
  key : bl.bigkey = false
  slot : LeafSlot c cs (some (.bl bl))
  refs : (leafRefs (A ++ { x with linp := u ++ some (.bl bl) :: v } :: B)).Nodup

/-- What is known where `bt_fast` or a search found the place. -/
structure Ready (c : Config) (ord : Dbt → Dbt → Int) (t : Btree) (cs : List Chain) (fs : List Pgno)
    (A : List Node) (x : Node) (B : List Node) (ups : List (List Node)) (u v : List (Option Item))
    (bl : BLeaf) : Prop extends Insertable c ord t cs fs A x B ups u v bl where
  cached : t.order ≠ .not → t.last.pgno = x.pgno ∧ (t.order = .back → x.pgno ≠ pRoot) ∧
    ∀ pg, t.pages[x.pgno]? = some pg → ¬ pg.room c.psize < (Item.bl bl).nbytes + indxSize

theorem Insertable.insert (hord : Compares c ord) (h : Insertable c ord t cs fs A x B ups u v bl) :
    Fenced ord (leafFences cs ups)
        ((A ++ { x with linp := u ++ some (.bl bl) :: v } :: B).map (nodeKeys cs)) ∧
      ((u ++ some (.bl bl) :: v).filterMap (slotKey cs)).Pairwise (fun a b => ord a b < 0) ∧
      ∀ bl', some (.bl bl') ∈ u ++ some (.bl bl) :: v →
        bl'.bigkey = false ∧ bl'.key.length ≤ c.ovflsize := by
  have hfenced := h.placed.fenced hord.total h.fenced h.linp
    bl (by simp [itemKey, h.key])
  refine ⟨hfenced, ?_, fun bl' hbl' => ?_⟩
  · obtain ⟨X, low, Y, hXY, hX, -⟩ := h.tree.shape.tower.split_fences (slotKey cs)
    rw [leafFences, hXY, List.map_append, List.map_cons] at hfenced
    exact hfenced.sorted_node (by simpa using hX)
  · have hmem : bl' = bl ∨ some (.bl bl') ∈ x.linp := by
      simp only [h.linp, List.mem_append, List.mem_cons, Option.some.injEq, Item.bl.injEq] at hbl' ⊢
      tauto
    rcases hmem with rfl | hmem
    · exact ⟨h.key, h.slot.key.1⟩
    · exact ⟨h.small x (by simp) bl' hmem, ((h.tree.shape.leaf x (by simp)).slots _ hmem).key.1⟩

theorem Insertable.separable (hord : Compares c ord) (h : Insertable c ord t cs fs A x B ups u v bl)
    (happ : L ++ R = u ++ some (.bl bl) :: v) : Separable c L R := by
  obtain ⟨-, hsorted, hsmall⟩ := h.insert hord
  rw [← happ] at hsorted hsmall
  intro v₁ tbl bl₂ w hL hR pfx hpfx
  have htbl := hsmall tbl (by simp [hL])
  have hbl₂ := hsmall bl₂ (by simp [hR])
  have hlt := (sides_lt hsorted hL hR htbl.1 hbl₂.1).1
  exact (hord.pfx pfx hpfx _ _ htbl.2 hbl₂.2 hlt).1

@[simp] theorem contents_append : contents cs (A ++ B) = contents cs A ++ contents cs B :=
  List.flatMap_append

@[simp] theorem contents_cons : contents cs (x :: B) = x.linp.filterMap (slotPair cs) ++ contents cs B :=
  rfl

/-- The tree after the record was inserted, as a tree in order with the new pair. -/
def Inserted (c : Config) (ord : Dbt → Dbt → Int) (cs : List Chain) (A B : List Node)
    (u v : List (Option Item)) (bl : BLeaf) (t' : Btree) : Prop :=
  ∃ fs' leaves' ups', Sorted c ord t' cs fs' leaves' ups' ∧
    contents cs leaves' = contents cs A ++ (u.filterMap (slotPair cs) ++
      recordPair cs bl :: v.filterMap (slotPair cs)) ++ contents cs B

/-- The tree after the record was inserted, whatever `bt_last` designates. -/
def Arrives (c : Config) (ord : Dbt → Dbt → Int) (cs : List Chain) (A B : List Node)
    (u v : List (Option Item)) (bl : BLeaf) (t' : Btree) : Prop :=
  ∃ fs' leaves' ups', Arranged c ord t' cs fs' leaves' ups' ∧
    contents cs leaves' = contents cs A ++ (u.filterMap (slotPair cs) ++
      recordPair cs bl :: v.filterMap (slotPair cs)) ++ contents cs B

theorem Insertable.stays {t' : Btree} (hord : Compares c ord)
    (h : Insertable c ord t cs fs A x B ups u v bl) (hstays : Stays c t cs fs A x B ups u v bl t') :
    Arranged c ord t' cs fs (A ++ { x with linp := u ++ some (.bl bl) :: v } :: B) ups ∧
      contents cs (A ++ { x with linp := u ++ some (.bl bl) :: v } :: B) =
        contents cs A ++ (u.filterMap (slotPair cs) ++
          recordPair cs bl :: v.filterMap (slotPair cs)) ++ contents cs B := by
  obtain ⟨hfenced, -, hsmall⟩ := h.insert hord
  refine ⟨⟨hstays.tree, fun hups n hn => ?_, hfenced, fun n hn bl' hbl' => ?_, h.plain, h.low⟩, ?_⟩
  · simp only [List.mem_append, List.mem_cons] at hn
    rcases hn with hn | rfl | hn
    · exact h.others hups n (by simp [hn])
    · simp
    · exact h.others hups n (by simp [hn])
  · simp only [List.mem_append, List.mem_cons] at hn
    rcases hn with hn | rfl | hn
    · exact h.small n (by simp [hn]) bl' hbl'
    · exact (hsmall bl' hbl').1
    · exact h.small n (by simp [hn]) bl' hbl'
  · simp [slotPair]

theorem Ready.stays {t' : Btree} (hord : Compares c ord) (h : Ready c ord t cs fs A x B ups u v bl)
    (hstays : Stays c t cs fs A x B ups u v bl t') : Inserted c ord cs A B u v bl t' := by
  obtain ⟨harranged, hcontents⟩ := h.toInsertable.stays hord hstays
  refine ⟨fs, _, ups, harranged.sorted fun hne => ?_, hcontents⟩
  rcases hstays.note with ⟨horder, hlast⟩ | ⟨-, hlast, hback⟩
  · rw [horder] at hne ⊢
    rw [hlast]
    obtain ⟨hpgno, hroot, -⟩ := h.cached hne
    exact .inl ⟨by simp [hpgno], fun hb => hpgno ▸ hroot hb⟩
  · refine .inl ⟨by simp [hlast], fun hb hroot => ?_⟩
    -- a page with a right neighbour is not the root
    have hups : ups = [] := by
      by_contra hups
      exact ne_root (D := []) h.tree.rep h.tree.shape.tower.2 hups (hlast ▸ hroot)
    subst hups
    exact hback hb h.tree.shape.tower.alone.2

theorem Insertable.splits {t' : Btree} (hord : Compares c ord)
    (h : Insertable c ord t cs fs A x B ups u v bl)
    (happ : L ++ R = u ++ some (.bl bl) :: v) (hsplits : Splits c t cs fs A x B ups L R t') :
    Arrives c ord cs A B u v bl t' := by
  obtain ⟨hfenced, hsorted, hsmall⟩ := h.insert hord
  obtain ⟨q₁, q₂, ups', fs', v₁, w, tbl, bl₂, s, hL, hR, -, hsep, hfences, hlow, hshape, hrep,
    -⟩ := hsplits
  rw [← happ] at hsorted hsmall
  have htbl := hsmall tbl (by simp [hL])
  have hbl₂ := hsmall bl₂ (by simp [hR])
  obtain ⟨hlt, hleft, hright⟩ := sides_lt hsorted hL hR htbl.1 hbl₂.1
  obtain ⟨hbelow, habove⟩ := hsep.between hord htbl.2 hbl₂.2 hbl₂.1 hlt
  have hmark : markFirst cs bl₂ = cs := by rw [markFirst, hbl₂.1]; simp
  rw [hmark] at hshape hrep
  refine ⟨fs', _, ups', ⟨⟨hrep, hshape⟩, fun _ n hn => ?_, ?_, fun n hn bl' hbl' => ?_, h.plain,
    hlow _ (fun _ => trivial) (LowLe.refl hord.total) h.low⟩, ?_⟩
  · have hothers : ∀ m ∈ A ++ B, m.linp ≠ [] := by
      by_cases hups : ups = []
      · subst hups
        obtain ⟨rfl, rfl⟩ := h.tree.shape.tower.alone
        simp
      · exact h.others hups
    simp only [List.mem_append, List.mem_cons] at hn
    rcases hn with hn | rfl | rfl | hn
    · exact hothers n (by simp [hn])
    · simp [hL]
    · simp [hR]
    · exact hothers n (by simp [hn])
  · refine fenced_split hord.total h.tree.shape.tower hfenced happ hfences (by simp [hL, slotKey])
      (by simp [hR, slotKey]) (fun a ha => ?_) fun b hb => ?_
    · rcases hleft a ha with rfl | hlt'
      · exact hbelow
      · exact hord.total.trans _ _ _ hlt' hbelow
    · rcases hright b hb with rfl | hlt'
      · exact habove
      · exact fun hneg => habove (hord.total.trans _ _ _ hlt' hneg)
  · simp only [List.mem_append, List.mem_cons] at hn
    rcases hn with hn | rfl | rfl | hn
    · exact h.small n (by simp [hn]) bl' hbl'
    · exact (hsmall bl' (List.mem_append_left _ hbl')).1
    · exact (hsmall bl' (List.mem_append_right _ hbl')).1
    · exact h.small n (by simp [hn]) bl' hbl'
  · have hpairs : L.filterMap (slotPair cs) ++ R.filterMap (slotPair cs) =
        u.filterMap (slotPair cs) ++ recordPair cs bl :: v.filterMap (slotPair cs) := by
      rw [← List.filterMap_append, happ]
      simp [slotPair]
    simp only [contents_append, contents_cons, ← hpairs, List.append_assoc]

theorem Splits.order {t' : Btree} (hsplits : Splits c t cs fs A x B ups L R t') :
    t'.order = t.order := by
  obtain ⟨_, _, _, _, _, _, _, _, _, -, -, -, -, -, -, -, -, honly⟩ := hsplits
  rw [SplitOnly] at honly
  simpa using congrArg Btree.order honly

theorem Ready.splits {t' : Btree} {pg : Page} (hord : Compares c ord)
    (h : Ready c ord t cs fs A x B ups u v bl) (hget : t.pages[x.pgno]? = some pg)
    (hroom : pg.room c.psize < (Item.bl bl).nbytes + indxSize)
    (happ : L ++ R = u ++ some (.bl bl) :: v) (hsplits : Splits c t cs fs A x B ups L R t') :
    Inserted c ord cs A B u v bl t' := by
  obtain ⟨fs', leaves', ups', harranged, hcontents⟩ := h.toInsertable.splits hord happ hsplits
  refine ⟨fs', leaves', ups', harranged.sorted fun hne => ?_, hcontents⟩
  rw [hsplits.order] at hne
  exact absurd hroom ((h.cached hne).2.2 pg hget)

/-- What a split of page `x` needs: the path, and halves that fit. -/
def SplitReady (c : Config) (t : Btree) (A : List Node) (x : Node) (ups : List (List Node))
    (u : List (Option Item)) (bl : BLeaf) : Prop :=
  ∀ pg items, t.pages[x.pgno]? = some pg → x.linp = items.map some →
    pg.room c.psize < (Item.bl bl).nbytes + indxSize →
    Path Node.linp Node.pgno ups A.length (path t.stack) ∧
    PageFits c pg items u.length (.bl bl) ∧
    SplitsFit c t.pages t.stack .bleaf (pageHalves c pg items u.length (.bl bl)).1
      (pageHalves c pg items u.length (.bl bl)).2

theorem Insertable.insertLeaf (hs : Sound c) (hord : Compares c ord)
    (h : Insertable c ord t cs fs A x B ups u v bl) (hsplit : SplitReady c t A x ups u bl) :
    Ensures (· = .nospace) (insertLeaf c t x.pgno u.length bl) (Arrives c ord cs A B u v bl) := by
  refine (insertLeaf_spec hs h.tree h.linp h.slot h.refs
    fun pg items hget hitems hroom => ?_).mono ?_
  · obtain ⟨hpath, hpage, hparents⟩ := hsplit pg items hget hitems hroom
    exact ⟨hpath, hpage, hparents, fun L R happ => h.separable hord happ⟩
  · rintro t' (hstays | ⟨pg, items, L, R, hget, hroom, happ, -, -, hsplits⟩)
    · exact ⟨fs, _, ups, h.stays hord hstays⟩
    · exact h.splits hord happ hsplits

theorem Ready.insertLeaf (hs : Sound c) (hord : Compares c ord)
    (h : Ready c ord t cs fs A x B ups u v bl) (hsplit : SplitReady c t A x ups u bl) :
    Ensures (· = .nospace) (insertLeaf c t x.pgno u.length bl) (Inserted c ord cs A B u v bl) := by
  refine (insertLeaf_spec hs h.tree h.linp h.slot h.refs
    fun pg items hget hitems hroom => ?_).mono ?_
  · obtain ⟨hpath, hpage, hparents⟩ := hsplit pg items hget hitems hroom
    exact ⟨hpath, hpage, hparents, fun L R happ => h.separable hord happ⟩
  · rintro t' (hstays | ⟨pg, items, L, R, hget, hroom, happ, -, -, hsplits⟩)
    · exact h.stays hord hstays
    · exact h.splits hord hget hroom happ hsplits

end

end Btree

end Bsdi.Db
