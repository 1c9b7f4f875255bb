import Bsdi.Db.Btree.Shape

/-!
# The search finds its key

In a tree without duplicates `__bt_search` ends on a leaf page with the path to it on
`bt_stack`, whatever the comparison function is. If the tree is in order, the key
belongs to that page, and the binary search finds its place there.
-/

namespace Bsdi.Db

open Bsdi.Lib

namespace Btree

variable {c : Config} {t : Btree} {cs : List Chain} {fs : List Pgno}
variable {leaves : List Node} {ups : List (List Node)} {key : Dbt}
variable {ord : Dbt → Dbt → Int} {dom : Dbt → Prop}

def path (stack : List Epgno) : List (Pgno × Nat) := stack.map fun e => (e.pgno, e.index)

/-- The comparison of a key with slot `i`. -/
def slotCmp (c : Config) (cs : List Chain) (key : Dbt) (linp : List (Option Item)) (i : Nat) : Int :=
  c.cmp key ((linp[i]?.bind (slotKey cs)).getD [])

/-- The comparison with slot `i` of an internal page. The first slot of a level compares
less than any key. -/
def sepCmp (c : Config) (cs : List Chain) (key : Dbt) (prev : Pgno) (linp : List (Option Item))
    (i : Nat) : Int :=
  if i = 0 ∧ prev = pInvalid then 1 else slotCmp c cs key linp i

theorem sepCmp_of_pos {prev : Pgno} {linp : List (Option Item)} {i : Nat} (hi : 0 < i) :
    sepCmp c cs key prev linp i = slotCmp c cs key linp i := if_neg (by omega)

theorem btBsearch_eq {pg : Page} {f : Nat → Int} {n : Nat}
    (h : ∀ i < n, btCmp c t key pg i = .ok (f i)) (fuel base lim : Nat) (hn : base + lim ≤ n) :
    btBsearch c t key pg fuel base lim = .ok (bsearch f fuel base lim) := by
  induction fuel generalizing base lim with
  | zero => rfl
  | succ fuel ih =>
    rw [btBsearch, bsearch]
    split_ifs with h0 heq hpos
    · rfl
    · rw [h _ (by omega), ok_bind, if_pos heq]
    · rw [h _ (by omega), ok_bind, if_neg heq, if_pos hpos]
      exact ih _ _ (by omega)
    · rw [h _ (by omega), ok_bind, if_neg heq, if_neg hpos]
      exact ih _ _ (by omega)

theorem btCmp_leaf {levels : List (List Node)} {n : Node} {pg : Page} {prev next : Pgno} {i : Nat}
    (hsize : 0 < plen c)
    (hrep : Rep (plen c) t.pages t.free ⟨levels, cs, fs⟩) (hn : LeafNode c cs n)
    (hpg : pg.Shows n prev next) (hi : i < n.linp.length) :
    btCmp c t key pg i = .ok (slotCmp c cs key n.linp i) := by
  obtain ⟨bl, hbl, -, hbig, -⟩ := hn.slots _ (List.getElem_mem hi)
  have hget : n.linp[i]? = some (some (.bl bl)) := by rw [List.getElem?_eq_getElem hi, hbl]
  have hslot : pg.getBleaf i = .ok bl := by simp [Page.getBleaf, Page.slot, hpg.linp, hget]
  have htype : pg.type = .bleaf := hpg.type.trans hn.type
  simp [btCmp, htype, hslot, fullKey_spec hsize hrep hbig, slotCmp, hget, slotKey, itemKey]

theorem btCmp_internal {levels : List (List Node)} {n : Node} {pg : Page} {prev next : Pgno}
    {i : Nat} (hsize : 0 < plen c)
    (hrep : Rep (plen c) t.pages t.free ⟨levels, cs, fs⟩) (hn : InternalNode c cs n)
    (hpg : pg.Shows n prev next) (hi : i < n.linp.length) :
    btCmp c t key pg i = .ok (sepCmp c cs key prev n.linp i) := by
  obtain ⟨bi, hbi, -, hbig⟩ := hn.slots _ (List.getElem_mem hi)
  have hget : n.linp[i]? = some (some (.bi bi)) := by rw [List.getElem?_eq_getElem hi, hbi]
  have hslot : pg.getBinternal i = .ok bi := by
    simp [Page.getBinternal, Page.slot, hpg.linp, hget]
  have htype : pg.type = .binternal := hpg.type.trans hn.type
  rw [btCmp, htype, hpg.prevpg, sepCmp]
  by_cases hfirst : i = 0 ∧ prev = pInvalid
  · simp [hfirst]
  · have hfirst' : ¬ (i = 0 ∧ prev = pInvalid ∧ PageType.binternal ≠ .bleaf) := by
      simpa using hfirst
    rw [if_neg hfirst', if_neg hfirst, if_neg (by decide)]
    simp [hslot, fullKey_spec hsize hrep hbig, slotCmp, hget, slotKey, itemKey]

theorem slotCmp_descends {linp : List (Option Item)} {first : Nat} (hord : TotalCmp ord)
    (hcmp : ∀ a b, dom a → dom b → c.cmp a b = ord a b) (hkey : dom key)
    (hdom : ∀ s ∈ linp, ∃ k, slotKey cs s = some k ∧ dom k)
    (hsorted : ((linp.drop first).filterMap (slotKey cs)).Pairwise fun a b => ord a b < 0) :
    Descends (slotCmp c cs key linp) first linp.length := by
  intro i j hi hij hj hle
  obtain ⟨a, ha, hadom⟩ := hdom _ (List.getElem_mem (by omega : i < linp.length))
  obtain ⟨b, hb, hbdom⟩ := hdom _ (List.getElem_mem hj)
  have hab : ord a b < 0 := by
    have hpair := List.pairwise_iff_getElem.1 (List.pairwise_filterMap.1 hsorted) (i - first)
      (j - first) (by simp; omega) (by simp; omega) (by omega)
    simp only [List.getElem_drop, Nat.add_sub_cancel' hi,
      Nat.add_sub_cancel' (Nat.le_trans hi (Nat.le_of_lt hij))] at hpair
    exact hpair a ha b hb
  have hi' : slotCmp c cs key linp i = ord key a := by
    simp [slotCmp, ha, hcmp key a hkey hadom, List.getElem?_eq_getElem (by omega : i < linp.length)]
  have hj' : slotCmp c cs key linp j = ord key b := by
    simp [slotCmp, hb, hcmp key b hkey hbdom, List.getElem?_eq_getElem hj]
  rw [hi'] at hle
  rw [hj']
  refine hord.trans_le_lt (fun hlt => ?_) hab
  have := (hord.neg_swap a key).1 hlt
  omega

/-- The place of a key on the leaf page `x` behind `A`: the slots before it and those from
it on. -/
structure PlacedAt (ord : Dbt → Dbt → Int) (cs : List Chain) (ups : List (List Node))
    (A : List Node) (u v : List (Option Item)) (key : Dbt) (exact : Bool) : Prop where
  brackets : Brackets ord (leafFences cs ups) A.length key
  below : ∀ k ∈ u.filterMap (slotKey cs), ord k key < 0
  hit : exact = true → ∃ s v', v = s :: v' ∧ slotKey cs s = some key ∧
    ∀ k ∈ v'.filterMap (slotKey cs), ord key k < 0
  miss : exact = false → ∀ k ∈ v.filterMap (slotKey cs), ord key k < 0

/-- The result of a search: position `e` on page `x` of the leaf level, and the path. -/
structure Located (t : Btree) (leaves : List Node) (ups : List (List Node)) (A : List Node)
    (x : Node) (B : List Node) (u v : List (Option Item)) (r : Btree × Epgno × Bool) : Prop where
  leaves_eq : leaves = A ++ x :: B
  linp_eq : x.linp = u ++ v
  eq : r.1 = { t with stack := r.1.stack }
  path : Path Node.linp Node.pgno ups A.length (path r.1.stack)
  pgno : r.2.1.pgno = x.pgno
  index : r.2.1.index = u.length
  hit : r.2.2 = true → v ≠ []

theorem placedAt_of_found {A : List Node} {x : Node} {r : Nat × Bool} (hord : TotalCmp ord)
    (hcmp : ∀ a b, dom a → dom b → c.cmp a b = ord a b) (hkey : dom key)
    (hslots : ∀ s ∈ x.linp, ∃ k, slotKey cs s = some k ∧ dom k)
    (hbrackets : Brackets ord (leafFences cs ups) A.length key)
    (hfound : Found (slotCmp c cs key x.linp) 0 x.linp.length r) :
    PlacedAt ord cs ups A (x.linp.take r.1) (x.linp.drop r.1) key r.2 := by
  have hval : ∀ i (hi : i < x.linp.length), ∀ k, slotKey cs x.linp[i] = some k →
      slotCmp c cs key x.linp i = ord key k := by
    intro i hi k hk
    obtain ⟨k', hk', hdom⟩ := hslots _ (List.getElem_mem hi)
    obtain rfl : k = k' := Option.some.inj (hk.symm.trans hk')
    simp [slotCmp, hk, List.getElem?_eq_getElem hi, hcmp key k hkey hdom]
  have habove : ∀ m, r.1 < m → ∀ k ∈ (x.linp.drop m).filterMap (slotKey cs), ord key k < 0 := by
    intro m hm k hk
    obtain ⟨s, hs, hsk⟩ := List.mem_filterMap.1 hk
    obtain ⟨j, hj, rfl⟩ := List.getElem_of_mem hs
    rw [List.getElem_drop] at hsk
    rw [← hval _ _ k hsk]
    exact hfound.above _ (Nat.zero_le _) (by omega) (by simp at hj; omega)
  refine ⟨hbrackets, ?_, ?_, ?_⟩
  · intro k hk
    obtain ⟨s, hs, hsk⟩ := List.mem_filterMap.1 hk
    obtain ⟨j, hj, rfl⟩ := List.getElem_of_mem hs
    rw [List.getElem_take] at hsk
    have hlt := hfound.below j (Nat.zero_le _) (by simp at hj; omega)
    rw [hval _ _ k hsk] at hlt
    exact (hord.neg_swap k key).2 hlt
  · intro hexact
    obtain ⟨hlt, hzero⟩ := hfound.hit hexact
    obtain ⟨k, hk, -⟩ := hslots _ (List.getElem_mem hlt)
    rw [hval _ hlt k hk, hord.eq_zero] at hzero
    exact ⟨_, _, List.drop_eq_getElem_cons hlt, hzero ▸ hk, habove _ (Nat.lt_succ_self _)⟩
  · intro hmiss k hk
    obtain ⟨s, hs, hsk⟩ := List.mem_filterMap.1 hk
    obtain ⟨j, hj, rfl⟩ := List.getElem_of_mem hs
    rw [List.getElem_drop] at hsk
    rw [← hval _ _ k hsk]
    rcases Nat.eq_zero_or_pos j with rfl | hpos
    · exact hfound.here hmiss (Nat.zero_le _) (by simp at hj; omega)
    · exact hfound.above _ (Nat.zero_le _) (by omega) (by simp at hj; omega)

theorem sorted_separators {A B : List Node} {x : Node} {U : List (List Node)}
    (htower : Tower Node.linp slotChild Node.pgno pRoot ((A ++ x :: B) :: U))
    (hsorted : (fences Node.linp (slotKey cs) ((A ++ x :: B) :: U)).Pairwise
      fun a b => (Mark.low a).Before ord (.low b)) :
    ((x.linp.drop 1).filterMap (slotKey cs)).Pairwise fun a b => ord a b < 0 := by
  obtain ⟨X, low, Y, hXY, hX, -⟩ := htower.split_fences (slotKey cs)
  rw [fences, hXY, levelFences_append_cons hX] at hsorted
  have hnode : ((x.linp.drop 1).map (slotKey cs)).Sublist
      (nodeFences (slotKey cs) low x.linp) := by
    cases x.linp with
    | nil => exact List.Sublist.refl _
    | cons s rest => exact List.sublist_cons_self _ _
  have hpair := hsorted.sublist
    ((hnode.trans (List.sublist_append_right _ _)).trans (List.sublist_append_left _ _))
  refine List.pairwise_filterMap.2 ((List.pairwise_map.1 hpair).imp ?_)
  intro s s' hbefore a ha b hb
  rwa [ha, hb] at hbefore

theorem brackets_child {A B : List Node} {x : Node} {U : List (List Node)} {prev : Pgno}
    {u w : List (Option Item)} {d : Option Item} {r : Nat × Bool} (hord : TotalCmp ord)
    (hcmp : ∀ a b, dom a → dom b → c.cmp a b = ord a b) (hkey : dom key)
    (htower : Tower Node.linp slotChild Node.pgno pRoot ((A ++ x :: B) :: U))
    (hslots : ∀ s ∈ x.linp, ∃ k, slotKey cs s = some k ∧ dom k) (hne : ∀ m ∈ B, m.linp ≠ [])
    (hbrackets : Brackets ord (fences Node.linp (slotKey cs) U) A.length key)
    (hfound : Found (sepCmp c cs key prev x.linp) 1 x.linp.length r)
    (hsplit : x.linp = u ++ d :: w) (hu : u.length = if r.2 then r.1 else r.1 - 1) :
    Brackets ord (fences Node.linp (slotKey cs) ((A ++ x :: B) :: U))
      (slotCount Node.linp A + u.length) key := by
  have hlen : (fences Node.linp (slotKey cs) U).length = A.length + 1 + B.length := by
    rw [htower.length (slotKey cs)]
    simp only [List.length_append, List.length_cons]
    omega
  have hval : ∀ i (hi : i < x.linp.length), 1 ≤ i → ∀ k, slotKey cs x.linp[i] = some k →
      sepCmp c cs key prev x.linp i = ord key k := by
    intro i hi hpos k hk
    obtain ⟨k', hk', hdom⟩ := hslots _ (List.getElem_mem hi)
    obtain rfl : k = k' := Option.some.inj (hk.symm.trans hk')
    rw [sepCmp_of_pos hpos]
    simp [slotCmp, hk, List.getElem?_eq_getElem hi, hcmp key k hkey hdom]
  refine hbrackets.descend hsplit hne hlen (fun hu' => ?_) (fun f hf => ?_)
  · -- the slot itself compares greater or equal
    have hpos : 0 < u.length := List.length_pos_of_ne_nil hu'
    have hlt : u.length < x.linp.length := by simp [hsplit]
    have hget : x.linp[u.length] = d := by simp [hsplit]
    obtain ⟨k, hk, -⟩ := hslots _ (List.getElem_mem hlt)
    have heq := hval u.length hlt hpos k hk
    rw [hget] at hk
    rw [hk]
    intro hneg
    cases hr : r.2 with
    | true =>
      rw [hr, if_pos rfl] at hu
      have := (hfound.hit hr).2
      rw [← hu, heq] at this
      omega
    | false =>
      rw [hr, if_neg (by simp)] at hu
      have := hfound.below u.length hpos (by omega)
      omega
  · -- the next slot compares less
    obtain ⟨w, rfl⟩ : ∃ w', w = f :: w' := by
      cases w with
      | nil => simp at hf
      | cons f' w' => exact ⟨w', by simp_all⟩
    have hlt : u.length + 1 < x.linp.length := by simp [hsplit]
    have hget : x.linp[u.length + 1] = f := by simp [hsplit]
    obtain ⟨k, hk, -⟩ := hslots _ (List.getElem_mem hlt)
    have heq := hval (u.length + 1) hlt (by omega) k hk
    rw [hget] at hk
    rw [hk]
    change ord key k < 0
    rw [← heq]
    cases hr : r.2 with
    | true =>
      rw [hr, if_pos rfl] at hu
      exact hfound.above _ (by omega) (by omega) hlt
    | false =>
      rw [hr, if_neg (by simp)] at hu
      rcases Nat.eq_or_lt_of_le (by omega : r.1 ≤ u.length + 1) with h | h
      · have := hfound.here hr (by omega) (by omega)
        rwa [h] at this
      · exact hfound.above _ (by omega) h hlt

theorem Ordered.slots (h : Ordered ord dom cs leaves ups) (hshape : Shape c cs leaves ups)
    {level : List Node} (hlevel : level ∈ leaves :: ups) {n : Node} (hn : n ∈ level) :
    ∀ s ∈ n.linp, ∃ k, slotKey cs s = some k ∧ dom k := by
  intro s hs
  have hsome : ∃ k, slotKey cs s = some k := by
    rcases List.mem_cons.1 hlevel with rfl | hup
    · obtain ⟨bl, rfl, -⟩ := (hshape.leaf n hn).slots s hs
      exact ⟨_, rfl⟩
    · obtain ⟨bi, rfl, -⟩ := (hshape.internal level hup n hn).slots s hs
      exact ⟨_, rfl⟩
  obtain ⟨k, hk⟩ := hsome
  exact ⟨k, hk, h.dom level hlevel n hn s hs k hk⟩

theorem Shape.length_fences (hshape : Shape c cs leaves ups) :
    (leafFences cs ups).length = (leaves.map (nodeKeys cs)).length := by
  rw [List.length_map]
  exact hshape.tower.length _

theorem Ordered.sorted_fences {D U : List (List Node)} (h : Ordered ord dom cs leaves ups)
    (hshape : Shape c cs leaves ups) (hups : ups = D ++ U) :
    (fences Node.linp (slotKey cs) U).Pairwise fun a b => (Mark.low a).Before ord (.low b) := by
  have hsorted := h.fenced.sorted_fences hshape.length_fences
  refine hsorted.sublist ?_
  have htower := hshape.tower.2
  rw [hups] at htower
  rw [leafFences, hups]
  exact sublist_fences (slotKey cs) htower fun level hlevel n hn =>
    (hshape.internal level (by simp [hups, hlevel]) n hn).ne

/-- What is known of a key's place once its node is known: if the tree is in order and
the key belongs to node `i` of the level below `U`, then `P`. -/
def IfOrdered (c : Config) (cs : List Chain) (leaves : List Node) (ups : List (List Node))
    (key : Dbt) (U : List (List Node)) (i : Nat) (P : (Dbt → Dbt → Int) → Prop) : Prop :=
  ∀ ord dom, TotalCmp ord → (∀ a b, dom a → dom b → c.cmp a b = ord a b) → dom key →
    Ordered ord dom cs leaves ups → Brackets ord (fences Node.linp (slotKey cs) U) i key → P ord

theorem btSearchFrom_leaf (hsize : 0 < plen c) (hnodups : c.nodups = true) {A B : List Node}
    {x : Node} (hshape : Shape c cs (A ++ x :: B) ups) (fuel : Nat)
    (hrep : Rep (plen c) t.pages t.free ⟨(A ++ x :: B) :: ups, cs, fs⟩)
    (hpath : Path Node.linp Node.pgno ups A.length (path t.stack)) :
    ∃ r u v, btSearchFrom c key (fuel + 1) t x.pgno = .ok r ∧
      Located t (A ++ x :: B) ups A x B u v r ∧
      IfOrdered c cs (A ++ x :: B) ups key ups A.length fun ord =>
        PlacedAt ord cs ups A u v key r.2.2 := by
  obtain ⟨pg, hget, hpg⟩ := Rep.getNode (D := []) hrep
  have hleaf := hshape.leaf x (by simp)
  have htype : pg.type = .bleaf := hpg.type.trans hleaf.type
  have hcmps : ∀ i < x.linp.length, btCmp c t key pg i = .ok (slotCmp c cs key x.linp i) :=
    fun i hi => btCmp_leaf hsize hrep hleaf hpg hi
  have hbound := bsearch_bound (slotCmp c cs key x.linp) x.linp.length 0 x.linp.length
  rw [Nat.zero_add] at hbound
  rw [btSearchFrom]
  simp only [mpoolGet, hget, ok_bind, Page.nextindex, hpg.linp]
  rw [btBsearch_eq hcmps _ 0 _ (by omega), ok_bind]
  generalize hr : bsearch (slotCmp c cs key x.linp) x.linp.length 0 x.linp.length = r at hbound ⊢
  refine ⟨(t, ⟨x.pgno, r.1⟩, r.2), x.linp.take r.1, x.linp.drop r.1, ?_, ?_, ?_⟩
  · cases hhit : r.2 <;> simp [htype, hhit, btSearchEnd, hnodups]
  · exact
      { leaves_eq := rfl
        linp_eq := (List.take_append_drop _ _).symm
        eq := rfl
        path := hpath
        pgno := rfl
        index := by simp [hbound.1]
        hit := fun hhit => by
          have := hbound.2 hhit
          simpa using this }
  · intro ord dom hord hcmp hkey hordered hbrackets
    have hslots := hordered.slots hshape (List.mem_cons_self ..) (by simp : x ∈ A ++ x :: B)
    refine placedAt_of_found hord hcmp hkey hslots hbrackets (hr ▸ bsearch_found (by omega) ?_)
    have hnode := hordered.fenced
    obtain ⟨X, low, Y, hXY, hX, -⟩ := hshape.tower.split_fences (slotKey cs)
    rw [leafFences, hXY, List.map_append, List.map_cons] at hnode
    exact slotCmp_descends hord hcmp hkey hslots (hnode.sorted_node (by simpa using hX))

theorem btSearchFrom_internal (hsize : 0 < plen c) (hshape : Shape c cs leaves ups)
    {D U : List (List Node)} {A B : List Node} {x : Node} (fuel : Nat)
    (hrep : Rep (plen c) t.pages t.free ⟨leaves :: ups, cs, fs⟩)
    (hups : ups = D ++ (A ++ x :: B) :: U) :
    ∃ u d w p, x.linp = u ++ d :: w ∧ slotChild d = some p ∧
      btSearchFrom c key (fuel + 1) t x.pgno =
        btSearchFrom c key fuel { t with stack := ⟨x.pgno, u.length⟩ :: t.stack } p ∧
      IfOrdered c cs leaves ups key U A.length fun ord =>
        Brackets ord (fences Node.linp (slotKey cs) ((A ++ x :: B) :: U))
          (slotCount Node.linp A + u.length) key := by
  have hup : A ++ x :: B ∈ ups := by simp [hups]
  have hrep' : Rep (plen c) t.pages t.free ⟨(leaves :: D) ++ (A ++ x :: B) :: U, cs, fs⟩ := by
    simpa [hups] using hrep
  obtain ⟨pg, hget, hpg⟩ := hrep'.getNode
  have hinternal := hshape.internal _ hup x (by simp)
  have htype : pg.type = .binternal := hpg.type.trans hinternal.type
  have hcmps : ∀ i < x.linp.length, btCmp c t key pg i =
      .ok (sepCmp c cs key (lastKey Node.pgno pInvalid A) x.linp i) :=
    fun i hi => btCmp_internal hsize hrep hinternal hpg hi
  have hbound := bsearch_bound (sepCmp c cs key (lastKey Node.pgno pInvalid A) x.linp)
    x.linp.length 0 x.linp.length
  rw [Nat.zero_add] at hbound
  rw [btSearchFrom]
  simp only [mpoolGet, hget, ok_bind, Page.nextindex, hpg.linp]
  rw [btBsearch_eq hcmps _ 0 _ (by omega), ok_bind]
  generalize hr : bsearch (sepCmp c cs key (lastKey Node.pgno pInvalid A) x.linp)
    x.linp.length 0 x.linp.length = r at hbound ⊢
  have hpos : 0 < x.linp.length := List.length_pos_of_ne_nil hinternal.ne
  have hindex : (if r.2 then r.1 else r.1 - 1) < x.linp.length := by
    cases hhit : r.2 with
    | true => simpa using hbound.2 hhit
    | false => simp only [Bool.false_eq_true, if_false]; omega
  obtain ⟨u, d, w, hslot, hu⟩ := exists_split hindex
  obtain ⟨bi, hbi, -, -⟩ := hinternal.slots d (by simp [hslot])
  have hgetbi : pg.getBinternal (if r.2 then r.1 else r.1 - 1) = .ok bi := by
    simp [Page.getBinternal, Page.slot, hpg.linp, hslot, ← hu, hbi]
  refine ⟨u, d, w, bi.pgno, hslot, by simp [slotChild, hbi, Item.child], ?_, ?_⟩
  · simp only [htype, if_neg (by decide : ¬ PageType.binternal = .bleaf), hgetbi, ok_bind,
      hpg.pgno, hu]
  · intro ord dom hord hcmp hkey hordered hbrackets
    have hslots := hordered.slots hshape (List.mem_cons_of_mem _ hup) (by simp : x ∈ A ++ x :: B)
    have htower : Tower Node.linp slotChild Node.pgno pRoot ((A ++ x :: B) :: U) := by
      have := hshape.tower.2
      rw [hups] at this
      exact this.suffix
    have hdesc := slotCmp_descends hord hcmp hkey hslots
      (sorted_separators htower (hordered.sorted_fences hshape hups))
    refine brackets_child hord hcmp hkey htower hslots
      (fun m hm => (hshape.internal _ hup m (by simp [hm])).ne) hbrackets
      (hr ▸ bsearch_found (by omega) ?_) hslot hu
    intro i j hi hij hj hle
    rw [sepCmp_of_pos (by omega)] at hle ⊢
    exact hdesc i j hi hij hj hle

theorem btSearchFrom_spec (hsize : 0 < plen c) (hnodups : c.nodups = true)
    (hshape : Shape c cs leaves ups) {fuel : Nat} {D U : List (List Node)} {A B : List Node}
    {x : Node} (hrep : Rep (plen c) t.pages t.free ⟨leaves :: ups, cs, fs⟩)
    (hsplit : leaves :: ups = D ++ (A ++ x :: B) :: U)
    (hpath : Path Node.linp Node.pgno U A.length (path t.stack)) (hfuel : D.length < fuel) :
    ∃ r A' x' B' u v, btSearchFrom c key fuel t x.pgno = .ok r ∧
      Located t leaves ups A' x' B' u v r ∧
      IfOrdered c cs leaves ups key U A.length fun ord =>
        PlacedAt ord cs ups A' u v key r.2.2 := by
  -- by induction on the levels below, each step through one internal page
  induction fuel generalizing t D A x B U with
  | zero => omega
  | succ fuel ih =>
    obtain rfl | ⟨D, below, rfl⟩ := List.eq_nil_or_concat D
    · obtain ⟨rfl, rfl⟩ : leaves = A ++ x :: B ∧ ups = U := by simpa using hsplit
      obtain ⟨r, u, v, heq, hloc, hplaced⟩ :=
        btSearchFrom_leaf hsize hnodups hshape fuel hrep hpath
      exact ⟨r, A, x, B, u, v, heq, hloc, hplaced⟩
    · rw [List.concat_eq_append, List.append_assoc, List.singleton_append] at hsplit
      obtain ⟨D', hD'⟩ : ∃ D', ups = D' ++ (A ++ x :: B) :: U := by
        cases D with
        | nil => exact ⟨[], (List.cons.inj hsplit).2⟩
        | cons L D => exact ⟨D ++ [below], by simpa using (List.cons.inj hsplit).2⟩
      obtain ⟨u, d, w, p, hslot, hchild, heq, hstep⟩ :=
        btSearchFrom_internal (t := t) hsize hshape fuel hrep hD'
      have htower : Tower Node.linp slotChild Node.pgno pRoot (below :: (A ++ x :: B) :: U) := by
        have := hshape.tower
        rw [hsplit] at this
        exact this.suffix
      obtain ⟨A₁, x₁, B₁, rfl, hA₁, rfl⟩ := htower.child_node hslot hchild
      obtain ⟨r, A', x', B', u', v', heq', hloc, hplaced⟩ :=
        ih (t := { t with stack := ⟨x.pgno, u.length⟩ :: t.stack }) hrep hsplit
          ⟨A, x, B, _, path t.stack, rfl, by simp [hslot], hA₁, rfl, hpath⟩
          (by simp only [List.concat_eq_append, List.length_append, List.length_singleton] at hfuel
              omega)
      refine ⟨r, A', x', B', u', v', heq.trans heq', { hloc with eq := hloc.eq }, ?_⟩
      intro ord dom hord hcmp hkey hordered hbrackets
      refine hplaced ord dom hord hcmp hkey hordered ?_
      rw [hA₁]
      exact hstep ord dom hord hcmp hkey hordered hbrackets

theorem btSearch_spec (key : Dbt) (hsize : 0 < plen c) (hnodups : c.nodups = true)
    (hshape : Shape c cs leaves ups)
    (hrep : Rep (plen c) t.pages t.free ⟨leaves :: ups, cs, fs⟩)
    (hdepth : ups.length ≤ stackSize) :
    ∃ r A x B u v, btSearch c t key = .ok r ∧ Located t leaves ups A x B u v r ∧
      ∀ ord dom, TotalCmp ord → (∀ a b, dom a → dom b → c.cmp a b = ord a b) → dom key →
        Ordered ord dom cs leaves ups → PlacedAt ord cs ups A u v key r.2.2 := by
  obtain ⟨D, top, hlevels⟩ : ∃ D top, leaves :: ups = D ++ [top] :=
    (List.eq_nil_or_concat (leaves :: ups)).resolve_left (by simp) |>.imp fun D => by simp
  obtain ⟨x, rfl, hx⟩ := hshape.tower.root_node hlevels
  have hlen := congrArg List.length hlevels
  simp only [List.length_cons, List.length_append, List.length_nil] at hlen
  obtain ⟨r, A, x', B, u, v, heq, hloc, hplaced⟩ :=
    btSearchFrom_spec (t := { t with stack := [] }) (A := []) (B := []) hsize hnodups hshape
      hrep hlevels ⟨rfl, rfl⟩ (by omega : D.length < stackSize + 1)
  rw [hx] at heq
  refine ⟨r, A, x', B, u, v, heq, { hloc with eq := hloc.eq }, ?_⟩
  exact fun ord dom hord hcmp hkey hordered =>
    hplaced ord dom hord hcmp hkey hordered brackets_root

/-- Both pools have the pages of a search, without big keys: `S` has the page below every
entry of its internal pages. -/
structure SamePages (S : List Pgno) (ps ps' : List Page) : Prop where
  same : Agree S ps ps'
  small : ∀ p ∈ S, ∀ h, ps[p]? = some h → ∀ item, some item ∈ h.linp → item.isBigkey = false
  closed : ∀ p ∈ S, ∀ h, ps[p]? = some h → h.type ≠ .bleaf →
    ∀ i bi, h.getBinternal i = .ok bi → bi.pgno ∈ S

theorem slot_mem {h : Page} {i : Nat} {item : Item} (hi : i < h.nextindex)
    (hslot : h.slot i = some item) : some item ∈ h.linp := by
  have hlt : i < h.linp.length := hi
  rw [Page.slot, List.getElem?_eq_getElem hlt] at hslot
  dsimp only at hslot
  exact hslot ▸ List.getElem_mem hlt

theorem btCmp_small {t' : Btree} {h : Page} {i : Nat}
    (hsmall : ∀ item, some item ∈ h.linp → item.isBigkey = false) (hi : i < h.nextindex) :
    btCmp c t' key h i = btCmp c t key h i := by
  have hkey : ∀ {raw : Dbt} {big : Bool}, big = false → fullKey c t' raw big = fullKey c t raw big := by
    rintro raw big rfl
    rfl
  unfold btCmp
  split_ifs
  · rfl
  · cases hget : h.getBleaf i with
    | error e => rfl
    | ok bl =>
      have hslot : h.slot i = some (.bl bl) := by
        unfold Page.getBleaf at hget
        split at hget <;> simp_all
      have hbig : bl.bigkey = false := hsmall _ (slot_mem hi hslot)
      rw [ok_bind, ok_bind, hkey hbig]
  · cases hget : h.getBinternal i with
    | error e => rfl
    | ok bi =>
      have hslot : h.slot i = some (.bi bi) := by
        unfold Page.getBinternal at hget
        split at hget <;> simp_all
      have hbig : bi.bigkey = false := hsmall _ (slot_mem hi hslot)
      rw [ok_bind, ok_bind, hkey hbig]

theorem btBsearch_congr {t' : Btree} {h : Page} {n : Nat}
    (hcmp : ∀ i < n, btCmp c t' key h i = btCmp c t key h i) (fuel base lim : Nat)
    (hn : base + lim ≤ n) :
    btBsearch c t' key h fuel base lim = btBsearch c t key h fuel base lim := by
  induction fuel generalizing base lim with
  | zero => rfl
  | succ fuel ih =>
    rw [btBsearch, btBsearch]
    split_ifs with hlim
    · rfl
    · rw [hcmp _ (by omega), ih _ _ (by omega), ih _ _ (by omega)]

theorem btSearchFrom_congr {S : List Pgno} {ps : List Page} {free : Pgno} {order : SortOrder}
    {fuel : Nat} {pg : Pgno} (hnodups : c.nodups = true) (h : SamePages S t.pages ps) (hpg : pg ∈ S)
    {r : Btree × Epgno × Bool} (heq : btSearchFrom c key fuel t pg = .ok r) :
    btSearchFrom c key fuel { t with pages := ps, free := free, order := order } pg =
      .ok ({ r.1 with pages := ps, free := free, order := order }, r.2) := by
  induction fuel generalizing t pg with
  | zero => simp [btSearchFrom] at heq
  | succ fuel ih =>
    rw [btSearchFrom] at heq ⊢
    simp only [mpoolGet, h.same pg hpg] at heq ⊢
    cases hget : t.pages[pg]? with
    | none => simp [hget] at heq
    | some hp =>
      simp only [hget, ok_bind] at heq ⊢
      rw [btBsearch_congr (t := t) (fun i hi => btCmp_small (h.small pg hpg hp hget) hi) _ _ _
        (Nat.le_of_eq (Nat.zero_add _))]
      cases hsearch : btBsearch c t key hp hp.nextindex 0 hp.nextindex with
      | error e => simp [hsearch] at heq
      | ok b =>
        simp only [hsearch, ok_bind, btSearchEnd, hnodups, if_true] at heq ⊢
        split_ifs at heq ⊢ with hleaf hhit
        · obtain rfl := Except.ok.inj heq
          rfl
        · obtain rfl := Except.ok.inj heq
          rfl
        · cases hbi : hp.getBinternal b.1 with
          | error e => simp [hbi] at heq
          | ok bi =>
            simp only [hbi, ok_bind] at heq ⊢
            exact ih (t := { t with stack := ⟨hp.pgno, b.1⟩ :: t.stack }) h
              (h.closed pg hpg hp hget hleaf _ bi hbi) heq
        · cases hbi : hp.getBinternal (b.1 - 1) with
          | error e => simp [hbi] at heq
          | ok bi =>
            simp only [hbi, ok_bind] at heq ⊢
            exact ih (t := { t with stack := ⟨hp.pgno, b.1 - 1⟩ :: t.stack }) h
              (h.closed pg hpg hp hget hleaf _ bi hbi) heq

theorem btSearch_congr {S : List Pgno} (ps : List Page) (free : Pgno) (order : SortOrder)
    (hnodups : c.nodups = true) (h : SamePages S t.pages ps) (hroot : pRoot ∈ S)
    {r : Btree × Epgno × Bool} (heq : btSearch c t key = .ok r) :
    btSearch c { t with pages := ps, free := free, order := order } key =
      .ok ({ r.1 with pages := ps, free := free, order := order }, r.2) :=
  btSearchFrom_congr (t := { t with stack := [] }) hnodups h hroot heq

end Btree

end Bsdi.Db
