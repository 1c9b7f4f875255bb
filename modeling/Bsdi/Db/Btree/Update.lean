import Bsdi.Db.Btree.Records

/-!
# Storing records

`__bt_put` on a tree in order. The chains of the pair are stored first, so the position is
found in a pool that has more pages than the one `__bt_put` started with; the tree in it is
the same.
-/

namespace Bsdi.Db

open Bsdi.Lib

namespace Btree

variable {c : Config} {t t₁ t' : Btree} {cs new : List Chain} {fs fs₁ : List Pgno}
variable {leaves A B : List Node} {ups : List (List Node)} {x : Node} {key data : Dbt} {bl : BLeaf}
variable {ord : Dbt → Dbt → Int} {u v w : List (Option Item)} {r : Btree × Epgno × Bool}

def withoutRecord (h : Page) (index : Nat) (exact : Bool) : Page :=
  if exact then { h with linp := h.linp.eraseIdx index, dead := none } else h

/-- If there is no room for the pair, its page and the parents that have no room either
divide well. A record of the same key is replaced if `overwrite` is set. -/
def SplitsWell (c : Config) (t : Btree) (key data : Dbt) (overwrite : Bool) : Prop :=
  ∀ r h items bl, btSearch c t key = .ok r → (r.2.2 = true → overwrite = true) →
    t.pages[r.2.1.pgno]? = some h →
    (withoutRecord h r.2.1.index r.2.2).linp = items.map some →
    bl.key = key → bl.bigkey = false → bl.data.length = dataOnPage c key data →
    (withoutRecord h r.2.1.index r.2.2).room c.psize < (Item.bl bl).nbytes + indxSize →
    PageFits c (withoutRecord h r.2.1.index r.2.2) items r.2.1.index (.bl bl) ∧
      SplitsFit c t.pages r.1.stack .bleaf
        (pageHalves c (withoutRecord h r.2.1.index r.2.2) items r.2.1.index (.bl bl)).1
        (pageHalves c (withoutRecord h r.2.1.index r.2.2) items r.2.1.index (.bl bl)).2

theorem Pending.agree (h : Rep (plen c) t.pages t.free ⟨leaves :: ups, cs, fs⟩)
    (hp : Pending c t (leaves :: ups) cs fs key data new fs₁ t₁ bl) :
    Agree ((leaves :: ups).flatten.map Node.pgno) t.pages t₁.pages := by
  intro q hq
  refine hp.same q (h.lt_length q (List.mem_append_left _ hq)) fun hnew => ?_
  have hnodup := hp.rep.nodup
  rw [View.pgnos, List.nodup_append] at hnodup
  refine hnodup.2.2 q hq q ?_ rfl
  simp only [List.flatMap_append, List.mem_append]
  exact .inl (.inl hnew)

theorem Rep.exists_node {p : Pgno} {levels : List (List Node)}
    (h : Rep (plen c) t.pages t.free ⟨levels, cs, fs⟩) (hp : p ∈ levels.flatten.map Node.pgno) :
    ∃ level ∈ levels, ∃ n ∈ level, ∃ pg prev next, n.pgno = p ∧ t.pages[p]? = some pg ∧
      pg.Shows n prev next := by
  obtain ⟨n, hmem, rfl⟩ := List.mem_map.1 hp
  obtain ⟨level, hlevel, hn⟩ := List.mem_flatten.1 hmem
  obtain ⟨D, U, rfl⟩ := List.append_of_mem hlevel
  obtain ⟨A, B, rfl⟩ := List.append_of_mem hn
  obtain ⟨pg, hget, hpg⟩ := h.getNode
  exact ⟨_, hlevel, n, hn, pg, _, _, rfl, hget, hpg⟩

theorem Sorted.samePages (h : Sorted c ord t cs fs leaves ups)
    (hp : Pending c t (leaves :: ups) cs fs key data new fs₁ t₁ bl) :
    SamePages ((leaves :: ups).flatten.map Node.pgno) t.pages t₁.pages where
  same := hp.agree h.tree.rep
  small p hmem pg hget item hitem := by
    obtain ⟨level, hlevel, n, hn, pg', prev, next, -, hget', hpg⟩ := h.tree.rep.exists_node hmem
    obtain rfl : pg = pg' := Option.some.inj (hget.symm.trans hget')
    rw [hpg.linp] at hitem
    rcases List.mem_cons.1 hlevel with rfl | hup
    · obtain ⟨bl, hbl, -⟩ := (h.tree.shape.leaf n hn).slots _ hitem
      obtain rfl := Option.some.inj hbl
      exact h.small n hn bl hitem
    · obtain ⟨bi, hbi, hbig, -⟩ :=
        ((h.tree.shape.internal level hup n hn).slots _ hitem).small h.plain
      obtain rfl := Option.some.inj hbi
      exact hbig
  closed p hmem pg hget htype i bi hbi := by
    obtain ⟨level, hlevel, n, hn, pg', prev, next, -, hget', hpg⟩ := h.tree.rep.exists_node hmem
    obtain rfl : pg = pg' := Option.some.inj (hget.symm.trans hget')
    rcases List.mem_cons.1 hlevel with rfl | hup
    · exact absurd (hpg.type.trans (h.tree.shape.leaf n hn).type) htype
    · have hint := h.tree.shape.internal level hup n hn
      have hslot : pg.slot i = some (.bi bi) := by
        unfold Page.getBinternal at hbi
        split at hbi <;> simp_all
      have hitem : some (Item.bi bi) ∈ n.linp := by
        rw [Page.slot, hpg.linp] at hslot
        cases hi : n.linp[i]? with
        | some s =>
          simp only [hi] at hslot
          exact hslot ▸ List.mem_of_getElem? hi
        | none =>
          -- only an empty page has a record behind its index
          simp only [hi] at hslot
          split_ifs at hslot with hzero
          subst hzero
          exact absurd (List.getElem?_eq_none_iff.1 hi) (by simpa using hint.ne)
      exact h.tree.shape.tower.child_mem hup hn hitem rfl

theorem Sorted.search_before (hs : Sound c) (hnodups : c.nodups = true)
    (h : Sorted c ord t cs fs leaves ups) (hdepth : ups.length ≤ stackSize)
    (hp : Pending c t (leaves :: ups) cs fs key data new fs₁ t₁ bl)
    (heq : btSearch c { t₁ with order := .not } key = .ok r) :
    ∃ r₀, btSearch c t key = .ok r₀ ∧ r₀.2 = r.2 ∧ r₀.1.stack = r.1.stack := by
  obtain ⟨r₀, A, x, B, u, v, heq₀, -⟩ := btSearch_spec key hs.plen_pos hnodups
    h.tree.shape h.tree.rep hdepth
  have hroot : pRoot ∈ (leaves :: ups).flatten.map Node.pgno := by
    obtain ⟨D, top, hlevels⟩ : ∃ D top, leaves :: ups = D ++ [top] :=
      (List.eq_nil_or_concat (leaves :: ups)).resolve_left (by simp) |>.imp fun D => by simp
    obtain ⟨n, rfl, hn⟩ := h.tree.shape.tower.root_node hlevels
    rw [hlevels]
    exact List.mem_map.2 ⟨n, by simp, hn⟩
  have hafter := btSearch_congr t₁.pages t₁.free .not hnodups
    (h.samePages hp) hroot heq₀
  have hstate : { t₁ with order := .not } =
      { t with pages := t₁.pages, free := t₁.free, order := .not } := by rw [hp.eq]
  rw [hstate, hafter] at heq
  obtain rfl := Except.ok.inj heq
  exact ⟨r₀, heq₀, rfl, rfl⟩

theorem Sorted.located (hs : Sound c) (hnodups : c.nodups = true)
    (h : Sorted c ord t cs fs leaves ups) (hdepth : ups.length ≤ stackSize)
    (hp : Pending c t (leaves :: ups) cs fs key data new fs₁ t₁ bl)
    (hstore : storePair c t key data = .ok (t₁, bl)) (hfresh : Fresh c t key data) :
    ∃ r A x B u v, putSearch c t₁ bl = .ok r ∧ leaves = A ++ x :: B ∧
      Finds c t₁ (new ++ cs) A x B ups u v bl r ∧
      Sorted c ord r.1 (new ++ cs) fs₁ (A ++ x :: B) ups := by
  obtain ⟨htree, hordered, -, hplain, hlow⟩ := h.store hp
  obtain ⟨r, A, x, B, u, v, heq, rfl, hfinds⟩ := putSearch_spec bl hs hnodups htree h.filled
    hdepth (h.cacheMiss hp hstore hfresh)
  refine ⟨r, A, x, B, u, v, heq, rfl, hfinds, ?_⟩
  have hpages : r.1.pages = t₁.pages ∧ r.1.free = t₁.free := by
    rcases hfinds.how with ⟨-, hr, -⟩ | ⟨hr, -⟩ <;> rw [hr] <;> exact ⟨rfl, rfl⟩
  refine ⟨⟨by rw [hpages.1, hpages.2]; exact htree.rep, htree.shape⟩, h.filled, hordered.fenced,
    h.small, hplain, hlow, fun hne => ?_⟩
  rcases hfinds.how with ⟨-, hr, -⟩ | ⟨hr, -, hroot, -⟩
  · exact absurd (by rw [hr]) hne
  · refine .inl ⟨?_, fun hback => ?_⟩
    · rw [hr, hfinds.at_]
      simp
    · rw [hr, hfinds.at_]
      exact hroot (by rw [hr] at hback; exact hback)

theorem Pending.slot {levels : List (List Node)}
    (hp : Pending c t levels cs fs key data new fs₁ t₁ bl)
    (hlen : bl.key.length + bl.data.length ≤ c.ovflsize) :
    LeafSlot c (new ++ cs) (some (.bl bl)) :=
  ⟨bl, rfl, hlen, fun hb => (hp.key hb).mono fun _ _ => trivial, hp.data⟩

theorem Shape.refs_mem (h : Shape c cs leaves ups) :
    ∀ q ∈ leafRefs leaves, q ∈ cs.flatMap Chain.pgnos := by
  intro q hq
  simp only [leafRefs, List.mem_flatMap] at hq
  obtain ⟨n, hn, s, hs, hq⟩ := hq
  obtain ⟨bl, rfl, -, hkey, hdata⟩ := (h.leaf n hn).slots s hs
  have hhead : ∀ {P : Bool → Prop} {raw : Dbt}, HasRef cs P raw →
      ofLe32 raw ∈ cs.flatMap Chain.pgnos := by
    rintro P raw ⟨ch, hch, hhead, -⟩
    exact List.mem_flatMap.2 ⟨ch, hch, List.mem_of_mem_head? hhead⟩
  simp only [slotRefs, List.mem_append] at hq
  rcases hq with hq | hq
  · split_ifs at hq with hb
    · obtain rfl := List.mem_singleton.1 hq
      exact hhead (hkey hb)
    · simp at hq
  · split_ifs at hq with hb
    · obtain rfl := List.mem_singleton.1 hq
      exact hhead (hdata hb)
    · simp at hq

theorem Pending.nodup_refs (hshape : Shape c cs (A ++ x :: B) ups) (hlinp : x.linp = u ++ v)
    (hp : Pending c t ((A ++ x :: B) :: ups) cs fs key data new fs₁ t₁ bl) :
    (leafRefs (A ++ { x with linp := u ++ some (.bl bl) :: v } :: B)).Nodup := by
  have hsame : leafRefs (A ++ { x with linp := u ++ v } :: B) = leafRefs (A ++ x :: B) := by
    simp [leafRefs, hlinp]
  refine (leafRefs_erase rfl).nodup_iff.2 (List.nodup_append.2 ⟨hp.nodup, ?_, ?_⟩)
  · exact hsame ▸ hshape.refs
  · rintro q hq q' hq' rfl
    have hnew := hp.refs q hq
    have hold := hshape.refs_mem q (hsame ▸ hq')
    have hnodup := hp.rep.nodup
    simp only [View.pgnos, List.flatMap_append] at hnodup
    have hchains := (List.nodup_append.1 (List.nodup_append.1 hnodup).2.1).1
    exact (List.nodup_append.1 hchains).2.2 q hnew q hold rfl

theorem Sorted.ready (hord : Compares c ord) (hshape : Shape c cs (A ++ x :: B) ups)
    (hp : Pending c t ((A ++ x :: B) :: ups) cs fs key data new fs₁ t₁ bl)
    (hlen : bl.key.length + bl.data.length ≤ c.ovflsize) (hbig : bl.bigkey = false)
    (hfinds : Finds c t₁ (new ++ cs) A x B ups u v bl r)
    (h : Sorted c ord r.1 (new ++ cs) fs₁ (A ++ x :: B) ups) (hexact : r.2.2 = false) :
    Ready c ord r.1 (new ++ cs) fs₁ A x B ups u v bl where
  tree := h.tree
  others hups n hn := h.filled hups n (by
    simp only [List.mem_append, List.mem_cons] at hn ⊢
    tauto)
  fenced := h.fenced
  small := h.small
  plain := h.plain
  low := h.low
  linp := hfinds.position.linp
  placed := hexact ▸ hfinds.position.place hord (by omega) h.ordered
  key := hbig
  slot := hp.slot hlen
  refs := hp.nodup_refs hshape hfinds.position.linp
  cached hne := by
    rcases hfinds.how with ⟨-, hr, -⟩ | ⟨hr, -, hroot, hroom⟩
    · exact absurd (by rw [hr]) hne
    · rw [hr]
      exact ⟨by rw [hfinds.at_], hroot, hroom⟩

section

variable {t₂ : Btree} {cs₂ : List Chain} {fs₂ : List Pgno} {old : BLeaf}

theorem room_erase {n n' : Node} {pg pg' : Page} {prev next prev' next' : Pgno} {nb : Nat}
    (hs : Sound c) (hn : LeafNode c cs n) (hn' : LeafNode c cs₂ n') (hpg : pg.Shows n prev next)
    (hpg' : pg'.Shows n' prev' next') (hlinp : n.linp = u ++ some (.bl old) :: w)
    (hlinp' : n'.linp = u ++ w) (hnb : btdataoff + indxSize + nb ≤ c.psize)
    (hroom : ¬ pg.room c.psize < nb + indxSize) : ¬ pg'.room c.psize < nb + indxSize := by
  obtain ⟨items, hitems⟩ := hn.items
  obtain ⟨items', hitems'⟩ := hn'.items
  rw [room_lt_iff _ hs hpg hitems hn.fits (by rw [hn.type]; decide) hnb, hlinp] at hroom
  rw [room_lt_iff _ hs hpg' hitems' hn'.fits (by rw [hn'.type]; decide) hnb, hlinp']
  simp only [List.length_append, List.length_cons, List.map_append, List.map_cons, List.sum_append,
    List.sum_cons, indxSize] at hroom ⊢
  omega

theorem LeafSlot.bytes_le (hs : Sound c) (h : LeafSlot c cs (some (.bl bl))) :
    btdataoff + indxSize + (Item.bl bl).nbytes ≤ c.psize := by
  have := h.nbytes_le
  have := hs.room
  simp only [indxSize] at *
  omega

theorem Arranged.insertable_replace (h : Arranged c ord t cs fs (A ++ x :: B) ups)
    (hlinp : x.linp = u ++ some (.bl old) :: w)
    (hplaced : PlacedAt ord cs ups A u (some (.bl old) :: w) bl.key true) (hbig : bl.bigkey = false)
    (hslot : LeafSlot c cs (some (.bl bl)))
    (hrefs : (leafRefs (A ++ { x with
      linp := u ++ some (.bl bl) :: some (.bl old) :: w } :: B)).Nodup)
    (hremoves : Removes c t cs fs A x B ups u w old t₂ cs₂ fs₂) :
    Insertable c ord t₂ cs₂ fs₂ A { x with linp := u ++ w } B ups u w bl ∧
      recordPair cs₂ bl = recordPair cs bl := by
  have herased := h.erased hlinp hremoves
  -- the chains of the two records are apart
  have hperm := leafRefs_erase (x := { x with linp := (u ++ [some (.bl bl)]) ++ some (.bl old) :: w })
    (A := A) (B := B) (u := u ++ [some (.bl bl)]) (v := w) rfl
  have hrefs' : (leafRefs (A ++ { x with
      linp := u ++ [some (.bl bl)] ++ some (.bl old) :: w } :: B)).Nodup := by simpa using hrefs
  have hown := (List.nodup_append.1 (hperm.nodup_iff.1 hrefs')).2
  have hapart : ∀ q ∈ slotRefs (some (.bl bl)), q ∉ slotRefs (some (.bl old)) := by
    intro q hq hmem
    refine hown.2 q hmem q ?_ rfl
    simp only [leafRefs, List.mem_flatMap]
    exact ⟨_, List.mem_append_right A (List.mem_cons_self ..), some (.bl bl), by simp, hq⟩
  have hsame := hremoves.keeps.sameLeaf h.tree.rep hremoves.rep hslot hapart
  have hkeys : ∀ l : List (Option Item), l.Sublist (u ++ w) →
      l.filterMap (slotKey cs₂) = l.filterMap (slotKey cs) := fun l hl =>
    List.filterMap_congr fun s hs =>
      (herased.same _ (List.mem_cons_self ..) { x with linp := u ++ w } (by simp) s (hl.subset hs)).key
  refine ⟨?_, Option.some.inj hsame.pair⟩
  exact
    { tree := herased.tree
      others := fun hups n hn => h.filled hups n (by
        simp only [List.mem_append, List.mem_cons] at hn ⊢
        tauto)
      fenced := herased.fenced
      small := herased.small
      plain := herased.plain
      low := herased.low
      linp := rfl
      placed :=
        { brackets := by
            rw [leafFences_congr fun up hup => herased.same up (List.mem_cons_of_mem _ hup)]
            exact hplaced.brackets
          below := by
            rw [hkeys u (List.sublist_append_left u w)]
            exact hplaced.below
          hit := by simp
          miss := fun _ => by
            rw [hkeys w (List.sublist_append_right u w)]
            obtain ⟨s, w', hw, -, habove⟩ := hplaced.hit rfl
            obtain ⟨-, rfl⟩ := List.cons.inj hw
            exact habove }
      key := hbig
      slot := hremoves.keeps.leafSlot hslot hapart
      refs := by simpa using hown.1 }

theorem Sorted.ready_replace (hs : Sound c) (h : Sorted c ord t cs fs (A ++ x :: B) ups)
    (hlinp : x.linp = u ++ some (.bl old) :: w)
    (hplaced : PlacedAt ord cs ups A u (some (.bl old) :: w) bl.key true) (hbig : bl.bigkey = false)
    (hslot : LeafSlot c cs (some (.bl bl)))
    (hrefs : (leafRefs (A ++ { x with
      linp := u ++ some (.bl bl) :: some (.bl old) :: w } :: B)).Nodup)
    (hcached : t.order ≠ .not → t.last.pgno = x.pgno ∧ (t.order = .back → x.pgno ≠ pRoot) ∧
      ∀ pg, t.pages[x.pgno]? = some pg → ¬ pg.room c.psize < (Item.bl bl).nbytes + indxSize)
    (hremoves : Removes c t cs fs A x B ups u w old t₂ cs₂ fs₂) :
    Ready c ord t₂ cs₂ fs₂ A { x with linp := u ++ w } B ups u w bl ∧
      recordPair cs₂ bl = recordPair cs bl := by
  obtain ⟨hinsertable, hpair⟩ := h.arranged.insertable_replace hlinp hplaced hbig hslot hrefs hremoves
  have horder : t₂.order = t.order ∧ t₂.last = t.last := by
    have honly := hremoves.only
    rw [SplitOnly] at honly
    rw [honly]
    exact ⟨rfl, rfl⟩
  refine ⟨{ hinsertable with cached := fun hne => ?_ }, hpair⟩
  rw [horder.1] at hne ⊢
  rw [horder.2]
  obtain ⟨hlast, hroot, hroom⟩ := hcached hne
  obtain ⟨pg, hget, hpg⟩ := Rep.getNode (D := []) h.tree.rep
  obtain ⟨pg', hget', hpg'⟩ := Rep.getNode (D := []) hinsertable.tree.rep
  refine ⟨hlast, hroot, fun pg₂ hget₂ => ?_⟩
  obtain rfl : pg' = pg₂ := Option.some.inj (hget'.symm.trans hget₂)
  exact room_erase hs (h.tree.shape.leaf x (by simp)) (hinsertable.tree.shape.leaf _ (by simp)) hpg
    hpg' hlinp rfl (hslot.bytes_le hs) (hroom pg hget)

theorem Arranged.represents_replace {m : Dbt → Option Dbt} {leaves' : List Node}
    (h : Arranged c ord t cs fs (A ++ x :: B) ups) (hlinp : x.linp = u ++ some (.bl old) :: w)
    (hremoves : Removes c t cs fs A x B ups u w old t₂ cs₂ fs₂)
    (hm : Represents (contents cs (A ++ x :: B)) m) (hold : (recordPair cs old).1 = key)
    (hpair : recordPair cs₂ bl = (key, data))
    (hcontents : contents cs₂ leaves' = contents cs₂ A ++ (u.filterMap (slotPair cs₂) ++
      recordPair cs₂ bl :: w.filterMap (slotPair cs₂)) ++ contents cs₂ B) :
    Represents (contents cs₂ leaves') (Function.update m key (some data)) := by
  have herased := (h.erased hlinp hremoves).same _ (List.mem_cons_self ..)
  have hA : contents cs₂ A = contents cs A := contents_congr fun n hn =>
    herased n (by simp [hn])
  have hB : contents cs₂ B = contents cs B := contents_congr fun n hn =>
    herased n (by simp [hn])
  have hslots : ∀ l : List (Option Item), l.Sublist (u ++ w) →
      l.filterMap (slotPair cs₂) = l.filterMap (slotPair cs) := fun l hl =>
    List.filterMap_congr fun s hs =>
      (herased { x with linp := u ++ w } (by simp) s (hl.subset hs)).pair
  rw [hcontents, hpair, hA, hB, hslots u (List.sublist_append_left u w),
    hslots w (List.sublist_append_right u w)]
  have hkey : recordPair cs old = (key, full cs old.bigdata old.data) := by rw [← hold]; rfl
  rw [contents_split hlinp, hkey] at hm
  simpa using hm.replace data

end

theorem Sorted.divides {overwrite : Bool} {pg : Page} {items : List Item} (hs : Sound c)
    (hnodups : c.nodups = true) (h : Sorted c ord t cs fs (A ++ x :: B) ups)
    (hdepth : ups.length ≤ stackSize)
    (hp : Pending c t ((A ++ x :: B) :: ups) cs fs key data new fs₁ t₁ bl) (hkey : bl.key = key)
    (hbig : bl.bigkey = false) (hdata : bl.data.length = dataOnPage c key data)
    (hwell : SplitsWell c t key data overwrite)
    (hsearch : btSearch c { t₁ with order := .not } bl.key = .ok r)
    (hat : r.2.1 = ⟨x.pgno, u.length⟩) (hover : r.2.2 = true → overwrite = true)
    (hpg : ∀ pg₀, t.pages[x.pgno]? = some pg₀ →
      { pg with dead := none } = { withoutRecord pg₀ u.length r.2.2 with dead := none })
    (hitems : pg.linp = items.map some)
    (hroom : pg.room c.psize < (Item.bl bl).nbytes + indxSize) :
    PageFits c pg items u.length (.bl bl) ∧
      SplitsFit c t.pages r.1.stack .bleaf (pageHalves c pg items u.length (.bl bl)).1
        (pageHalves c pg items u.length (.bl bl)).2 := by
  obtain ⟨r₀, heq₀, hr₀, hstack⟩ := h.search_before hs hnodups hdepth hp (hkey ▸ hsearch)
  obtain ⟨pg₀, hget, -⟩ := Rep.getNode (D := []) h.tree.rep
  have hsame := hpg pg₀ hget
  have hwell₀ := hwell r₀ pg₀ items bl heq₀
  rw [hr₀, hat, hstack] at hwell₀
  generalize withoutRecord pg₀ u.length r.2.2 = pg' at hsame hwell₀
  -- nothing here depends on the record behind an empty index
  have hlinp : pg'.linp = pg.linp := (congrArg Page.linp hsame).symm
  have hroom' : pg'.room c.psize = pg.room c.psize :=
    (congrArg (fun q : Page => q.room c.psize) hsame).symm
  have happends : appends pg' u.length = appends pg u.length :=
    (congrArg (fun q : Page => appends q u.length) hsame).symm
  have hdivide := hwell₀ hover hget (hlinp.trans hitems) hkey hbig hdata (hroom' ▸ hroom)
  simp only [PageFits, pageHalves, happends] at hdivide ⊢
  exact hdivide

theorem Finds.above (h : Rep (plen c) t.pages t.free ⟨leaves :: ups, cs, fs⟩)
    (hp : Pending c t (leaves :: ups) cs fs key data new fs₁ t₁ bl)
    (hfinds : Finds c t₁ (new ++ cs) A x B ups u v bl r) :
    Agree (ups.flatten.map Node.pgno) t.pages r.1.pages := by
  have hpages : r.1.pages = t₁.pages := by
    rcases hfinds.how with ⟨-, hr, -⟩ | ⟨hr, -⟩ <;> rw [hr]
  intro q hq
  rw [hpages, hp.agree h q (by
    rw [List.flatten_cons, List.map_append]
    exact List.mem_append_right _ hq)]

section

variable {m : Dbt → Option Dbt} {overwrite : Bool}

theorem Sorted.putNew (hs : Sound c) (hnodups : c.nodups = true) (hord : Compares c ord)
    (h : Sorted c ord t cs fs (A ++ x :: B) ups) (hdepth : ups.length ≤ stackSize)
    (hm : Represents (contents cs (A ++ x :: B)) m)
    (hp : Pending c t ((A ++ x :: B) :: ups) cs fs key data new fs₁ t₁ bl) (hkey : bl.key = key)
    (hbig : bl.bigkey = false) (hlen : bl.key.length + bl.data.length ≤ c.ovflsize)
    (hdata : bl.data.length = dataOnPage c key data) (hwell : SplitsWell c t key data overwrite)
    (hfinds : Finds c t₁ (new ++ cs) A x B ups u v bl r)
    (hsorted : Sorted c ord r.1 (new ++ cs) fs₁ (A ++ x :: B) ups) (hexact : r.2.2 = false) :
    m key = none ∧ Ensures (· = .nospace) (putAt c r.1 r.2.1 false bl) fun res =>
      res.1 = .success ∧ Holds c ord res.2 (Function.update m key (some data)) := by
  have hready := Sorted.ready hord h.tree.shape hp hlen hbig hfinds hsorted hexact
  have hlinp := hready.linp
  have hold : contents (new ++ cs) (A ++ x :: B) = contents cs (A ++ x :: B) := (h.store hp).2.2.1
  have habsent : key ∉ (contents cs (A ++ x :: B)).map Prod.fst := by
    rw [← hold, ← hkey]
    exact hready.placed.absent hord.total hready.tree.shape hready.fenced hlinp
  refine ⟨hm.eq_none habsent, ?_⟩
  rw [putAt, if_neg (by simp), ok_bind, hfinds.at_]
  refine Ensures.bind (hready.insertLeaf hs hord fun pg items hget hitems hroom => ?_) ?_
  · rcases hfinds.how with ⟨hsearch, hr, hpath⟩ | ⟨hr, -, -, hfull⟩
    · have hpages : r.1.pages[x.pgno]? = t.pages[x.pgno]? := by
        have := hp.agree h.tree.rep x.pgno (by simp)
        rw [hr]
        exact this
      obtain ⟨pg', hget', hpg'⟩ := Rep.getNode (D := []) hready.tree.rep
      obtain rfl : pg = pg' := Option.some.inj (hget.symm.trans hget')
      obtain ⟨hpage, hparents⟩ := h.divides hs hnodups hdepth hp hkey hbig hdata hwell hsearch
        hfinds.at_ (by simp [hexact]) (fun pg₀ hget₀ => by
          rw [← hpages, hget] at hget₀
          rw [withoutRecord, hexact, ← Option.some.inj hget₀]
          rfl) (hpg'.linp.trans hitems) hroom
      exact ⟨hpath, hpage, hparents.congr fun e he =>
        hfinds.above h.tree.rep hp e.pgno (path_mem hpath e he)⟩
    · exact absurd hroom (hfull pg (by rw [hr] at hget; exact hget))
  · rintro t' ⟨fs', leaves', ups', hsorted', hcontents⟩
    refine ⟨rfl, new ++ cs, fs', leaves', ups', hsorted'.frame rfl rfl rfl rfl, ?_⟩
    rw [hcontents, hp.pair]
    have hm' : Represents (contents (new ++ cs) (A ++ x :: B)) m := hold ▸ hm
    have hsplit : contents (new ++ cs) (A ++ x :: B) =
        (contents (new ++ cs) A ++ u.filterMap (slotPair (new ++ cs))) ++
          (v.filterMap (slotPair (new ++ cs)) ++ contents (new ++ cs) B) := by
      simp [hlinp]
    rw [hsplit] at hm' hold
    have := hm'.insert (d := data) (hold ▸ habsent)
    simpa using this

theorem Sorted.putOver (hs : Sound c) (hnodups : c.nodups = true) (hord : Compares c ord)
    (h : Sorted c ord t cs fs (A ++ x :: B) ups) (hdepth : ups.length ≤ stackSize)
    (hm : Represents (contents cs (A ++ x :: B)) m)
    (hp : Pending c t ((A ++ x :: B) :: ups) cs fs key data new fs₁ t₁ bl) (hkey : bl.key = key)
    (hbig : bl.bigkey = false) (hlen : bl.key.length + bl.data.length ≤ c.ovflsize)
    (hdata : bl.data.length = dataOnPage c key data) (hwell : SplitsWell c t key data true)
    (hfinds : Finds c t₁ (new ++ cs) A x B ups u v bl r)
    (hsorted : Sorted c ord r.1 (new ++ cs) fs₁ (A ++ x :: B) ups) (hexact : r.2.2 = true) :
    Ensures (· = .nospace) (putAt c r.1 r.2.1 true bl) fun res =>
      res.1 = .success ∧ Holds c ord res.2 (Function.update m key (some data)) := by
  have hplaced := hfinds.position.place hord (by omega) hsorted.ordered
  rw [hexact] at hplaced
  obtain ⟨old, w, rfl, hold, hkeyold⟩ := hplaced.record hsorted.tree.shape hfinds.position.linp
  have hlinp := hfinds.position.linp
  obtain ⟨t₂, cs₂, fs₂, heq₂, hremoves⟩ := btDleaf_spec (some bl.key) hs.plen_pos hnodups
    hsorted.tree.rep hold (hsorted.tree.shape.refs_apart hlinp).1 hlinp
  have hcached : r.1.order ≠ .not → r.1.last.pgno = x.pgno ∧ (r.1.order = .back → x.pgno ≠ pRoot) ∧
      ∀ pg, r.1.pages[x.pgno]? = some pg → ¬ pg.room c.psize < (Item.bl bl).nbytes + indxSize := by
    intro hne
    rcases hfinds.how with ⟨-, hr, -⟩ | ⟨hr, -, hroot, hroom⟩
    · exact absurd (by rw [hr]) hne
    · rw [hr]
      exact ⟨by rw [hfinds.at_], hroot, hroom⟩
  obtain ⟨hready, hpair⟩ := hsorted.ready_replace hs hlinp hplaced hbig (hp.slot hlen)
    (hp.nodup_refs h.tree.shape hlinp) hcached hremoves
  have hstack : t₂.stack = r.1.stack ∧ t₂.order = r.1.order := by
    have honly := hremoves.only
    rw [SplitOnly] at honly
    rw [honly]
    exact ⟨rfl, rfl⟩
  rw [putAt, if_pos rfl, hfinds.at_, heq₂, ok_bind]
  refine Ensures.bind (Ready.insertLeaf (x := { x with linp := u ++ w }) hs hord hready
    fun pg items hget hitems hroom => ?_) ?_
  · rcases hfinds.how with ⟨hsearch, hr, hpath⟩ | ⟨hr, hnot, -, -⟩
    · have hpages : r.1.pages[x.pgno]? = t.pages[x.pgno]? := by
        have := hp.agree h.tree.rep x.pgno (by simp)
        rw [hr]
        exact this
      obtain ⟨pg₁, hget₁, hpg₁⟩ := Rep.getNode (D := []) hsorted.tree.rep
      have hpg := Option.some.inj (hget.symm.trans (hremoves.page pg₁ hget₁))
      have herase : pg₁.linp.eraseIdx u.length = u ++ w := by
        rw [hpg₁.linp, hlinp, List.eraseIdx_append_of_length_le (Nat.le_refl _)]
        simp
      obtain ⟨hpage, hparents⟩ := h.divides hs hnodups hdepth hp hkey hbig hdata hwell hsearch
        hfinds.at_ (fun _ => rfl) (fun pg₀ hget₀ => by
          rw [← hpages, hget₁] at hget₀
          rw [withoutRecord, hexact, ← Option.some.inj hget₀, hpg, if_pos rfl, herase])
        (by rw [hpg]; exact hitems) hroom
      rw [hstack.1]
      refine ⟨hpath, hpage, hparents.congr fun e he => ?_⟩
      have hmem := path_mem hpath e he
      rw [hremoves.same e.pgno (by simp only [List.mem_append]; exact .inl (.inr hmem))]
      exact hfinds.above h.tree.rep hp e.pgno hmem
    · have hne : t₂.order ≠ .not := by rw [hstack.2, hr]; exact hnot
      exact absurd hroom ((hready.cached hne).2.2 pg hget)
  · rintro t' ⟨fs', leaves', ups', hsorted', hcontents⟩
    refine ⟨rfl, cs₂, fs', leaves', ups', hsorted'.frame rfl rfl rfl rfl, ?_⟩
    exact hsorted.arranged.represents_replace hlinp hremoves ((h.store hp).2.2.1 ▸ hm)
      (by rw [← hkey, ← hkeyold]; rfl) (hpair.trans hp.pair) hcontents

end

end Btree

end Bsdi.Db
