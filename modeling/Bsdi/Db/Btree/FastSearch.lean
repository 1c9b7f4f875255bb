import Bsdi.Db.Btree.Structure

/-!
# The quick check agrees with the search

A key has one place in a tree in order, so a hit of `bt_fast` on a leaf page of the tree is
what `__bt_search` returns for the same key. The page `bt_last` designates leaves the tree
when it is emptied, and then a hit is wrong.
-/

namespace Bsdi.Db

open Bsdi.Lib

namespace Btree

variable {c : Config} {t t₁ t₂ : Btree} {cs : List Chain} {fs : List Pgno}
variable {leaves A A' B B' : List Node} {ups : List (List Node)} {x x' : Node} {key data : Dbt}
variable {bl : BLeaf} {ord : Dbt → Dbt → Int} {dom : Dbt → Prop}

theorem Tree.inTree (h : Tree c t cs fs leaves ups) {D U : List (List Node)} {level : List Node}
    (hlevels : leaves :: ups = D ++ level :: U) {n : Node} (hn : n ∈ level) :
    InTree t.pages n.pgno := by
  have htower := h.shape.tower
  rw [hlevels] at htower
  -- from the root down: the node above leads to this one
  induction U generalizing D level n with
  | nil =>
    obtain ⟨x, rfl, hx⟩ := htower.root_node rfl
    obtain rfl := List.mem_singleton.1 hn
    exact hx ▸ .root
  | cons up U ih =>
    have hkid : some n.pgno ∈ kids Node.linp slotChild pRoot (up :: U) := by
      rw [← htower.suffix.1]
      exact List.mem_map_of_mem hn
    obtain ⟨m, hm, hslot⟩ := List.mem_flatMap.1 hkid
    obtain ⟨s, hs, hchild⟩ := List.mem_map.1 hslot
    have hup : up ∈ ups := by
      cases D with
      | nil => simp [(List.cons.inj hlevels).2]
      | cons L D => simp [(List.cons.inj hlevels).2]
    have hinternal := h.shape.internal up hup m hm
    obtain ⟨bi, rfl, -⟩ := hinternal.slots s hs
    rw [← show bi.pgno = n.pgno from Option.some.inj hchild]
    obtain ⟨A, B, rfl⟩ := List.append_of_mem hm
    have hlevels' : leaves :: ups = (D ++ [level]) ++ (A ++ m :: B) :: U := by simp [hlevels]
    have hrep := h.rep
    rw [hlevels'] at hrep
    obtain ⟨pg, hget, hpg⟩ := hrep.getNode
    refine .child (ih hlevels' hm (hlevels' ▸ h.shape.tower)) hget (hpg.type.trans hinternal.type) ?_
    rw [hpg.linp]
    exact hs

section

variable {u u' v v' : List (Option Item)} {exact exact' : Bool}

theorem PlacedAt.length_le (hord : TotalCmp ord)
    (hslots : ∀ s ∈ u ++ v, ∃ k, slotKey cs s = some k) (happ : u ++ v = u' ++ v')
    (h : PlacedAt ord cs ups A u v key exact) (h' : PlacedAt ord cs ups A' u' v' key exact') :
    u'.length ≤ u.length := by
  by_contra hlt
  -- a record from the place on that is also before it
  obtain ⟨s, w, rfl⟩ : ∃ s w, v = s :: w := by
    cases v with
    | nil =>
      have := congrArg List.length happ
      simp only [List.append_nil, List.length_append] at this
      omega
    | cons s w => exact ⟨s, w, rfl⟩
  obtain ⟨k, hk⟩ := hslots s (by simp)
  have hmem : s ∈ u' := by
    have hpre : u ++ [s] <+: u' ++ v' := ⟨w, by simp [← happ]⟩
    have := List.prefix_of_prefix_length_le hpre (List.prefix_append u' v') (by simp; omega)
    exact this.subset (by simp)
  have hbelow : ord k key < 0 := h'.below k (List.mem_filterMap.2 ⟨s, hmem, hk⟩)
  cases exact with
  | true =>
    obtain ⟨s', w', hcons, hkey, -⟩ := h.hit rfl
    obtain ⟨rfl, -⟩ := List.cons.inj hcons
    obtain rfl := Option.some.inj (hk.symm.trans hkey)
    exact hord.irrefl _ hbelow
  | false =>
    have habove := h.miss rfl k (by simp [hk])
    exact hord.irrefl _ (hord.trans _ _ _ hbelow habove)

theorem PlacedAt.unique (hord : TotalCmp ord)
    (hsorted : (leafFences cs ups).Pairwise fun a b => (Mark.low a).Before ord (.low b))
    (hleaves : A ++ x :: B = A' ++ x' :: B') (hlinp : x.linp = u ++ v) (hlinp' : x'.linp = u' ++ v')
    (hslots : ∀ s ∈ x.linp, ∃ k, slotKey cs s = some k)
    (h : PlacedAt ord cs ups A u v key exact) (h' : PlacedAt ord cs ups A' u' v' key exact') :
    x = x' ∧ u.length = u'.length ∧ exact = exact' := by
  obtain ⟨rfl, htail⟩ := List.append_inj hleaves (h.brackets.unique hord hsorted h'.brackets)
  obtain ⟨rfl, -⟩ := List.cons.inj htail
  rw [hlinp] at hlinp' hslots
  have hlen : u.length = u'.length := Nat.le_antisymm
    (h'.length_le hord (hlinp' ▸ hslots) hlinp'.symm h) (h.length_le hord hslots hlinp' h')
  obtain ⟨rfl, rfl⟩ := List.append_inj hlinp' hlen
  refine ⟨rfl, rfl, ?_⟩
  cases exact <;> cases exact'
  · rfl
  · obtain ⟨s, w, rfl, hkey, -⟩ := h'.hit rfl
    exact absurd (h.miss rfl key (by simp [hkey])) (hord.irrefl _)
  · obtain ⟨s, w, rfl, hkey, -⟩ := h.hit rfl
    exact absurd (h'.miss rfl key (by simp [hkey])) (hord.irrefl _)
  · rfl

end

/-- `bt_fast` has found a leaf page of the tree and the position `__bt_search` finds. -/
def AgreesWithSearch (c : Config) (t : Btree) (key : Dbt) (e : Epgno) (exact : Bool) : Prop :=
  InTree t.pages e.pgno ∧ (∃ h, t.pages[e.pgno]? = some h ∧ h.type = .bleaf) ∧
    ∃ t', btSearch c t key = .ok (t', e, exact)

theorem Position.agrees {u v : List (Option Item)} {exact : Bool} (hs : Sound c)
    (hnodups : c.nodups = true) (hord : Compares c ord) (hdepth : ups.length ≤ stackSize)
    (htree : Tree c t cs fs (A ++ x :: B) ups)
    (hordered : Ordered ord (fun k => k.length ≤ c.ovflsize) cs (A ++ x :: B) ups)
    (hkey : key.length ≤ c.ovflsize) (h : Position c cs A x B ups u v key exact) :
    AgreesWithSearch c t key ⟨x.pgno, u.length⟩ exact := by
  obtain ⟨r, A', x', B', u', v', heq, hloc, hplaced⟩ := btSearch_spec key (t := t) hs.plen_pos
    hnodups htree.shape htree.rep hdepth
  have hslots : ∀ s ∈ x.linp, ∃ k, slotKey cs s = some k := fun s hs =>
    (hordered.slots htree.shape (List.mem_cons_self ..) (by simp : x ∈ A ++ x :: B) s hs).imp
      fun k hk => hk.1
  obtain ⟨rfl, hlen, rfl⟩ := (h.place hord hkey hordered).unique hord.total
    (hordered.sorted_fences (D := []) htree.shape rfl) hloc.leaves_eq h.linp hloc.linp_eq hslots
    (hplaced ord _ hord.total hord.cmp hkey hordered)
  obtain ⟨pg, hget, hpg⟩ := Rep.getNode (D := []) htree.rep
  refine ⟨htree.inTree (D := []) rfl (by simp), ⟨pg, hget, ?_⟩, r.1, ?_⟩
  · exact hpg.type.trans (htree.shape.leaf x (by simp)).type
  · rw [heq, hlen, ← hloc.index, ← hloc.pgno]

/-- While `bt_order` is `BACK`, a page that was emptied does not take the pair: it has no room,
or the key is above the record that was deleted last. -/
def NotStale (c : Config) (t : Btree) (key data : Dbt) : Prop :=
  t.order ≠ .not → ∀ t₁ bl h, storePair c t key data = .ok (t₁, bl) → t₁.order ≠ .forward →
    t₁.pages[t₁.last.pgno]? = some h → h.linp = [] →
    h.room c.psize < (Item.bl bl).nbytes + indxSize ∨ ∃ r, btCmp c t₁ bl.key h 0 = .ok r ∧ 0 < r

theorem NotStale.fresh (h : NotStale c t key data) : Fresh c t key data := by
  intro horder t₁ bl pg hstore hget hempty
  rw [fastHit]
  split_ifs with hroom hforward hedge hedge
  · rfl
  · rfl
  · simp [Page.nextindex, hempty] at hedge
  · rfl
  · simp only [not_or, not_not] at hedge
    obtain ⟨r, hr, hpos⟩ := (h horder t₁ bl pg hstore hforward hget hempty).resolve_left hroom
    rw [hedge.2, hr, ok_bind, if_pos hpos]

theorem Sorted.fast_agrees (hs : Sound c) (hnodups : c.nodups = true) (hord : Compares c ord)
    (h : Sorted c ord t cs fs leaves ups) (hdepth : ups.length ≤ stackSize)
    (hkey : key.length + novflsize ≤ c.ovflsize) (hdata : data.length < u32Mod)
    (hfresh : Fresh c t key data) (horder : t.order ≠ .not) :
    Ensures (· = .nospace) (storePair c t key data) fun s =>
      ∀ t₂ e exact, btFast c s.1 s.2 = .ok (t₂, some (e, exact)) →
        AgreesWithSearch c s.1 s.2.key e exact := by
  have hovfl := hs.room
  have hpsize := hs.psize_le
  have hkey32 : key.length < u32Mod := by simp only [indxMod, u32Mod] at *; omega
  refine (storePair_spec hs h.tree.rep hkey32 hdata).with_eq.mono ?_
  rintro ⟨t₁, bl⟩ ⟨hstore, new, fs₁, hp, hlen, hsmall⟩ t₂ e exact hfast
  dsimp only at hp hlen hsmall hfast ⊢
  obtain ⟨hbig, -⟩ := hsmall hkey
  have hblkey : bl.key = key := by
    have := congrArg Prod.fst hp.pair
    simpa [recordPair, hbig] using this
  obtain ⟨r, A, x, B, u, v, heq, rfl, hfinds, -⟩ := h.located hs hnodups hdepth hp hstore hfresh
  obtain ⟨htree, hordered, -⟩ := h.store hp
  have horder₁ : t₁.order ≠ .not := by
    rw [hp.eq]
    exact horder
  rw [putSearch, if_neg horder₁, hfast, ok_bind] at heq
  obtain rfl := Except.ok.inj heq
  obtain rfl : e = ⟨x.pgno, u.length⟩ := hfinds.at_
  exact hfinds.position.agrees hs hnodups hord hdepth htree hordered (by rw [hblkey]; omega)

/-- The state before a call does not lead to one of the defects of a run: the tree is not deeper
than `bt_stack`, a page that was emptied does not take the pair, and what has to be split
divides well. -/
def Harmless (c : Config) (t : Btree) : Op → Prop
  | .put key data => depth t.pages (stackSize + 1) pRoot ≤ stackSize ∧
    NotStale c t key data ∧ SplitsWell c t key data true
  | .putNew key data => depth t.pages (stackSize + 1) pRoot ≤ stackSize ∧
    NotStale c t key data ∧ SplitsWell c t key data false
  | .get _ => depth t.pages (stackSize + 1) pRoot ≤ stackSize
  | .delete _ => depth t.pages (stackSize + 1) pRoot ≤ stackSize

theorem Harmless.safe {op : Op} (h : Harmless c t op) : Safe c t op := by
  cases op with
  | put key data => exact ⟨h.1, h.2.1.fresh, h.2.2⟩
  | putNew key data => exact ⟨h.1, h.2.1.fresh, h.2.2⟩
  | get key => exact h
  | delete key => exact h

/-- After every run of harmless calls on a new tree, a hit of `bt_fast` for a pair that is not
taken by a page that was emptied agrees with the search. -/
theorem run_fast_agrees (b : Btreeinfo) (blksize maxpages : Nat) (ord : Dbt → Dbt → Int)
    (ops : List Op) (hvalid : b.valid = true) (hdup : b.dup = false) (hmax : maxpages ≤ u32Mod)
    (hspace : indxSize + nbleafdbt 0 0 ≤ pairSpace b blksize)
    (hord : Compares (openConfig b blksize maxpages) ord)
    (hsmall : ∀ op ∈ ops, op.Small (openConfig b blksize maxpages))
    (hharmless : Admitted (step (openConfig b blksize maxpages))
      (Harmless (openConfig b blksize maxpages)) (newTree .bleaf) ops) :
    Ensures (· = .nospace) (run (step (openConfig b blksize maxpages)) (newTree .bleaf) ops)
      fun r => ∀ key data, (Op.put key data).Small (openConfig b blksize maxpages) →
        depth r.2.pages (stackSize + 1) pRoot ≤ stackSize →
        NotStale (openConfig b blksize maxpages) r.2 key data → r.2.order ≠ .not →
        Ensures (· = .nospace) (storePair (openConfig b blksize maxpages) r.2 key data) fun s =>
          ∀ t₂ e exact, btFast (openConfig b blksize maxpages) s.1 s.2 = .ok (t₂, some (e, exact)) →
            AgreesWithSearch (openConfig b blksize maxpages) s.1 s.2.key e exact := by
  have hs := sound_open hvalid hmax hspace
  have hnodups : (openConfig b blksize maxpages).nodups = true := by simp [openConfig, hdup]
  refine (run_invariant (I := fun t => ∃ m, Holds (openConfig b blksize maxpages) ord t m)
    (fun t op hinv hok => ?_) ⟨_, holds_new hs⟩ (hharmless.and hsmall)).mono ?_
  · obtain ⟨m, hholds⟩ := hinv
    exact (step_spec hs hnodups rfl hord hholds hok.1.safe hok.2).mono fun r hr => ⟨_, hr.2⟩
  · rintro r ⟨m, cs, fs, leaves, ups, hsorted, -⟩ key data hkey hdepth hstale horder
    exact hsorted.fast_agrees hs hnodups hord (hsorted.depth_le hdepth) hkey.1 hkey.2 hstale.fresh
      horder

theorem run_fast_agrees_behind :
    ∃ r, run (step (openConfig ⟨false, 512, 2, none, none⟩ 8192 1000)) (newTree .bleaf)
        [.put [1] [2]] = .ok r ∧
      AgreesWithSearch (openConfig ⟨false, 512, 2, none, none⟩ 8192 1000) r.2 [3] ⟨1, 1⟩ false := by
  have hspace : indxSize + nbleafdbt 0 0 ≤ pairSpace ⟨false, 512, 2, none, none⟩ 8192 := by decide
  have hrun := run_fast_agrees ⟨false, 512, 2, none, none⟩ 8192 1000 lexCmp [.put [1] [2]]
    (by decide) rfl (by decide) hspace (compares_default (by decide) (by decide) hspace rfl rfl)
    (by decide) ⟨⟨by decide, fun hne => absurd rfl hne, ?_⟩, fun _ _ _ => trivial⟩
  · refine ⟨_, rfl, hrun [3] [4] (by decide) (by decide) ?_ (by decide) _ _ _ rfl⟩
    intro _ t₁ bl h hstore hforward
    obtain ⟨rfl, rfl⟩ := Prod.mk.inj (Except.ok.inj hstore)
    exact absurd rfl hforward
  · intro r h items bl heq _ hget _ hkey _ hdata hroom
    obtain rfl := Except.ok.inj heq
    obtain rfl := Option.some.inj hget
    have hbytes : (Item.bl bl).nbytes = lalign (4 + 4 + 1 + bl.key.length + bl.data.length) := rfl
    rw [hbytes, hkey, hdata] at hroom
    exact absurd hroom (by decide)

/-- The positions `bt_fast` and `__bt_search` find for a pair. -/
def fastAndSearch (c : Config) (t : Btree) (key data : Dbt) : Option (Epgno × Epgno) :=
  match storePair c t key data with
  | .ok s =>
    match btFast c s.1 s.2, btSearch c s.1 s.2.key with
    | .ok (_, some (e, _)), .ok (_, e', _) => some (e, e')
    | _, _ => none
  | .error _ => none

/-- The first page is emptied while `bt_last` designates it. -/
def emptyOps : List Op :=
  let data : Dbt := List.replicate 200 7
  [.put [2] data, .put [3] data, .put [4] data, .delete [3], .put [1] data, .delete [1],
    .delete [2]]

theorem fastAndSearch_eq {e e' : Epgno} (h : fastAndSearch c t key data = some (e, e')) :
    ∃ s t₂ exact t' exact', storePair c t key data = .ok s ∧
      btFast c s.1 s.2 = .ok (t₂, some (e, exact)) ∧ btSearch c s.1 s.2.key = .ok (t', e', exact') := by
  unfold fastAndSearch at h
  split at h
  · rename_i s hs
    split at h
    · rename_i t₂ e₁ exact t' e₂ exact' hfast hsearch
      obtain ⟨rfl, rfl⟩ := Prod.mk.inj (Option.some.inj h)
      exact ⟨s, t₂, exact, t', exact', hs, hfast, hsearch⟩
    · cases h
  · cases h

/-- The depth of the tree after a run, `bt_order` and the two positions for a pair. -/
def afterRun (c : Config) (res : Except Fault (List Reply × Btree)) (key data : Dbt) :
    Option (Nat × SortOrder × Option (Epgno × Epgno)) :=
  match res with
  | .ok r => some (depth r.2.pages (stackSize + 1) pRoot, r.2.order, fastAndSearch c r.2 key data)
  | .error _ => none

/-- Without the condition on the calls a hit is on a page that has left the tree. -/
theorem run_fast_disagrees :
    ¬ ∀ (b : Btreeinfo) (blksize maxpages : Nat) (ord : Dbt → Dbt → Int) (ops : List Op),
      b.valid = true → b.dup = false → maxpages ≤ u32Mod →
      indxSize + nbleafdbt 0 0 ≤ pairSpace b blksize →
      Compares (openConfig b blksize maxpages) ord →
      (∀ op ∈ ops, op.Small (openConfig b blksize maxpages)) →
      Ensures (· = .nospace) (run (step (openConfig b blksize maxpages)) (newTree .bleaf) ops)
        fun r => ∀ key data, (Op.put key data).Small (openConfig b blksize maxpages) →
          depth r.2.pages (stackSize + 1) pRoot ≤ stackSize → r.2.order ≠ .not →
          Ensures (· = .nospace) (storePair (openConfig b blksize maxpages) r.2 key data) fun s =>
            ∀ t₂ e exact,
              btFast (openConfig b blksize maxpages) s.1 s.2 = .ok (t₂, some (e, exact)) →
              AgreesWithSearch (openConfig b blksize maxpages) s.1 s.2.key e exact := by
  intro hclaim
  have hspace : indxSize + nbleafdbt 0 0 ≤ pairSpace ⟨false, 512, 2, none, none⟩ 8192 := by decide
  have hcompares : Compares (openConfig ⟨false, 512, 2, none, none⟩ 8192 1000) lexCmp :=
    compares_default (by decide) (by decide) hspace rfl rfl
  have hsmall : ∀ op ∈ emptyOps, op.Small (openConfig ⟨false, 512, 2, none, none⟩ 8192 1000) := by
    decide +kernel
  have hafter : afterRun (openConfig ⟨false, 512, 2, none, none⟩ 8192 1000)
      (run (step (openConfig ⟨false, 512, 2, none, none⟩ 8192 1000)) (newTree .bleaf) emptyOps)
      [0] [7] = some (1, .back, some (⟨2, 0⟩, ⟨3, 0⟩)) := by decide +kernel
  generalize emptyOps = ops at hsmall hafter
  have hrun := hclaim ⟨false, 512, 2, none, none⟩ 8192 1000 lexCmp ops (by decide) rfl (by decide)
    hspace hcompares hsmall
  have hkey : (Op.put [0] [7]).Small (openConfig ⟨false, 512, 2, none, none⟩ 8192 1000) := by decide
  generalize openConfig ⟨false, 512, 2, none, none⟩ 8192 1000 = c at hrun hafter hkey
  generalize run (step c) (newTree .bleaf) ops = res at hrun hafter
  cases res with
  | error e => simp [afterRun] at hafter
  | ok r =>
    simp only [afterRun, Option.some.injEq, Prod.mk.injEq] at hafter
    obtain ⟨hdepth, horder, hboth⟩ := hafter
    obtain ⟨s, t₂, exact, t', exact', hstore, hfast, hsearch⟩ := fastAndSearch_eq hboth
    obtain ⟨-, -, t'', hagrees⟩ := (hrun [0] [7] hkey (by rw [hdepth]; decide)
      (by rw [horder]; decide)).post hstore t₂ ⟨2, 0⟩ exact hfast
    rw [hsearch] at hagrees
    simp at hagrees

end Btree

end Bsdi.Db
