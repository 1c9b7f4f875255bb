import Bsdi.Db.Btree.Division

/-!
# Splitting a page of the tree

What `bt_page`, `bt_root`, `bt_broot` and the store into the open slot do to the view of
a pool.
-/

namespace Bsdi.Db

open Bsdi.Lib

namespace Btree

variable {c : Config} {t : Btree} {cs : List Chain} {fs : List Pgno}
variable {D U : List (List Node)} {A B : List Node} {x : Node} {size : Nat}

def SplitOnly (t t' : Btree) : Prop :=
  t' = { t with pages := t'.pages, free := t'.free, cursor := t'.cursor }

theorem SplitOnly.trans {t' t'' : Btree} (h : SplitOnly t t') (h' : SplitOnly t' t'') :
    SplitOnly t t'' := by
  rw [SplitOnly] at h h' ⊢
  rw [h', h]

theorem Allocated.splitOnly {v : View} {p : Pgno} {t' : Btree} (h : Allocated size c t v fs p t') :
    SplitOnly t t' := by
  rw [SplitOnly, h.eq]

theorem lower_add_used {h : Page} {n : Node} {prev next : Pgno} (hpg : h.Shows n prev next) :
    h.lower + h.used = btdataoff + indxSize * n.linp.length + (n.linp.map slotBytes).sum := by
  rw [Page.lower, Page.used, hpg.linp]
  rfl

theorem storeItem_spec (skip : Nat) (item : Item)
    (hrep : Rep size t.pages t.free ⟨D ++ (A ++ x :: B) :: U, cs, fs⟩)
    (hskip : skip < x.linp.length) (hfits : Fits c (x.linp.set skip (some item))) :
    ∃ ps', storeItem c t x.pgno skip item = .ok { t with pages := ps' } ∧
      Rep size ps' t.free
        ⟨D ++ (A ++ { x with linp := x.linp.set skip (some item) } :: B) :: U, cs, fs⟩ ∧
      ps'.length = t.pages.length ∧ ∀ q, q ≠ x.pgno → ps'[q]? = t.pages[q]? := by
  obtain ⟨pg, hget, hpg⟩ := hrep.getNode
  have hpg' : ({ pg with linp := pg.linp.set skip (some item) } : Page).Shows
      { x with linp := x.linp.set skip (some item) } (lastKey Node.pgno pInvalid A)
      (headKey Node.pgno pInvalid B) :=
    { hpg with linp := by rw [← hpg.linp] }
  have hsum := lower_add_used hpg'
  refine ⟨t.pages.set x.pgno { pg with linp := pg.linp.set skip (some item) }, ?_,
    hrep.setNode _ rfl hpg', by simp, fun q hq => List.getElem?_set_ne hq.symm⟩
  have hcheck : skip < pg.nextindex ∧
      ({ pg with linp := pg.linp.set skip (some item) } : Page).lower +
        ({ pg with linp := pg.linp.set skip (some item) } : Page).used ≤ c.psize := by
    refine ⟨by rw [Page.nextindex, hpg.linp]; exact hskip, ?_⟩
    rw [hsum]
    exact hfits
  simp [storeItem, mpoolGet, hget, hcheck, setPage]

/-- The result of splitting a page that is not the root: the indices `L` and `R` of the
halves, with a slot open on one of them. -/
structure PageSplit (c : Config) (x : Node) (B : List Node) (items : List Item) (skip ilen : Nat)
    (s : Halves) (L R : List (Option Item)) : Prop where
  left : s.left = x.pgno
  halves : B = [] ∧ skip = items.length ∧ L = x.linp ∧ R = [none] ∧ s.target = s.right ∧
      s.skip = 0 ∨
    L = (btPsplit c items skip ilen).left ∧ R = (btPsplit c items skip ilen).right ∧
      s.target = (if (btPsplit c items skip ilen).onLeft then s.left else s.right) ∧
      s.skip = (btPsplit c items skip ilen).skip ∧ ¬ (B = [] ∧ skip = items.length)

theorem headKey_eq_zero (hrep : Rep size t.pages t.free ⟨D ++ (A ++ x :: B) :: U, cs, fs⟩) :
    headKey Node.pgno pInvalid B = pInvalid ↔ B = [] := by
  cases B with
  | nil => simp
  | cons b B =>
    have := (Rep.nonzero_node (A := A ++ [x]) (x := b) (B := B) (by simpa using hrep)).1
    simpa using this

theorem items_of_map {pg : Page} {items : List Item} (h : pg.linp = items.map some) :
    pg.items = .ok items := by
  have hall : pg.linp.all Option.isSome = true := by simp [h]
  rw [Page.items, if_pos hall, h, List.reduceOption]
  simp [List.filterMap_map]

theorem Rep.apart (hrep : Rep size t.pages t.free ⟨D ++ (A ++ x :: B) :: U, cs, fs⟩) :
    ∀ p ∈ A.map Node.pgno ++ View.pgnos ⟨D ++ U, cs, fs⟩,
      p ∈ View.pgnos ⟨D ++ (A ++ x :: B) :: U, cs, fs⟩ ∧ x.pgno ≠ p ∧ p ∉ B.map Node.pgno := by
  obtain ⟨hnodup, -, hlevel⟩ := hrep.nodup_level
  rw [List.map_append, List.map_cons] at hnodup hlevel
  have hapart := (List.nodup_append.1 hnodup).2.2
  intro p hp
  rcases List.mem_append.1 hp with hp | hp
  · refine ⟨pgnos_level.mem_iff.2 (by simp [hp]), ?_, ?_⟩
    · rintro rfl
      exact hapart _ hp x.pgno (by simp) rfl
    · exact fun hmem => hapart p hp p (by simp [hmem]) rfl
  · refine ⟨pgnos_level.mem_iff.2 (by simp [hp]), ?_, ?_⟩
    · rintro rfl
      exact hlevel x.pgno (by simp) hp
    · exact fun hmem => hlevel p (by simp [hmem]) hp

theorem btPage_spec {items : List Item} (skip ilen : Nat) (hpages : c.maxpages ≤ u32Mod)
    (hrep : Rep size t.pages t.free ⟨D ++ (A ++ x :: B) :: U, cs, fs⟩)
    (hitems : x.linp = items.map some) :
    Ensures (· = .nospace) (btPage c t x.pgno skip ilen) fun r => ∃ L R fs', fs' <:+ fs ∧
      PageSplit c x B items skip ilen r.2 L R ∧ SplitOnly t r.1 ∧
      Agree (U.flatten.map Node.pgno) t.pages r.1.pages ∧
      Rep size r.1.pages r.1.free ⟨D ++ (A ++ { x with linp := L } ::
        { x with pgno := r.2.right, linp := R } :: B) :: U, cs, fs'⟩ := by
  rw [btPage]
  refine (btNew_spec hpages hrep).bind ?_
  rintro ⟨npg, t₁⟩ ⟨fs', ha⟩
  have hrep₁ := ha.rep
  dsimp only at ha hrep₁ ⊢
  obtain ⟨pg, hget, hpg⟩ := hrep₁.getNode
  have hlt : x.pgno < t₁.pages.length := (List.getElem?_eq_some_iff.1 hget).1
  have hnot : ∀ p ∈ View.pgnos ⟨D ++ (A ++ x :: B) :: U, cs, fs'⟩, npg ≠ p := by
    rintro p hp rfl
    exact ha.notMem hp
  have hne : npg ≠ x.pgno := hnot _ (pgnos_node.mem_iff.2 (by simp))
  have hother := hrep₁.apart
  have hnotB : npg ∉ B.map Node.pgno := fun hmem =>
    hnot npg (pgnos_level.mem_iff.2 (List.mem_append_left _ (by simp at hmem ⊢; tauto))) rfl
  obtain ⟨-, -, hB⟩ := linked_append_cons.1 (hrep₁.linked (A ++ x :: B) (by simp))
  obtain ⟨hnodup, hnonzero, -⟩ := hrep₁.nodup_level
  rw [List.map_append, List.map_cons] at hnodup hnonzero
  have hnodupB := List.nodup_cons.1 (List.nodup_append.1 hnodup).2.1
  have hupper : ∀ p ∈ U.flatten.map Node.pgno, npg ≠ p ∧ x.pgno ≠ p ∧ p ∉ B.map Node.pgno ∧
      t₁.pages[p]? = t.pages[p]? := by
    intro p hp
    have hmem : p ∈ A.map Node.pgno ++ View.pgnos ⟨D ++ U, cs, fs'⟩ := by
      simp only [View.pgnos, List.flatten_append, List.map_append, List.mem_append]
      tauto
    obtain ⟨hv, hx, hpB⟩ := hother p hmem
    refine ⟨hnot p hv, hx, hpB, ha.same p (hrep.lt_length p ?_)⟩
    exact mem_pgnos_mono (v := ⟨D ++ (A ++ x :: B) :: U, cs, fs⟩) ha.suffix.subset hv
  simp only [mpoolGet, hget, ok_bind, Page.nextindex, hpg.linp, hpg.nextpg, hpg.pgno,
    headKey_eq_zero hrep₁, hitems, List.length_map]
  split_ifs with happend
  · -- an empty page at the end of the level
    obtain ⟨rfl, hskip⟩ := happend
    refine ⟨x.linp, [none], fs', ha.suffix, ⟨rfl, .inl ⟨rfl, hskip, rfl, rfl, rfl, rfl⟩⟩,
      ha.splitOnly.trans rfl, fun p hp => ?_, ?_⟩
    · obtain ⟨hpn, hpx, -, hsame⟩ := hupper p hp
      rw [setPage, setPage, List.getElem?_set_ne hpx, List.getElem?_set_ne hpn, hsame]
    refine hrep₁.insertRight x (y := { x with pgno := npg, linp := [none] }) rfl ha.notMem
      ha.ne (fun p hp => ?_) (by simp [setPage]) ?_ ?_ trivial
    · obtain ⟨hmem, hx, -⟩ := hother p hp
      rw [setPage, setPage, List.getElem?_set_ne hx, List.getElem?_set_ne (hnot p hmem)]
    · exact ⟨_, List.getElem?_set_self (by simpa [setPage] using hlt),
        ⟨rfl, hpg.prevpg, rfl, hpg.type, hitems.symm⟩⟩
    · exact ⟨_, (List.getElem?_set_ne hne.symm).trans (List.getElem?_set_self ha.lt),
        ⟨rfl, rfl, rfl, hpg.type, rfl⟩⟩
  · rw [items_of_map (hpg.linp.trans hitems), ok_bind]
    have hB₂ : Linked Node.pgno (Shows (t₁.pages.set npg
        { pgno := npg, prevpg := x.pgno, nextpg := headKey Node.pgno pInvalid B, type := pg.type,
          preserve := false, linp := (btPsplit c items skip ilen).right, dead := none,
          bytes := [] })) x.pgno B pInvalid := linked_frame hB (agree_set hnotB)
    obtain ⟨ps₃, heq, hB₃, hlen₃, hsame₃⟩ := relinkSide_next (t := t₁.setPage npg _) npg hB₂ hnodupB.2
      (fun hmem => hnonzero (by simp [hmem]))
    rw [heq, ok_bind]
    refine ⟨(btPsplit c items skip ilen).left, (btPsplit c items skip ilen).right, fs', ha.suffix,
      ⟨rfl, .inr ⟨rfl, rfl, rfl, rfl, happend⟩⟩, ha.splitOnly.trans rfl, fun p hp => ?_, ?_⟩
    · obtain ⟨hpn, hpx, hpB, hsame⟩ := hupper p hp
      rw [setPage, List.getElem?_set_ne hpx, hsame₃ p hpB, setPage, List.getElem?_set_ne hpn, hsame]
    refine hrep₁.insertRight { x with linp := (btPsplit c items skip ilen).left }
      (y := { x with pgno := npg, linp := (btPsplit c items skip ilen).right }) rfl ha.notMem
      ha.ne (fun p hp => ?_) (by simp [hlen₃, setPage]) ?_ ?_ ?_
    · obtain ⟨hmem, hx, hpB⟩ := hother p hp
      rw [setPage, List.getElem?_set_ne hx, hsame₃ p hpB, setPage, List.getElem?_set_ne (hnot p hmem)]
    · exact ⟨_, List.getElem?_set_self (by simpa [hlen₃, setPage] using hlt),
        ⟨rfl, hpg.prevpg, rfl, hpg.type, rfl⟩⟩
    · exact ⟨_, (List.getElem?_set_ne hne.symm).trans ((hsame₃ npg hnotB).trans
        (List.getElem?_set_self ha.lt)), ⟨rfl, rfl, rfl, hpg.type, rfl⟩⟩
    · exact linked_frame hB₃ (agree_set hnodupB.1)

theorem btRoot_spec {items : List Item} (skip ilen : Nat) (hpages : c.maxpages ≤ u32Mod)
    (hrep : Rep size t.pages t.free ⟨D ++ [[x]], cs, fs⟩) (hitems : x.linp = items.map some) :
    Ensures (· = .nospace) (btRoot c t x.pgno skip ilen) fun r => ∃ fs', fs' <:+ fs ∧
      SplitOnly t r.1 ∧ r.1.pages[x.pgno]? = t.pages[x.pgno]? ∧
      r.2.target = (if (btPsplit c items skip ilen).onLeft then r.2.left else r.2.right) ∧
      r.2.skip = (btPsplit c items skip ilen).skip ∧
      Rep size r.1.pages r.1.free ⟨D ++ [[{ x with
        pgno := r.2.left, linp := (btPsplit c items skip ilen).left }, { x with
        pgno := r.2.right, linp := (btPsplit c items skip ilen).right }]], cs, fs'⟩ ∧
      x.pgno ∉ View.pgnos ⟨D ++ [[{ x with
        pgno := r.2.left, linp := (btPsplit c items skip ilen).left }, { x with
        pgno := r.2.right, linp := (btPsplit c items skip ilen).right }]], cs, fs'⟩ := by
  rw [btRoot]
  refine (btNew_spec hpages hrep).bind ?_
  rintro ⟨l, t₁⟩ ⟨fs₁, ha₁⟩
  have hrep₁ := ha₁.rep
  dsimp only at ha₁ hrep₁ ⊢
  refine (btNew_spec hpages hrep₁).bind ?_
  rintro ⟨r, t₂⟩ ⟨fs₂, ha₂⟩
  have hrep₂ := ha₂.rep
  dsimp only at ha₂ hrep₂ ⊢
  obtain ⟨pg, hget, hpg⟩ := Rep.getNode (A := []) (B := []) hrep₂
  simp only [mpoolGet, hget, ok_bind, items_of_map (hpg.linp.trans hitems)]
  have hxmem : x.pgno ∈ View.pgnos ⟨D ++ [[x]], cs, fs₂⟩ := by simp [View.pgnos]
  have hlnot : l ∉ View.pgnos ⟨D ++ [[x]], cs, fs₂⟩ := fun hmem =>
    ha₁.notMem (mem_pgnos_mono (v := ⟨D ++ [[x]], cs, fs⟩) ha₂.suffix.subset hmem)
  have hlr : l ≠ r := by
    rintro rfl
    rcases ha₂.taken with htaken | ⟨-, heq⟩
    · exact ha₁.notMem (by dsimp only at htaken; simp [View.pgnos, htaken])
    · exact absurd ha₁.lt (heq ▸ Nat.lt_irrefl _)
  have hxl : l ≠ x.pgno := fun heq => hlnot (heq ▸ hxmem)
  have hxr : r ≠ x.pgno := fun heq => ha₂.notMem (heq ▸ hxmem)
  have hothers : ∀ p ∈ View.pgnos ⟨D ++ [], cs, fs₂⟩,
      p ≠ l ∧ p ≠ r ∧ p ≠ x.pgno ∧ p ≠ pInvalid := by
    intro p hp
    have hmem : p ∈ View.pgnos ⟨D ++ [[x]], cs, fs₂⟩ :=
      (pgnos_level (U := [])).mem_iff.2 (List.mem_append_right _ hp)
    refine ⟨fun heq => hlnot (heq ▸ hmem), fun heq => ha₂.notMem (heq ▸ hmem), ?_,
      fun heq => hrep₂.nonzero (heq ▸ hmem)⟩
    rintro rfl
    exact (Rep.nodup_level (U := []) hrep₂).2.2 _ (by simp) hp
  have hl₂ : l < t₂.pages.length := Nat.lt_of_lt_of_le ha₁.lt ha₂.le
  refine ⟨fs₂, ha₂.suffix.trans ha₁.suffix, (ha₁.splitOnly.trans ha₂.splitOnly).trans rfl, ?_, rfl,
    rfl, ?_, ?_⟩
  · have hx := hrep.lt_length x.pgno (by simp [View.pgnos])
    simp only [setPage]
    rw [List.getElem?_set_ne hxr, List.getElem?_set_ne hxl,
      ha₂.same _ (Nat.lt_of_lt_of_le hx ha₁.le), ha₁.same _ hx]
  · refine Rep.setLevel (U := []) hrep₂ (fun p hp => ?_) (by simp [setPage]) ⟨?_, ?_, trivial⟩ ?_ ?_
    · obtain ⟨hpl, hpr, -, -⟩ := hothers p hp
      simp only [setPage]
      rw [List.getElem?_set_ne hpr.symm, List.getElem?_set_ne hpl.symm]
    · exact ⟨_, (List.getElem?_set_ne hlr.symm).trans (List.getElem?_set_self hl₂),
        ⟨rfl, rfl, rfl, hpg.type, rfl⟩⟩
    · exact ⟨_, List.getElem?_set_self (by simpa [setPage] using ha₂.lt),
        ⟨rfl, rfl, rfl, hpg.type, rfl⟩⟩
    · refine pgnos_level.nodup_iff.2 (List.nodup_append.2 ⟨by simpa using hlr, ?_, ?_⟩)
      · exact (List.nodup_append.1 ((pgnos_level (U := [])).nodup_iff.1 hrep₂.nodup)).2.1
      · intro p hp q hq heq
        obtain ⟨hql, hqr, -, -⟩ := hothers q hq
        simp only [List.map_cons, List.map_nil, List.mem_cons, List.not_mem_nil, or_false] at hp
        rcases hp with rfl | rfl
        · exact hql heq.symm
        · exact hqr heq.symm
    · rw [pgnos_level.mem_iff, List.mem_append, not_or]
      refine ⟨?_, fun hmem => (hothers _ hmem).2.2.2 rfl⟩
      simpa using ⟨ha₁.ne.symm, ha₂.ne.symm⟩
  · rw [pgnos_level.mem_iff, List.mem_append, not_or]
    refine ⟨?_, fun hmem => (hothers _ hmem).2.2.1 rfl⟩
    simpa using ⟨hxl.symm, hxr.symm⟩

theorem Rep.addRoot {ps : List Page} {free : Pgno} {levels : List (List Node)} {h : Page}
    (hrep : Rep size ps free ⟨levels, cs, fs⟩) (hx : x.pgno ∉ View.pgnos ⟨levels, cs, fs⟩)
    (hne : x.pgno ≠ pInvalid) (hlt : x.pgno < ps.length) (hpg : h.Shows x pInvalid pInvalid) :
    Rep size (ps.set x.pgno h) free ⟨levels ++ [[x]], cs, fs⟩ := by
  have hframe := hrep.frame (agree_set (h := h) hx) (by simp)
  have hperm : (View.pgnos ⟨levels ++ [[x]], cs, fs⟩).Perm
      (x.pgno :: View.pgnos ⟨levels, cs, fs⟩) := by
    simpa using pgnos_level (D := levels) (L := [x]) (U := [])
  exact
    { linked := fun level hlevel => by
        rcases List.mem_append.1 hlevel with hlevel | hlevel
        · exact hframe.linked level hlevel
        · obtain rfl : level = [x] := by simpa using hlevel
          exact ⟨⟨h, List.getElem?_set_self hlt, hpg⟩, trivial⟩
      chains := hframe.chains
      free := hframe.free
      nodup := hperm.nodup_iff.2 (List.nodup_cons.2 ⟨hx, hrep.nodup⟩)
      nonzero := by
        rw [hperm.mem_iff, List.mem_cons, not_or]
        exact ⟨hne.symm, hrep.nonzero⟩
      pos := hframe.pos
      max := hframe.max }

/-- The chains after `bt_preserve` of the one that starts at page `pg`. -/
def preserveChain (cs : List Chain) (pg : Pgno) : List Chain :=
  cs.map fun ch => if ch.pgnos.head? = some pg then { ch with preserve := true } else ch

@[simp] theorem full_preserveChain (pg : Pgno) (big : Bool) (raw : Dbt) :
    full (preserveChain cs pg) big raw = full cs big raw := by
  have hpgnos : ∀ ch : Chain, (if ch.pgnos.head? = some pg then { ch with preserve := true }
      else ch).pgnos = ch.pgnos := fun ch => by split <;> rfl
  have hbytes : ∀ ch : Chain, (if ch.pgnos.head? = some pg then { ch with preserve := true }
      else ch).bytes = ch.bytes := fun ch => by split <;> rfl
  simp [full, preserveChain, List.find?_map, Function.comp_def, hpgnos, hbytes]

@[simp] theorem slotKey_preserveChain (pg : Pgno) : slotKey (preserveChain cs pg) = slotKey cs := by
  funext slot
  cases slot with
  | none => rfl
  | some item => cases item <;> simp [slotKey, itemKey]

@[simp] theorem pgnos_preserveChain (pg : Pgno) :
    (preserveChain cs pg).flatMap Chain.pgnos = cs.flatMap Chain.pgnos := by
  simp only [preserveChain, List.flatMap_map]
  congr 1
  funext ch
  split <;> rfl

theorem hasRef_preserveChain {P Q : Bool → Prop} {raw : Dbt} {pg : Pgno} (h : HasRef cs P raw)
    (himp : ∀ b, P b → Q (if ofLe32 raw = pg then true else b)) :
    HasRef (preserveChain cs pg) Q raw := by
  obtain ⟨ch, hch, hhead, hlen, hP⟩ := h
  refine ⟨_, List.mem_map_of_mem hch, ?_, ?_, ?_⟩
  · split <;> exact hhead
  · split <;> exact hlen
  · have := himp _ hP
    simp only [hhead, Option.some.injEq]
    split <;> simp_all

theorem ChainAt.congr {ps ps' : List Page} {pgs : List Pgno} {bytes : Dbt}
    (h : ChainAt size ps pgs bytes)
    (hsame : ∀ q ∈ pgs, ∀ pg, ps[q]? = some pg → ∃ pg', ps'[q]? = some pg' ∧
      pg'.pgno = pg.pgno ∧ pg'.type = pg.type ∧ pg'.bytes = pg.bytes ∧ pg'.nextpg = pg.nextpg) :
    ChainAt size ps' pgs bytes := by
  induction pgs generalizing bytes with
  | nil => exact h
  | cons p rest ih =>
    cases rest with
    | nil =>
      obtain ⟨hle, pg, hget, hpgno, htype, hbytes⟩ := h
      obtain ⟨pg', hget', hpgno', htype', hbytes', -⟩ := hsame p (by simp) pg hget
      exact ⟨hle, pg', hget', hpgno'.trans hpgno, htype'.trans htype, hbytes'.trans hbytes⟩
    | cons q rest =>
      obtain ⟨hlt, ⟨pg, hget, hpgno, htype, hbytes, hnext⟩, hrest⟩ := h
      obtain ⟨pg', hget', hpgno', htype', hbytes', hnext'⟩ := hsame p (by simp) pg hget
      exact ⟨hlt, ⟨pg', hget', hpgno'.trans hpgno, htype'.trans htype, hbytes'.trans hbytes,
        hnext'.trans hnext⟩, ih hrest fun q' hq' => hsame q' (List.mem_cons_of_mem p hq')⟩

theorem btPreserve_spec {levels : List (List Node)} {P : Bool → Prop} {raw : Dbt}
    (hrep : Rep size t.pages t.free ⟨levels, cs, fs⟩) (href : HasRef cs P raw) :
    ∃ ps', btPreserve t (ofLe32 raw) = .ok { t with pages := ps' } ∧
      Rep size ps' t.free ⟨levels, preserveChain cs (ofLe32 raw), fs⟩ ∧
      ps'.length = t.pages.length ∧ ∀ q, q ∉ cs.flatMap Chain.pgnos → ps'[q]? = t.pages[q]? := by
  obtain ⟨ch, hch, hhead, -, -⟩ := href
  have hmem := List.mem_of_mem_head? hhead
  have hlt := (hrep.chains ch hch).1.lt_length _ hmem
  have hget : t.pages[ofLe32 raw]? = some t.pages[ofLe32 raw] := List.getElem?_eq_getElem hlt
  obtain ⟨C₁, C₂, hcs⟩ := List.append_of_mem hch
  have hnodup := hrep.nodup
  rw [hcs] at hnodup
  have hapart := (List.nodup_append.1 ((pgnos_chain _ _ _ _ _).nodup_iff.1 hnodup)).2.2
  have hnot : ofLe32 raw ∉ levels.flatten.map Node.pgno ++ fs := fun hp =>
    hapart _ hmem (ofLe32 raw) (by
      simp only [View.pgnos, List.mem_append] at hp ⊢
      tauto) rfl
  have hpgnos : View.pgnos ⟨levels, preserveChain cs (ofLe32 raw), fs⟩ =
      View.pgnos ⟨levels, cs, fs⟩ := by
    simp [View.pgnos]
  refine ⟨t.pages.set (ofLe32 raw) { t.pages[ofLe32 raw] with preserve := true },
    by simp [btPreserve, mpoolGet, hget, setPage], ?_, by simp, fun q hq => ?_⟩
  swap
  · refine List.getElem?_set_ne ?_
    rintro rfl
    exact hq (List.mem_flatMap.2 ⟨ch, hch, hmem⟩)
  have hsame : ∀ (q : Pgno) (pg : Page), t.pages[q]? = some pg →
      ∃ pg' : Page, (t.pages.set (ofLe32 raw) { t.pages[ofLe32 raw] with preserve := true })[q]? = some pg' ∧
        pg'.pgno = pg.pgno ∧ pg'.type = pg.type ∧ pg'.bytes = pg.bytes ∧ pg'.nextpg = pg.nextpg := by
    intro q pg hq
    by_cases heq : q = ofLe32 raw
    · subst heq
      obtain rfl := Option.some.inj (hget.symm.trans hq)
      exact ⟨_, List.getElem?_set_self hlt, rfl, rfl, rfl, rfl⟩
    · exact ⟨pg, by rw [List.getElem?_set_ne fun h => heq h.symm, hq], rfl, rfl, rfl, rfl⟩
  exact
    { linked := fun level hlevel => linked_frame (hrep.linked level hlevel) (agree_set fun hp => by
        obtain ⟨n, hn, heq⟩ := List.mem_map.1 hp
        refine hnot (List.mem_append_left _ ?_)
        rw [← heq]
        exact List.mem_map_of_mem (List.mem_flatten.2 ⟨level, hlevel, hn⟩))
      chains := fun ch' hch' => by
        obtain ⟨ch₀, hch₀, rfl⟩ := List.mem_map.1 hch'
        have hstored := hrep.chains ch₀ hch₀
        have hchain := hstored.1.congr fun q _ pg hq => hsame q pg hq
        split_ifs with hfirst
        · refine ⟨hchain, fun p hp pg hpg => ?_⟩
          obtain rfl : ofLe32 raw = p := Option.some.inj (hfirst.symm.trans hp)
          obtain rfl := Option.some.inj ((List.getElem?_set_self hlt).symm.trans hpg)
          rfl
        · refine ⟨hchain, fun p hp pg hpg => hstored.2 p hp pg ?_⟩
          rwa [List.getElem?_set_ne] at hpg
          rintro rfl
          exact hfirst hp
      free := hrep.free.frame (agree_set fun hp => hnot (List.mem_append_right _ hp))
      nodup := hpgnos ▸ hrep.nodup
      nonzero := hpgnos ▸ hrep.nonzero
      pos := by simpa using hrep.pos
      max := by simpa using hrep.max }

end Btree

end Bsdi.Db
