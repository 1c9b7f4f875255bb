import Bsdi.Db.Btree.Cascade

/-!
# The entry of a new page

The loop of `__bt_split` over the parents. It is the same for the two kinds of pages
below: for a leaf page whose first key is big, the chain of the key is marked after the
entry is stored.
-/

namespace Bsdi.Db

open Bsdi.Lib

namespace Btree

variable {c : Config} {t : Btree} {cs cs' : List Chain} {fs : List Pgno}
variable {D U : List (List Node)} {A B : List Node} {x l r : Node}

theorem storeItem_open {size : Nat} {pg : Page} {u v : List (Option Item)} (item : Item)
    (hrep : Rep size t.pages t.free ⟨D ++ (A ++ x :: B) :: U, cs, fs⟩)
    (hget : t.pages[x.pgno]? = some pg) (hlinp : x.linp = u ++ v)
    (hfits : Fits c (u ++ some item :: v)) :
    ∃ ps', storeItem c (t.setPage x.pgno (pg.openSlot u.length)) x.pgno u.length item =
        .ok { t with pages := ps' } ∧
      Rep size ps' t.free
        ⟨D ++ (A ++ { x with linp := u ++ some item :: v } :: B) :: U, cs, fs⟩ ∧
      ps'.length = t.pages.length ∧ ∀ q, q ≠ x.pgno → ps'[q]? = t.pages[q]? := by
  obtain ⟨pg', hget', hpg⟩ := hrep.getNode
  obtain rfl : pg = pg' := Option.some.inj (hget.symm.trans hget')
  have hopen : (pg.openSlot u.length).linp = u ++ none :: v := by
    rw [Page.openSlot, hpg.linp, hlinp, insertIdx_append_right _ _ (Nat.le_refl _)]
    simp
  have hpg₁ : (pg.openSlot u.length).Shows { x with linp := u ++ none :: v }
      (lastKey Node.pgno pInvalid A) (headKey Node.pgno pInvalid B) := { hpg with linp := hopen }
  have hrep₁ := hrep.setNode { x with linp := u ++ none :: v } rfl hpg₁
  obtain ⟨ps', heq, hrep', hlen, hsame⟩ := storeItem_spec (c := c) (t := t.setPage
    x.pgno (pg.openSlot u.length)) u.length item hrep₁ (by simp) (by simpa using hfits)
  refine ⟨ps', heq, by simpa [setPage] using hrep', by simpa [setPage] using hlen, fun q hq => ?_⟩
  rw [hsame q hq]
  exact List.getElem?_set_ne fun h => hq h.symm

/-- The entry `item` can stand on an internal page once `fin` has run. -/
structure Entry (c : Config) (cs cs' : List Chain) (item : Item)
    (fin : Btree → Except Fault Btree) : Prop where
  slot : InternalSlot c cs' (some item)
  keys : slotKey cs' = slotKey cs
  pgnos : cs'.flatMap Chain.pgnos = cs.flatMap Chain.pgnos
  internal : ∀ s, InternalSlot c cs s → InternalSlot c cs' s
  run : ∀ t levels fs, Rep (plen c) t.pages t.free ⟨levels, cs, fs⟩ →
    ∃ ps', fin t = .ok { t with pages := ps' } ∧ Rep (plen c) ps' t.free ⟨levels, cs', fs⟩ ∧
      ps'.length = t.pages.length ∧ ∀ q, q ∉ cs.flatMap Chain.pgnos → ps'[q]? = t.pages[q]?

/-- What is stored into the parent for the halves `l` and `r` of a page. -/
structure Carries (c : Config) (ps : List Page) (parent : Epgno) (l r : Node) (item : Item)
    (fin : Btree → Except Fault Btree) : Prop where
  eq : ∀ h lp rp, ps[parent.pgno]? = some h → ps[l.pgno]? = some lp → ps[r.pgno]? = some rp →
    parentItem c h (parent.index + 1) lp rp = .ok item ∧
      ∀ t pg left skip, insertParent c t pg left skip lp rp item =
        (storeItem c t pg skip item >>= fin)
  child : slotChild (some item) = some r.pgno

theorem Entry.node {item : Item} {fin : Btree → Except Fault Btree} {n : Node}
    (h : Entry c cs cs' item fin) (hn : InternalNode c cs n) : InternalNode c cs' n :=
  { hn with slots := fun s hs => h.internal s (hn.slots s hs) }

theorem entry_internal {bi : BInternal} (pg : Pgno) (h : InternalSlot c cs (some (.bi bi))) :
    Entry c cs cs (.bi { bi with pgno := pg }) Except.ok where
  slot := by
    obtain ⟨bi', heq, hlen, hbig⟩ := h
    obtain rfl : bi = bi' := by simpa using heq
    exact ⟨_, rfl, hlen, hbig⟩
  keys := rfl
  pgnos := rfl
  internal _ hs := hs
  run t _ _ hrep := ⟨t.pages, rfl, hrep, rfl, fun _ _ => rfl⟩

theorem slot_zero {pg : Page} {s : Option Item} {w : List (Option Item)} (h : pg.linp = s :: w) :
    pg.slot 0 = s := by
  simp [Page.slot, h]

theorem carries_internal {bi : BInternal} {w : List (Option Item)} {parent : Epgno}
    (hrep : Rep (plen c) t.pages t.free ⟨D ++ (A ++ l :: r :: B) :: U, cs, fs⟩)
    (hr : r.type = .binternal) (hfirst : r.linp = some (.bi bi) :: w) :
    Carries c t.pages parent l r (.bi { bi with pgno := r.pgno }) Except.ok where
  eq h lp rp _ _ hrp := by
    obtain ⟨rp', hrp', hpg⟩ := Rep.getNode (A := A ++ [l]) (x := r) (B := B) (by simpa using hrep)
    obtain rfl : rp = rp' := Option.some.inj (hrp.symm.trans hrp')
    have htype : rp.type = .binternal := hpg.type.trans hr
    have hslot := slot_zero (hpg.linp.trans hfirst)
    refine ⟨by simp [parentItem, htype, Page.getBinternal, hslot, hpg.pgno], ?_⟩
    intro t pg left skip
    simp only [insertParent, htype]
    cases storeItem c t pg skip (.bi { bi with pgno := r.pgno }) <;> rfl
  child := rfl

theorem parentItem_half {h lp rp : Page} {p₁ n₁ p₂ n₂ : Pgno} {k : Nat} (hl : lp.Shows l p₁ n₁)
    (hr : rp.Shows r p₂ n₂) (hlne : l.linp ≠ []) (hrne : r.linp ≠ []) :
    parentItem c h k lp rp =
      parentItem c h k (halfPage l.type pInvalid l.linp) (halfPage r.type r.pgno r.linp) := by
  have hrlen := List.length_pos_of_ne_nil hrne
  have hllen := List.length_pos_of_ne_nil hlne
  have hslot : ∀ {q q' : Page} {i : Nat}, q.linp = q'.linp → i < q.linp.length →
      q.slot i = q'.slot i := by
    intro q q' i heq hi
    simp [Page.slot, ← heq, List.getElem?_eq_getElem hi]
  have hright : rp.slot 0 = (halfPage r.type r.pgno r.linp).slot 0 :=
    hslot hr.linp (by rw [hr.linp]; exact hrlen)
  have hleft : lp.slot (lp.nextindex - 1) = (halfPage l.type pInvalid l.linp).slot
      (lp.nextindex - 1) := by
    refine hslot hl.linp ?_
    rw [Page.nextindex, hl.linp]
    omega
  have hnext : lp.nextindex = (halfPage l.type pInvalid l.linp).nextindex := by
    rw [Page.nextindex, hl.linp]
    rfl
  have htype : rp.type = (halfPage r.type r.pgno r.linp).type := hr.type
  have hpgno : rp.pgno = (halfPage r.type r.pgno r.linp).pgno := hr.pgno
  have htotal : recTotal rp = recTotal (halfPage r.type r.pgno r.linp) := by
    rw [recTotal, hr.linp]
    rfl
  have hrnext : rp.nextindex = (halfPage r.type r.pgno r.linp).nextindex := by
    rw [Page.nextindex, hr.linp]
    rfl
  simp only [parentItem, Page.getBinternal, Page.getBleaf, hright, ← hnext, hleft, htype, hpgno,
    htotal, hrnext]

/-- The result of inserting an entry with key `s` for the new page `new` behind node `i` of
the level below `U`. -/
def Raises (c : Config) (t : Btree) (D U : List (List Node)) (i : Nat) (s : Dbt) (new : Pgno)
    (cs : List Chain) (fs : List Pgno) (run : Except Fault Btree) : Prop :=
  Ensures (· = .nospace) run fun t' => ∃ U' fs', fs' <:+ fs ∧
    Rep (plen c) t'.pages t'.free ⟨D ++ U', cs, fs'⟩ ∧
    Grown Node.linp (slotKey cs) slotChild Node.pgno pRoot U i s new U' ∧
    (∀ up ∈ U', ∀ n ∈ up, InternalNode c cs n) ∧ SplitOnly t { t' with stack := t.stack }

theorem SplitOnly.withStack {t₁ : Btree} (h : SplitOnly t t₁) (ps : List Page) :
    SplitOnly t { t₁ with pages := ps, stack := t.stack } := by
  rw [SplitOnly] at h ⊢
  rw [h]

theorem path_mem {i : Nat} {stack : List Epgno} (h : Path Node.linp Node.pgno U i (path stack)) :
    ∀ e ∈ stack, e.pgno ∈ U.flatten.map Node.pgno := by
  induction U generalizing i stack with
  | nil =>
    obtain ⟨-, hnil⟩ := h
    simp_all [path]
  | cons up U ih =>
    obtain ⟨A, n, B, k, rest, rfl, -, -, hstack, hrest⟩ := h
    obtain ⟨e, rest, rfl, he, rfl⟩ := List.map_eq_cons_iff.1 hstack
    intro e' he'
    rcases List.mem_cons.1 he' with rfl | he'
    · simp [(Prod.mk.inj he).1]
    · simp only [List.flatten_cons, List.map_append, List.mem_append]
      exact .inr (ih hrest e' he')

theorem ne_root (hrep : Rep (plen c) t.pages t.free ⟨D ++ (A ++ x :: B) :: U, cs, fs⟩)
    (htower : Tower Node.linp slotChild Node.pgno pRoot U) (hU : U ≠ []) : x.pgno ≠ pRoot := by
  obtain rfl | ⟨U, top, rfl⟩ := List.eq_nil_or_concat U
  · exact absurd rfl hU
  · rw [List.concat_eq_append] at htower hrep
    have htop : top.map (some ∘ Node.pgno) = [some pRoot] := (htower.suffix).1
    obtain ⟨y, rest, rfl, hy, -⟩ := List.map_eq_cons_iff.1 htop
    have hlevel := (Rep.nodup_level hrep).2.2 x.pgno (by simp)
    intro hx
    refine hlevel ?_
    have hy : y.pgno = pRoot := Option.some.inj hy
    simp [View.pgnos, hx, hy]

theorem exists_items {linp : List (Option Item)} (h : ∀ s ∈ linp, ∃ item, s = some item) :
    ∃ items : List Item, linp = items.map some := by
  induction linp with
  | nil => exact ⟨[], rfl⟩
  | cons s linp ih =>
    obtain ⟨item, rfl⟩ := h s (by simp)
    obtain ⟨items, rfl⟩ := ih fun s hs => h s (by simp [hs])
    exact ⟨item :: items, rfl⟩

theorem InternalNode.items {n : Node} (h : InternalNode c cs n) :
    ∃ items : List Item, n.linp = items.map some :=
  exists_items fun s hs => by
    obtain ⟨bi, rfl, -⟩ := h.slots s hs
    exact ⟨_, rfl⟩

theorem InternalSlot.nbytes_le {item : Item} (h : InternalSlot c cs (some item)) :
    item.nbytes ≤ c.ovflsize + nbleafdbt 0 0 := by
  obtain ⟨bi, heq, hlen, -⟩ := h
  obtain rfl : item = .bi bi := by simpa using heq
  exact Nat.le_trans (nbytes_bi bi) (Nat.add_le_add_right hlen _)

section

variable {p : Node} {u v : List (Option Item)} {d : Option Item} {item : Item} {s : Dbt} {new : Pgno}
variable {fin : Btree → Except Fault Btree}

theorem raises_room {pg : Page} (rest : List Epgno)
    (hrep : Rep (plen c) t.pages t.free ⟨D ++ (A ++ p :: B) :: U, cs, fs⟩)
    (htower : Tower Node.linp slotChild Node.pgno pRoot ((A ++ p :: B) :: U))
    (hint : ∀ up ∈ (A ++ p :: B) :: U, ∀ n ∈ up, InternalNode c cs n)
    (hget : t.pages[p.pgno]? = some pg) (hslots : p.linp = u ++ d :: v)
    (hentry : Entry c cs cs' item fin) (hchild : slotChild (some item) = some new)
    (hkey : slotKey cs (some item) = some s) (hfits : Fits c (u ++ d :: some item :: v)) :
    Raises c t D ((A ++ p :: B) :: U) (slotCount Node.linp A + u.length) s new cs' fs
      ((storeItem c (t.setPage p.pgno (pg.openSlot (u.length + 1))) p.pgno (u.length + 1) item >>= fin)
        >>= fun t => .ok { t with stack := rest }) := by
  obtain ⟨ps₁, heq₁, hrep₁, -, -⟩ := storeItem_open (c := c) (u := u ++ [d]) (v := v) item
    hrep hget (by simpa using hslots) (by simpa using hfits)
  obtain ⟨ps₂, heq₂, hrep₂, -, -⟩ := hentry.run { t with pages := ps₁ } _ _ hrep₁
  rw [List.length_append, List.length_singleton] at heq₁
  rw [Raises, heq₁, ok_bind, heq₂, ok_bind]
  refine ⟨_, fs, List.suffix_refl fs, hrep₂, ?_, ?_, rfl⟩
  · refine grown_insert htower hslots (by simp) rfl hchild ?_
    rw [hentry.keys, hkey]
  · have hp := hint _ (List.mem_cons_self ..) p (by simp)
    intro up hup n hn
    rcases List.mem_cons.1 hup with rfl | hup
    · rcases List.mem_append.1 hn with hn | hn
      · exact hentry.node (hint _ (List.mem_cons_self ..) n (by simp [hn]))
      · rcases List.mem_cons.1 hn with rfl | hn
        · refine ⟨hp.type, fun s hs => ?_, by simpa using hfits, by simp⟩
          have hs' : s = some item ∨ s ∈ p.linp := by
            simp only [hslots, List.mem_append, List.mem_cons, List.append_assoc,
              List.singleton_append] at hs ⊢
            tauto
          rcases hs' with rfl | hs'
          · exact hentry.slot
          · exact hentry.internal s (hp.slots s hs')
        · exact hentry.node (hint _ (List.mem_cons_self ..) n (by simp [hn]))
    · exact hentry.node (hint up (List.mem_cons_of_mem _ hup) n hn)

theorem PageFits.nodes {pg : Page} {items : List Item} (hs : Sound c) (hp : InternalNode c cs p)
    (hpage : PageFits c pg items (u.length + 1) item) (hitems : p.linp = items.map some)
    (hpg : pg.linp = p.linp) (hslots : p.linp = u ++ d :: v) (hentry : Entry c cs cs' item fin) :
    (pageHalves c pg items (u.length + 1) item).1 ++ (pageHalves c pg items (u.length + 1) item).2 =
        u ++ d :: some item :: v ∧
      (∀ q, InternalNode c cs'
        { p with pgno := q, linp := (pageHalves c pg items (u.length + 1) item).1 }) ∧
      (∀ q, InternalNode c cs'
        { p with pgno := q, linp := (pageHalves c pg items (u.length + 1) item).2 }) ∧
      ∃ bi w, (pageHalves c pg items (u.length + 1) item).2 = some (.bi bi) :: w := by
  have hlen : u.length + 1 ≤ items.length := by
    have := congrArg List.length (hitems.symm.trans hslots)
    simp only [List.length_map, List.length_append, List.length_cons] at this
    omega
  have hne : items ≠ [] := fun h => by simp [h] at hlen
  obtain ⟨happ, hlne, hrne, hlfits, hrfits⟩ := hpage.halves hs hne (hpg.trans hitems)
    (hpg ▸ hp.fits) hlen hentry.slot.nbytes_le
  rw [← hitems, hslots, insertIdx_succ_split] at happ
  have hslot : ∀ s, s ∈ (pageHalves c pg items (u.length + 1) item).1 ++
      (pageHalves c pg items (u.length + 1) item).2 → InternalSlot c cs' s := by
    intro s hmem
    have hs' : s = some item ∨ s ∈ p.linp := by
      simp only [happ, hslots, List.mem_append, List.mem_cons] at hmem ⊢
      tauto
    rcases hs' with rfl | hs'
    · exact hentry.slot
    · exact hentry.internal s (hp.slots s hs')
  refine ⟨happ, fun q => ⟨hp.type, fun s h => hslot s (List.mem_append_left _ h), hlfits, hlne⟩,
    fun q => ⟨hp.type, fun s h => hslot s (List.mem_append_right _ h), hrfits, hrne⟩, ?_⟩
  obtain ⟨s₀, w, hw⟩ := List.exists_cons_of_ne_nil hrne
  obtain ⟨bi, hbi, -⟩ := hslot s₀ (List.mem_append_right _ (by simp [hw]))
  exact ⟨bi, w, by rw [hw, hbi]⟩

theorem rootNode {bi : BInternal} (hs : Sound c) (pg left : Pgno)
    (h : InternalSlot c cs (some (.bi bi))) :
    InternalNode c cs ⟨pg, .binternal, [some (.bi ⟨[], left, false⟩), some (.bi bi)]⟩ where
  type := rfl
  slots s hmem := by
    simp only [List.mem_cons, List.not_mem_nil, or_false] at hmem
    rcases hmem with rfl | rfl
    · exact ⟨_, rfl, Nat.zero_le _, by simp⟩
    · exact h
  fits := by
    have hbi := h.nbytes_le
    have hroom := hs.room
    have : (Item.bi ⟨[], left, false⟩).nbytes = nbleafdbt 0 0 := rfl
    simp only [Fits, List.length_cons, List.length_nil, List.map_cons, List.map_nil, List.sum_cons,
      List.sum_nil, slotBytes, Option.elim, this] at hroom ⊢
    omega
  ne := by simp

theorem raises_root {pg : Page} {items : List Item} (hs : Sound c)
    (hrep : Rep (plen c) t.pages t.free ⟨D ++ [[p]], cs, fs⟩)
    (htower : Tower Node.linp slotChild Node.pgno pRoot [[p]])
    (hp : InternalNode c cs p) (hget : t.pages[p.pgno]? = some pg)
    (hslots : p.linp = u ++ d :: v) (hitems : p.linp = items.map some)
    (hentry : Entry c cs cs' item fin) (hchild : slotChild (some item) = some new)
    (hkey : slotKey cs (some item) = some s) (hpage : PageFits c pg items (u.length + 1) item) :
    Raises c t D [[p]] u.length s new cs' fs
      (splitPage c t p.pgno (u.length + 1) item.nbytes >>= fun x =>
        (storeItem c x.1 x.2.target x.2.skip item >>= fin) >>= fun t =>
          fixRoot c t p.pgno x.2.left x.2.right >>= fun t => btSplitLoop c [] t x.2.left x.2.right) := by
  have hroot : p.pgno = pRoot := by simpa [Tower, kids] using htower.1
  obtain ⟨pg', hget', hpg⟩ := Rep.getNode (A := []) (B := []) hrep
  obtain rfl : pg = pg' := Option.some.inj (hget.symm.trans hget')
  obtain ⟨happ, hleft, hright, bi, w, hfirst⟩ := hpage.nodes hs hp hitems hpg.linp hslots hentry
  have hskip : u.length + 1 ≤ items.length := by
    have := congrArg List.length (hitems.symm.trans hslots)
    simp only [List.length_map, List.length_append, List.length_cons] at this
    omega
  refine (splitPage_root hs hrep hroot hget hitems hp.fits hskip hpage).bind ?_
  rintro ⟨t₁, sp⟩ ⟨fs', ps₁, hsuffix, honly, hstore, hrep₁, hnot, hsame⟩
  dsimp only at hstore hrep₁ hnot ⊢
  obtain ⟨ps₂, heq₂, hrep₂, hlen₂, hsame₂⟩ := hentry.run { t₁ with pages := ps₁ } _ _ hrep₁
  rw [hstore, ok_bind, heq₂, ok_bind]
  have hpget : ps₂[p.pgno]? = some pg := by
    rw [hsame₂ p.pgno fun hmem => hnot (by simp only [View.pgnos, List.mem_append]; tauto)]
    exact hsame
  obtain ⟨rp, hrget, hrp⟩ := Rep.getNode (U := []) (A := [{ p with
    pgno := sp.left, linp := (pageHalves c pg items (u.length + 1) item).1 }]) (B := []) hrep₂
  have hrslot : rp.getBinternal 0 = .ok bi := by
    simp [Page.getBinternal, slot_zero (hrp.linp.trans hfirst)]
  have htype : pg.type = .binternal := hpg.type.trans hp.type
  have hnot₂ : p.pgno ∉ View.pgnos ⟨D ++ [[
      { p with pgno := sp.left, linp := (pageHalves c pg items (u.length + 1) item).1 },
      { p with pgno := sp.right, linp := (pageHalves c pg items (u.length + 1) item).2 }]],
      cs', fs'⟩ := by
    simpa only [View.pgnos, hentry.pgnos] using hnot
  let m : Node := { p with linp := [some (.bi ⟨[], sp.left, false⟩), some (.bi { bi with pgno := sp.right })] }
  have hne : p.pgno ≠ pInvalid := (Rep.nonzero_node (A := []) (B := []) hrep).1
  have hrep₃ := hrep₂.addRoot (x := m) (h := { pg with
      type := .binternal, dead := none
      linp := [some (.bi ⟨[], sp.left, false⟩), some (.bi { bi with pgno := sp.right })] })
    hnot₂ hne (List.getElem?_eq_some_iff.1 hpget).1 ⟨hpg.pgno, hpg.prevpg, hpg.nextpg, hp.type.symm, rfl⟩
  have hbroot : fixRoot c { t₁ with pages := ps₂ } p.pgno sp.left sp.right =
      .ok { t₁ with pages := ps₂.set p.pgno { pg with
        type := .binternal, dead := none
        linp := [some (.bi ⟨[], sp.left, false⟩), some (.bi { bi with pgno := sp.right })] } } := by
    rw [fixRoot, if_pos hroot, hs.recno]
    simp [btBroot, mpoolGet, hpget, hrget, htype, hrslot, setPage]
  rw [hbroot, ok_bind, btSplitLoop]
  refine ⟨_, fs', hsuffix, by simpa using hrep₃, ?_, ?_, ?_⟩
  · refine grown_root (m := m) htower hslots happ hchild ?_ (hleft p.pgno).ne hfirst ?_ rfl rfl rfl rfl
    · rw [hentry.keys, hkey]
    · rfl
  · intro up hup n hn
    simp only [List.mem_cons, List.not_mem_nil, or_false] at hup
    rcases hup with rfl | rfl
    · simp only [List.mem_cons, List.not_mem_nil, or_false] at hn
      rcases hn with rfl | rfl
      · exact hleft _
      · exact hright _
    · obtain rfl : n = m := by simpa using hn
      have hslot := (hright p.pgno).slots (some (.bi bi)) (by simp [hfirst])
      have hnode := rootNode hs p.pgno sp.left (entry_internal sp.right hslot).slot
      exact { hnode with type := hp.type }
  · exact honly.withStack _

theorem raises_page {pg : Page} {items : List Item} (rest : List Epgno) (hs : Sound c)
    (hrep : Rep (plen c) t.pages t.free ⟨D ++ (A ++ p :: B) :: U, cs, fs⟩)
    (htower : Tower Node.linp slotChild Node.pgno pRoot ((A ++ p :: B) :: U))
    (hint : ∀ up ∈ (A ++ p :: B) :: U, ∀ n ∈ up, InternalNode c cs n) (hU : U ≠ [])
    (hget : t.pages[p.pgno]? = some pg) (hslots : p.linp = u ++ d :: v)
    (hitems : p.linp = items.map some) (hentry : Entry c cs cs' item fin)
    (hchild : slotChild (some item) = some new) (hkey : slotKey cs (some item) = some s)
    (hpage : PageFits c pg items (u.length + 1) item)
    (hnext : ∀ (t' : Btree) fs' q bi w, Agree (U.flatten.map Node.pgno) t.pages t'.pages →
      (pageHalves c pg items (u.length + 1) item).2 = some (.bi bi) :: w →
      InternalSlot c cs' (some (.bi bi)) →
      Rep (plen c) t'.pages t'.free ⟨D ++ (A ++
        { p with linp := (pageHalves c pg items (u.length + 1) item).1 } ::
        { p with pgno := q, linp := (pageHalves c pg items (u.length + 1) item).2 } :: B) :: U,
        cs', fs'⟩ →
      Raises c t' (D ++ [A ++ { p with linp := (pageHalves c pg items (u.length + 1) item).1 } ::
        { p with pgno := q, linp := (pageHalves c pg items (u.length + 1) item).2 } :: B]) U A.length
        (full cs' bi.bigkey bi.key) q cs' fs' (btSplitLoop c rest t' p.pgno q)) :
    Raises c t D ((A ++ p :: B) :: U) (slotCount Node.linp A + u.length) s new cs' fs
      (splitPage c t p.pgno (u.length + 1) item.nbytes >>= fun x =>
        (storeItem c x.1 x.2.target x.2.skip item >>= fin) >>= fun t =>
          fixRoot c t p.pgno x.2.left x.2.right >>= fun t =>
            btSplitLoop c rest t x.2.left x.2.right) := by
  have hp := hint _ (List.mem_cons_self ..) p (by simp)
  have hroot := ne_root hrep htower.2 hU
  obtain ⟨pg', hget', hpg⟩ := hrep.getNode
  obtain rfl : pg = pg' := Option.some.inj (hget.symm.trans hget')
  obtain ⟨happ, hleft, hright, bi, w, hfirst⟩ := hpage.nodes hs hp hitems hpg.linp hslots hentry
  have hskip : u.length + 1 ≤ items.length := by
    have := congrArg List.length (hitems.symm.trans hslots)
    simp only [List.length_map, List.length_append, List.length_cons] at this
    omega
  refine (splitPage_page hs hrep hroot hget hitems hp.fits hskip hpage hentry.slot.nbytes_le).bind ?_
  rintro ⟨t₁, sp⟩ ⟨fs', ps₁, hsuffix, honly, hleftpg, hstore, hrep₁, hagree⟩
  dsimp only at hstore hrep₁ hleftpg ⊢
  obtain ⟨ps₂, heq₂, hrep₂, -, hsame₂⟩ := hentry.run { t₁ with pages := ps₁ } _ _ hrep₁
  rw [hstore, ok_bind, heq₂, ok_bind, fixRoot, if_neg hroot, ok_bind, hleftpg]
  have hagree₂ : Agree (U.flatten.map Node.pgno) t.pages ps₂ := fun q hq => by
    rw [hsame₂ q fun hmem => ?_, hagree q hq]
    have hnodup := List.nodup_append.1 hrep₁.nodup
    refine hnodup.2.2 q ?_ q (List.mem_append_left _ hmem) rfl
    simp only [List.flatten_append, List.flatten_cons, List.map_append, List.mem_append]
    exact .inr (.inr hq)
  have hslot := (hright sp.right).slots (some (.bi bi)) (by simp [hfirst])
  refine (hnext { t₁ with pages := ps₂ } fs' sp.right bi w hagree₂ hfirst hslot hrep₂).mono ?_
  rintro t' ⟨U', fs'', hsuffix', hrep', hgrown, hint', honly'⟩
  refine ⟨_, fs'', hsuffix'.trans hsuffix, by simpa using hrep', ?_, ?_, ?_⟩
  · exact grown_split htower hslots happ rfl hchild (by rw [hentry.keys, hkey]) (hleft p.pgno).ne
      hfirst rfl hgrown
  · intro up hup n hn
    rcases List.mem_cons.1 hup with rfl | hup
    · simp only [List.mem_append, List.mem_cons] at hn
      rcases hn with hn | rfl | rfl | hn
      · exact hentry.node (hint _ (List.mem_cons_self ..) n (by simp [hn]))
      · exact hleft _
      · exact hright _
      · exact hentry.node (hint _ (List.mem_cons_self ..) n (by simp [hn]))
    · exact hint' up hup n hn
  · have hstack := congrArg (fun x : Btree => { x with stack := t.stack }) honly'
    exact (honly.withStack ps₂).trans hstack

theorem btSplitLoop_spec {parent : Epgno} {rest : List Epgno} (hs : Sound c)
    (hrep : Rep (plen c) t.pages t.free ⟨D ++ (A ++ l :: r :: B) :: U, cs, fs⟩)
    (htower : Tower Node.linp slotChild Node.pgno pRoot U)
    (hint : ∀ up ∈ U, ∀ n ∈ up, InternalNode c cs n)
    (hpath : Path Node.linp Node.pgno U A.length (path (parent :: rest)))
    (htype : l.type = r.type) (hlne : l.linp ≠ []) (hrne : r.linp ≠ [])
    (hcarries : Carries c t.pages parent l r item fin) (hentry : Entry c cs cs' item fin)
    (hkey : slotKey cs (some item) = some s)
    (hfit : SplitsFit c t.pages (parent :: rest) r.type l.linp r.linp) :
    Raises c t (D ++ [A ++ l :: r :: B]) U A.length s r.pgno cs' fs
      (btSplitLoop c (parent :: rest) t l.pgno r.pgno) := by
  -- by induction on the levels above, each step at one parent
  induction U generalizing t D A l r B item fin cs s fs parent rest with
  | nil => simp [Lib.Path, path] at hpath
  | cons up U ih =>
    obtain ⟨A₁, p, B₁, k, rest', rfl, hk, hA, hstack, hrest⟩ := hpath
    obtain ⟨rfl, rfl⟩ : (⟨p.pgno, k⟩ : Epgno) = parent ∧ path rest = rest' := by
      obtain ⟨h₁, h₂⟩ := List.cons.inj hstack
      exact ⟨by rw [← (Prod.mk.inj h₁).1, ← (Prod.mk.inj h₁).2], h₂⟩
    obtain ⟨u, d, v, hslots, rfl⟩ := exists_split hk
    have hrep₁ : Rep (plen c) t.pages t.free
        ⟨(D ++ [A ++ l :: r :: B]) ++ (A₁ ++ p :: B₁) :: U, cs, fs⟩ := by simpa using hrep
    obtain ⟨pg, hget, hpg⟩ := hrep₁.getNode
    obtain ⟨lp, hlget, hlpg⟩ := hrep.getNode
    obtain ⟨rp, hrget, hrpg⟩ := Rep.getNode (A := A ++ [l]) (x := r) (B := B) (by simpa using hrep)
    have hp := hint _ (List.mem_cons_self ..) p (by simp)
    obtain ⟨items, hitems⟩ := hp.items
    obtain ⟨hitem, hinsert⟩ := hcarries.eq pg lp rp hget hlget hrget
    have hroomiff := room_lt_iff item.nbytes hs hpg hitems hp.fits (by rw [hp.type]; decide)
      (by
        have := hs.room
        have := hentry.slot.nbytes_le
        omega)
    rw [btSplitLoop, hA]
    simp only [mpoolGet, hget, hlget, hrget, ok_bind, hitem, hinsert]
    split_ifs with hroom
    · have hhalf := hitem
      rw [parentItem_half hlpg hrpg hlne hrne, htype] at hhalf
      obtain ⟨hpage, hfits⟩ := hfit r.pgno pg items item hget (hpg.linp.trans hitems) hhalf hroom
      by_cases hU : U = []
      · subst hU
        obtain ⟨hlen, hnil⟩ := hrest
        obtain rfl := List.length_eq_zero_iff.1 hlen
        obtain rfl : rest = [] := by simpa [path] using hnil
        obtain rfl : B₁ = [] := by
          have := congrArg List.length htower.1
          simpa [kids] using this
        simpa using raises_root hs hrep₁ htower hp hget hslots hitems hentry hcarries.child hkey
          hpage
      · refine raises_page rest hs hrep₁ htower hint hU hget hslots hitems hentry hcarries.child hkey
          hpage ?_
        intro t' fs' q bi w hagree hfirst hslot hrep'
        obtain ⟨up, U₁, rfl⟩ := List.exists_cons_of_ne_nil hU
        obtain ⟨parent, rest, rfl⟩ : ∃ e es, rest = e :: es := by
          obtain ⟨_, _, _, _, _, -, -, -, hcons, -⟩ := hrest
          obtain ⟨e, es, h, -⟩ := List.map_eq_cons_iff.1 hcons
          exact ⟨e, es, h⟩
        obtain ⟨-, hleft, -⟩ := hpage.nodes hs hp hitems hpg.linp hslots hentry
        refine ih (t := t') hrep' htower.2
          (fun up hup n hn => hentry.node (hint up (List.mem_cons_of_mem _ hup) n hn)) hrest rfl
          (hleft p.pgno).ne (by simp [hfirst]) (carries_internal hrep' hp.type hfirst)
          (entry_internal q hslot) rfl ?_
        rw [hp.type]
        exact hfits.congr fun e he => hagree e.pgno (path_mem hrest e he)
    · refine raises_room rest hrep₁ htower hint hget hslots hentry hcarries.child hkey ?_
      have := fits_insert (c := c) (u ++ d :: v) (u.length + 1) item
        (by simp) (by rw [← hslots]; rw [hroomiff] at hroom; omega)
      rwa [insertIdx_succ_split] at this

end

end Btree

end Bsdi.Db
