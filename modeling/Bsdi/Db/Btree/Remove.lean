import Bsdi.Db.Btree.Store
import Bsdi.Db.Btree.Raise

/-!
# Removing records and pages

`__bt_dleaf` takes a record off its page together with its chains. `__bt_pdelete` takes an
emptied page out of the tree: every parent that loses its last entry goes too, and a root
that loses its last entry becomes an empty leaf page.
-/

namespace Bsdi.Db

open Bsdi.Lib

namespace Btree

variable {c : Config} {t : Btree} {cs cs' : List Chain} {fs fs' : List Pgno}
variable {D U ups levels : List (List Node)} {A B : List Node} {x : Node} {raw : Dbt} {big : Bool}

theorem deleteBig_spec {P : Bool → Prop} (raw : Dbt) (hsize : 0 < plen c)
    (hrep : Rep (plen c) t.pages t.free ⟨levels, cs, fs⟩) (href : big = true → HasRef cs P raw) :
    ∃ ps' free' cs' fs', deleteBig c t big raw = .ok { t with pages := ps', free := free' } ∧
      Rep (plen c) ps' free' ⟨levels, cs', fs'⟩ ∧
      Keeps cs cs' (if big then [ofLe32 raw] else []) ∧ (∀ ch ∈ cs', ch ∈ cs) ∧ fs <:+ fs' ∧
      Agree (levels.flatten.map Node.pgno ++ fs) t.pages ps' := by
  cases big with
  | false =>
    exact ⟨t.pages, t.free, cs, fs, rfl, hrep, fun ch hch _ => hch, fun _ hch => hch,
      List.suffix_refl fs, fun _ _ => rfl⟩
  | true =>
    obtain ⟨ch, hch, hhead, hlen, -⟩ := href rfl
    obtain ⟨C₁, C₂, rfl⟩ := List.append_of_mem hch
    obtain ⟨ps', free', heq, hkept, hfreed, -, hsame⟩ := ovflDelete_spec hsize hrep hhead hlen
    have hapart := (List.nodup_append.1 ((pgnos_chain _ _ _ _ _).nodup_iff.1 hrep.nodup)).2.2
    have hagree : Agree (levels.flatten.map Node.pgno ++ fs) t.pages ps' := fun q hq =>
      hsame q fun hmem => hapart q hmem q (by
        simp only [View.pgnos, List.mem_append] at hq ⊢
        tauto) rfl
    cases hpreserve : ch.preserve with
    | true =>
      obtain ⟨rfl, rfl⟩ := hkept hpreserve
      exact ⟨t.pages, t.free, _, fs, by simp [deleteBig, heq], hrep, fun ch hch _ => hch,
        fun _ hch => hch, List.suffix_refl fs, fun _ _ => rfl⟩
    | false =>
      refine ⟨ps', free', C₁ ++ C₂, _, by simp [deleteBig, heq], hfreed hpreserve, ?_, ?_,
        List.suffix_append .., hagree⟩
      · intro ch' hch' hor
        rcases List.mem_append.1 hch' with h | h
        · simp [h]
        · rcases List.mem_cons.1 h with rfl | h
          · rcases hor with hne | htrue
            · exact absurd hhead (hne _ (by simp))
            · simp [hpreserve] at htrue
          · simp [h]
      · intro ch' hch'
        simp only [List.mem_append, List.mem_cons] at hch' ⊢
        tauto

/-- The cursor after the record at `index` of page `pg` was deleted. -/
def dleafCursor (t : Btree) (pg index : Nat) (own : Dbt) : Cursor :=
  if t.cursorOn pg ∧ t.cursor.pg.index = index then
    { t.cursor with after := false, before := false, acquire := true, key := own }
  else (t.cursorDown pg index).cursor

theorem dleafCursor_spec {pg : Page} {index : Nat} {bl : BLeaf} {P : Bool → Prop} (p : Pgno)
    (key : Option Dbt) (hsize : 0 < plen c) (hnodups : c.nodups = true)
    (hrep : Rep (plen c) t.pages t.free ⟨levels, cs, fs⟩) (hbl : pg.getBleaf index = .ok bl)
    (hkey : bl.bigkey = true → HasRef cs P bl.key) :
    ∃ cur, (t.cursorOn p ∧ t.cursor.pg.index = index →
        btCurdel c t key pg p index = .ok { t with cursor := cur }) ∧
      (¬ (t.cursorOn p ∧ t.cursor.pg.index = index) → cur = t.cursor) ∧
      ∀ ps free, (({ t with pages := ps, free := free, cursor := cur } : Btree).cursorDown p
          index).cursor = dleafCursor t p index (full cs bl.bigkey bl.key) := by
  by_cases hon : t.cursorOn p ∧ t.cursor.pg.index = index
  · refine ⟨{ t.cursor with
      after := false, before := false, acquire := true, key := full cs bl.bigkey bl.key },
      fun _ => ?_, fun hoff => absurd hon hoff, ?_⟩
    · simp only [btCurdel, hbl, ok_bind, hnodups, if_true, fullKey_spec hsize hrep hkey]
    · intro ps free
      rw [dleafCursor, if_pos hon]
      simp [cursorDown, cursorOn]
  · refine ⟨t.cursor, fun h => absurd h hon, fun _ => rfl, fun ps free => ?_⟩
    rw [dleafCursor, if_neg hon, cursorDown, cursorDown, cursorOn, cursorOn]
    split_ifs <;> rfl

theorem SplitOnly.cursorDown {t' : Btree} (h : SplitOnly t t') (p index : Nat) :
    SplitOnly t (t'.cursorDown p index) := by
  rw [Btree.cursorDown]
  split_ifs
  · exact h.trans rfl
  · exact h

theorem Keeps.trans {cs'' : List Chain} {refs refs' : List Pgno} (h : Keeps cs cs' refs)
    (h' : Keeps cs' cs'' refs') : Keeps cs cs'' (refs ++ refs') := by
  intro ch hch hor
  simp only [List.mem_append] at hor
  refine h' ch (h ch hch ?_) ?_
  · exact hor.imp (fun hne q hq => hne q (.inl hq)) id
  · exact hor.imp (fun hne q hq => hne q (.inr hq)) id

/-- The outcome of `__bt_dleaf` at record `bl` of leaf page `x`. -/
structure Removes (c : Config) (t : Btree) (cs : List Chain) (fs : List Pgno) (A : List Node)
    (x : Node) (B : List Node) (ups : List (List Node)) (u v : List (Option Item)) (bl : BLeaf)
    (t' : Btree) (cs' : List Chain) (fs' : List Pgno) : Prop where
  only : SplitOnly t t'
  rep : Rep (plen c) t'.pages t'.free ⟨(A ++ { x with linp := u ++ v } :: B) :: ups, cs', fs'⟩
  keeps : Keeps cs cs' (slotRefs (some (.bl bl)))
  old : ∀ ch ∈ cs', ch ∈ cs
  suffix : fs <:+ fs'
  cursor : t'.cursor = dleafCursor t x.pgno u.length (full cs bl.bigkey bl.key)
  same : Agree ((A ++ B).map Node.pgno ++ ups.flatten.map Node.pgno ++ fs) t.pages t'.pages
  page : ∀ pg, t.pages[x.pgno]? = some pg → t'.pages[x.pgno]? = some { pg with
    linp := u ++ v, dead := if u ++ v = [] then some (.bl bl) else none }

theorem Rep.others (hrep : Rep (plen c) t.pages t.free ⟨(A ++ x :: B) :: ups, cs, fs⟩) :
    ∀ q ∈ (A ++ B).map Node.pgno ++ ups.flatten.map Node.pgno ++ fs,
      x.pgno ≠ q ∧ q ∈ ((A ++ x :: B) :: ups).flatten.map Node.pgno ++ fs := by
  intro q hq
  have hx := (Rep.nodup_node (D := []) hrep).1
  simp only [View.pgnos, List.nil_append, List.flatten_cons, List.map_append, List.map_cons,
    List.mem_append, List.mem_cons, not_or] at hx hq ⊢
  refine ⟨?_, by tauto⟩
  rintro rfl
  tauto

theorem btDleaf_spec {u v : List (Option Item)} {bl : BLeaf} (key : Option Dbt) (hsize : 0 < plen c)
    (hnodups : c.nodups = true)
    (hrep : Rep (plen c) t.pages t.free ⟨(A ++ x :: B) :: ups, cs, fs⟩)
    (hslot : LeafSlot c cs (some (.bl bl))) (hrefs : (slotRefs (some (.bl bl))).Nodup)
    (hlinp : x.linp = u ++ some (.bl bl) :: v) :
    ∃ t' cs' fs', btDleaf c t key x.pgno u.length = .ok t' ∧
      Removes c t cs fs A x B ups u v bl t' cs' fs' := by
  obtain ⟨pg, hget, hpg⟩ := Rep.getNode (D := []) hrep
  obtain ⟨bl', hbl', -, hkey, hdata⟩ := hslot
  obtain rfl : bl = bl' := by simpa using hbl'
  have hbl : pg.getBleaf u.length = .ok bl := by
    simp [Page.getBleaf, Page.slot, hpg.linp, hlinp]
  have hlt : ¬ pg.nextindex ≤ u.length := by simp [Page.nextindex, hpg.linp, hlinp]
  obtain ⟨cur, hon, hoff, hdown⟩ := dleafCursor_spec x.pgno key hsize hnodups hrep hbl hkey
  obtain ⟨ps₂, free₂, cs₂, fs₂, heq₂, hrep₂, hkeeps₂, hold₂, hsuffix₂, hagree₂⟩ :=
    deleteBig_spec (t := { t with cursor := cur }) bl.key hsize hrep hkey
  have hdata₂ : bl.bigdata = true → HasRef cs₂ (· = false) bl.data := by
    intro hb
    refine (hdata hb).keep fun ch hch hhead _ => hkeeps₂.chain ?_ hch hhead
    cases hbk : bl.bigkey with
    | false => simp
    | true =>
      have : ofLe32 bl.key ≠ ofLe32 bl.data := by simpa [slotRefs, hb, hbk] using hrefs
      simpa using this.symm
  obtain ⟨ps₃, free₃, cs₃, fs₃, heq₃, hrep₃, hkeeps₃, hold₃, hsuffix₃, hagree₃⟩ :=
    deleteBig_spec (t := { t with cursor := cur, pages := ps₂, free := free₂ }) bl.data
      hsize hrep₂ hdata₂
  have hagree : Agree (((A ++ x :: B) :: ups).flatten.map Node.pgno ++ fs) t.pages ps₃ :=
    hagree₂.trans (hagree₃.mono fun q hq => by
      simp only [List.mem_append] at hq ⊢
      exact hq.imp id (hsuffix₂.subset ·))
  have hget₃ : ps₃[x.pgno]? = some pg := by
    rw [hagree x.pgno (by simp), hget]
  have herase : pg.linp.eraseIdx u.length = u ++ v := by
    rw [hpg.linp, hlinp, List.eraseIdx_append_of_length_le (Nat.le_refl _)]
    simp
  have hpg₄ : Page.Shows { pg with linp := u ++ v, dead := if u ++ v = [] then some (.bl bl) else none }
      { x with linp := u ++ v } (lastKey Node.pgno pInvalid A) (headKey Node.pgno pInvalid B) :=
    { hpg with linp := rfl }
  have hrep₄ := Rep.setNode (D := []) { x with linp := u ++ v } hrep₃ rfl hpg₄
  refine ⟨Btree.cursorDown { t with cursor := cur, free := free₃, pages := ps₃.set x.pgno { pg with
      linp := u ++ v, dead := if u ++ v = [] then some (.bl bl) else none } } x.pgno u.length,
    cs₃, fs₃, ?_, ?_⟩
  · rw [btDleaf]
    simp only [mpoolGet, hget, ok_bind, if_neg hlt, hbl]
    by_cases h : t.cursorOn x.pgno ∧ t.cursor.pg.index = u.length
    · rw [if_pos h, hon h]
      simp only [ok_bind, heq₂, heq₃, herase, setPage]
    · obtain rfl := hoff h
      rw [if_neg h]
      simp only [heq₂, ok_bind, heq₃, herase, setPage]
  · have hpages : ∀ t : Btree, (t.cursorDown x.pgno u.length).pages = t.pages := fun t => by
      rw [Btree.cursorDown]
      split_ifs <;> rfl
    have hfree : ∀ t : Btree, (t.cursorDown x.pgno u.length).free = t.free := fun t => by
      rw [Btree.cursorDown]
      split_ifs <;> rfl
    refine ⟨SplitOnly.cursorDown (t := t) (by rw [SplitOnly]) _ _, ?_, hkeeps₂.trans hkeeps₃, fun ch hch => hold₂ ch (hold₃ ch hch),
      hsuffix₂.trans hsuffix₃, hdown _ _, fun q hq => ?_, fun pg' hget' => ?_⟩
    · rw [hpages, hfree]
      exact hrep₄
    · obtain ⟨hne, hmem⟩ := hrep.others q hq
      rw [hpages, List.getElem?_set_ne hne]
      exact hagree q hmem
    · obtain rfl : pg = pg' := Option.some.inj (hget.symm.trans hget')
      rw [hpages]
      exact List.getElem?_set_self (List.getElem?_eq_some_iff.1 hget₃).1

theorem deleteBig_internal {bi : BInternal} (hsize : 0 < plen c)
    (hrep : Rep (plen c) t.pages t.free ⟨levels, cs, fs⟩) (h : InternalSlot c cs (some (.bi bi))) :
    deleteBig c t bi.bigkey bi.key = .ok t := by
  obtain ⟨bi', heq, -, hbig⟩ := h
  obtain rfl : bi = bi' := by simpa using heq
  cases hb : bi.bigkey with
  | false => rfl
  | true =>
    obtain ⟨ch, hch, hhead, hlen, hpreserve⟩ := hbig hb
    obtain ⟨C₁, C₂, rfl⟩ := List.append_of_mem hch
    obtain ⟨ps', free', heq, hkept, -⟩ := ovflDelete_spec hsize hrep hhead hlen
    obtain ⟨rfl, rfl⟩ := hkept hpreserve
    simpa [deleteBig] using heq

theorem Rep.drop_nil {size : Nat} {ps : List Page} {free : Pgno}
    (h : Rep size ps free ⟨D ++ [] :: U, cs, fs⟩) : Rep size ps free ⟨D ++ U, cs, fs⟩ where
  linked level hlevel := h.linked level (by
    simp only [List.mem_append, List.mem_cons] at hlevel ⊢
    tauto)
  chains := h.chains
  free := h.free
  nodup := by simpa [View.pgnos] using h.nodup
  nonzero := by simpa [View.pgnos] using h.nonzero
  pos := h.pos
  max := h.max

/-- The levels over a removed page `i`: it is gone from them, or the tree had no other
page and the root is an empty leaf page. -/
def Lowers (c : Config) (D U : List (List Node)) (i : Nat) (cs : List Chain) (fs' : List Pgno)
    (t' : Btree) : Prop :=
  (∃ U', Rep (plen c) t'.pages t'.free ⟨D ++ U', cs, fs'⟩ ∧
    Shrunk Node.linp (slotKey cs) slotChild Node.pgno pRoot U i U' ∧
    ∀ up ∈ U', ∀ n ∈ up, InternalNode c cs n) ∨
  (kids Node.linp slotChild pRoot U).length = 1 ∧
    Rep (plen c) t'.pages t'.free ⟨D ++ [[⟨pRoot, .bleaf, []⟩]], cs, fs'⟩

section

variable {p : Node} {pg : Page} {d : Option Item} {u v : List (Option Item)}

theorem Rep.apart_below (hrep : Rep (plen c) t.pages t.free ⟨D ++ (A ++ p :: B) :: U, cs, fs⟩) :
    ∀ q ∈ D.flatten.map Node.pgno ++ fs, p.pgno ≠ q ∧ q ∈ View.pgnos ⟨D ++ U, cs, fs⟩ := by
  intro q hq
  have hmem : q ∈ View.pgnos ⟨D ++ U, cs, fs⟩ := by
    simp only [View.pgnos, List.flatten_append, List.map_append, List.mem_append] at hq ⊢
    tauto
  refine ⟨?_, hmem⟩
  rintro rfl
  exact hrep.nodup_level.2.2 p.pgno (by simp) hmem

theorem lowers_erase (hrep : Rep (plen c) t.pages t.free ⟨D ++ (A ++ p :: B) :: U, cs, fs⟩)
    (htower : Tower Node.linp slotChild Node.pgno pRoot ((A ++ p :: B) :: U))
    (hint : ∀ up ∈ (A ++ p :: B) :: U, ∀ n ∈ up, InternalNode c cs n)
    (hpg : pg.Shows p (lastKey Node.pgno pInvalid A) (headKey Node.pgno pInvalid B))
    (hslots : p.linp = u ++ d :: v) (hne : u ++ v ≠ []) (stack : List Epgno) :
    Lowers c D ((A ++ p :: B) :: U) (slotCount Node.linp A + u.length) cs fs
      { t.setPage p.pgno { pg with linp := u ++ v } with stack := stack } := by
  have hp := hint _ (List.mem_cons_self ..) p (by simp)
  refine .inl ⟨(A ++ { p with linp := u ++ v } :: B) :: U, ?_, ?_, ?_⟩
  · exact hrep.setNode _ rfl { hpg with linp := rfl }
  · exact shrunk_erase htower hslots rfl rfl hne
  · intro up hup n hn
    rcases List.mem_cons.1 hup with rfl | hup
    · simp only [List.mem_append, List.mem_cons] at hn
      rcases hn with hn | rfl | hn
      · exact hint _ (List.mem_cons_self ..) n (by simp [hn])
      · refine ⟨hp.type, fun s hs => hp.slots s ?_, ?_, hne⟩
        · simp only [hslots, List.mem_append, List.mem_cons] at hs ⊢
          tauto
        · have hfits := hp.fits
          simp only [Fits, hslots, List.length_append, List.length_cons, List.map_append,
            List.map_cons, List.sum_append, List.sum_cons, indxSize] at hfits ⊢
          omega
      · exact hint _ (List.mem_cons_self ..) n (by simp [hn])
    · exact hint up (List.mem_cons_of_mem _ hup) n hn

theorem lowers_page {fs' : List Pgno} {t' : Btree}
    (htower : Tower Node.linp slotChild Node.pgno pRoot ((A ++ p :: B) :: U))
    (hint : ∀ up ∈ (A ++ p :: B) :: U, ∀ n ∈ up, InternalNode c cs n) (hslots : p.linp = [d])
    (h : Lowers c (D ++ [A ++ B]) U A.length cs fs' t') :
    Lowers c D ((A ++ p :: B) :: U) (slotCount Node.linp A) cs fs' t' := by
  rcases h with ⟨U', hrep, hshrunk, hint'⟩ | ⟨hone, hrep⟩
  · refine .inl ⟨(A ++ B) :: U', by simpa using hrep, shrunk_remove htower hslots hshrunk, ?_⟩
    intro up hup n hn
    rcases List.mem_cons.1 hup with rfl | hup
    · refine hint _ (List.mem_cons_self ..) n ?_
      simp only [List.mem_append, List.mem_cons] at hn ⊢
      tauto
    · exact hint' up hup n hn
  · have hlen := congrArg List.length htower.1
    rw [hone, List.length_map, List.length_append, List.length_cons] at hlen
    obtain rfl : A = [] := List.length_eq_zero_iff.1 (by omega)
    obtain rfl : B = [] := List.length_eq_zero_iff.1 (by simpa using hlen)
    refine .inr ⟨by simp [kids, hslots], ?_⟩
    have hrep' : Rep (plen c) t'.pages t'.free ⟨D ++ [] :: [[⟨pRoot, .bleaf, []⟩]], cs, fs'⟩ := by
      simpa using hrep
    exact hrep'.drop_nil

end

theorem btPdeleteLoop_spec {i : Nat} {stack : List Epgno} (hsize : 0 < plen c)
    (hrep : Rep (plen c) t.pages t.free ⟨D ++ U, cs, fs⟩)
    (htower : Tower Node.linp slotChild Node.pgno pRoot U)
    (hint : ∀ up ∈ U, ∀ n ∈ up, InternalNode c cs n) (hU : U ≠ [])
    (hpath : Path Node.linp Node.pgno U i (path stack)) :
    ∃ t' fs', btPdeleteLoop c stack t = .ok t' ∧ Lowers c D U i cs fs' t' ∧ fs <:+ fs' ∧
      t' = { t with pages := t'.pages, free := t'.free, stack := t'.stack } ∧
      Agree (D.flatten.map Node.pgno ++ fs) t.pages t'.pages := by
  -- by induction on the levels above, each step at one parent
  induction U generalizing t D i stack fs with
  | nil => exact absurd rfl hU
  | cons up U ih =>
    obtain ⟨A, p, B, k, rest, rfl, hk, rfl, hstack, hrest⟩ := hpath
    obtain ⟨parent, rest, rfl, hparent, rfl⟩ := List.map_eq_cons_iff.1 hstack
    obtain ⟨hpgno, rfl⟩ : parent.pgno = p.pgno ∧ parent.index = k := Prod.mk.inj hparent
    obtain ⟨u, d, v, hslots, hu⟩ := exists_split hk
    obtain ⟨pg, hget, hpg⟩ := hrep.getNode
    have hp := hint _ (List.mem_cons_self ..) p (by simp)
    have hd := hp.slots d (by simp [hslots])
    obtain ⟨bi, rfl, -⟩ := id hd
    have hbi : pg.getBinternal parent.index = .ok bi := by
      simp [Page.getBinternal, Page.slot, hpg.linp, hslots, ← hu]
    rw [btPdeleteLoop]
    simp only [mpoolGet, hpgno, hget, ok_bind, hbi, deleteBig_internal hsize hrep hd,
      Page.nextindex, hpg.linp]
    split_ifs with hone hroot
    · rw [hpg.pgno] at hroot
      obtain rfl : U = [] := by
        by_contra hne
        exact ne_root hrep htower.2 hne hroot
      obtain ⟨hA, -⟩ := hrest
      obtain rfl := List.length_eq_zero_iff.1 hA
      obtain rfl : B = [] := by
        have := congrArg List.length htower.1
        simpa [kids] using this
      refine ⟨_, fs, rfl, .inr ⟨by simp [kids, hone], ?_⟩, List.suffix_refl fs, rfl, ?_⟩
      · exact hrep.setNode ⟨pRoot, .bleaf, []⟩ hroot.symm
          ⟨hpg.pgno.trans hroot, hpg.prevpg, hpg.nextpg, rfl, rfl⟩
      · intro q hq
        exact List.getElem?_set_ne (hrep.apart_below q hq).1
    · rw [hpg.pgno] at hroot
      have hnil : u = [] ∧ v = [] := by
        rw [hslots] at hone
        simp only [List.length_append, List.length_cons] at hone
        exact ⟨List.length_eq_zero_iff.1 (by omega), List.length_eq_zero_iff.1 (by omega)⟩
      obtain ⟨rfl, rfl⟩ := hnil
      have hne : U ≠ [] := by
        rintro rfl
        obtain ⟨hA, -⟩ := hrest
        obtain rfl := List.length_eq_zero_iff.1 hA
        have := htower.1
        simp only [kids, List.nil_append, List.map_cons, List.cons.injEq] at this
        exact hroot (Option.some.inj this.1)
      obtain ⟨ps₁, heq₁, hrep₁, -, hget₁, hagree₁⟩ := btRelink_spec hrep
      have hfree := btFree_spec (t := { t with pages := ps₁ }) hrep₁ hrep.nodup_node.1
        hrep.nonzero_node.1 (hget₁.trans hget) hpg.pgno
      obtain ⟨t', fs', heq, hlowers, hsuffix, honly, hagree⟩ := ih (t := { t with
          pages := ps₁.set p.pgno { pg with prevpg := pInvalid, nextpg := t.free }, free := p.pgno })
        (D := D ++ [A ++ B]) (by simpa using hfree.2) htower.2
        (fun up hup => hint up (List.mem_cons_of_mem _ hup)) hne hrest
      refine ⟨t', fs', ?_, ?_, (List.suffix_cons p.pgno fs).trans hsuffix, honly, fun q hq => ?_⟩
      · rw [heq₁, ok_bind, hfree.1, ok_bind, heq]
      · simpa [← hu] using lowers_page htower hint hslots hlowers
      · obtain ⟨hqp, hmem⟩ := hrep.apart_below q hq
        rw [hagree q ?_, List.getElem?_set_ne hqp, hagree₁ q hmem]
        simp only [List.flatten_append, List.map_append, List.mem_append, List.mem_cons] at hq ⊢
        tauto
    · have hne : u ++ v ≠ [] := by
        intro hnil
        rw [List.append_eq_nil_iff] at hnil
        simp [hslots, hnil.1, hnil.2] at hone
      have herase : p.linp.eraseIdx parent.index = u ++ v := by
        rw [hslots, ← hu, List.eraseIdx_append_of_length_le (Nat.le_refl _)]
        simp
      refine ⟨_, fs, rfl, ?_, List.suffix_refl fs, rfl, fun q hq => ?_⟩
      · rw [herase, ← hu]
        exact lowers_erase hrep htower hint hpg hslots hne _
      · exact List.getElem?_set_ne (hrep.apart_below q hq).1

/-- The outcome of `__bt_pdelete` of leaf page `x` under a parent. -/
structure Unlinks (c : Config) (t : Btree) (cs : List Chain) (fs : List Pgno) (A : List Node)
    (x : Node) (B : List Node) (ups : List (List Node)) (t' : Btree) (fs' : List Pgno) : Prop where
  tree : (∃ ups', Rep (plen c) t'.pages t'.free ⟨(A ++ B) :: ups', cs, fs'⟩ ∧
      Shrunk Node.linp (slotKey cs) slotChild Node.pgno pRoot ups A.length ups' ∧
      ∀ up ∈ ups', ∀ n ∈ up, InternalNode c cs n) ∨
    A = [] ∧ B = [] ∧ Rep (plen c) t'.pages t'.free ⟨[[⟨pRoot, .bleaf, []⟩]], cs, fs'⟩
  suffix : fs <:+ fs'
  mem : x.pgno ∈ fs'
  only : t' = { t with pages := t'.pages, free := t'.free, stack := t'.stack }
  same : Agree fs t.pages t'.pages
  page : ∀ pg, t.pages[x.pgno]? = some pg → ∃ next,
    t'.pages[x.pgno]? = some { pg with prevpg := pInvalid, nextpg := next }

theorem freeLeaf_spec (hrep : Rep (plen c) t.pages t.free ⟨(A ++ x :: B) :: ups, cs, fs⟩) :
    ∃ t', (btRelink t x.pgno >>= fun t => t.btFree x.pgno) = .ok t' ∧
      Rep (plen c) t'.pages t'.free ⟨(A ++ B) :: ups, cs, x.pgno :: fs⟩ ∧
      t' = { t with pages := t'.pages, free := t'.free } ∧ Agree fs t.pages t'.pages ∧
      ∀ pg, t.pages[x.pgno]? = some pg → ∃ next,
        t'.pages[x.pgno]? = some { pg with prevpg := pInvalid, nextpg := next } := by
  obtain ⟨pg, hget, hpg⟩ := Rep.getNode (D := []) hrep
  obtain ⟨ps₁, heq₁, hrep₁, hlen₁, hget₁, hagree₁⟩ := btRelink_spec (D := []) hrep
  have hfree := btFree_spec (t := { t with pages := ps₁ }) hrep₁
    (Rep.nodup_node (D := []) hrep).1 (Rep.nonzero_node (D := []) hrep).1 (hget₁.trans hget) hpg.pgno
  refine ⟨_, by rw [heq₁, ok_bind, hfree.1], hfree.2, rfl, fun q hq => ?_, fun pg' hget' => ?_⟩
  · obtain ⟨hne, hmem⟩ := Rep.apart_below (D := []) hrep q (by simpa using hq)
    rw [List.getElem?_set_ne hne, hagree₁ q hmem]
  · obtain rfl : pg = pg' := Option.some.inj (hget.symm.trans hget')
    exact ⟨t.free, List.getElem?_set_self (List.getElem?_eq_some_iff.1 (hget₁.trans hget)).1⟩

theorem btPdelete_spec (hsize : 0 < plen c)
    (hrep : Rep (plen c) t.pages t.free ⟨(A ++ x :: B) :: ups, cs, fs⟩)
    (htower : Tower Node.linp slotChild Node.pgno pRoot ((A ++ x :: B) :: ups))
    (hint : ∀ up ∈ ups, ∀ n ∈ up, InternalNode c cs n) (hups : ups ≠ [])
    (hpath : Path Node.linp Node.pgno ups A.length (path t.stack)) :
    ∃ t' fs', btPdelete c t x.pgno = .ok t' ∧ Unlinks c t cs fs A x B ups t' fs' := by
  have hroot : x.pgno ≠ pRoot := ne_root (D := []) hrep htower.2 hups
  obtain ⟨t₁, fs₁, heq₁, hlowers, hsuffix₁, honly₁, hagree₁⟩ :=
    btPdeleteLoop_spec (D := [A ++ x :: B]) hsize hrep htower.2 hint hups hpath
  have hget₁ : t₁.pages[x.pgno]? = t.pages[x.pgno]? := hagree₁ x.pgno (by simp)
  -- both outcomes of the loop leave the page where it was
  obtain ⟨U', hrep₁⟩ : ∃ U', Rep (plen c) t₁.pages t₁.free ⟨(A ++ x :: B) :: U', cs, fs₁⟩ := by
    rcases hlowers with ⟨U', hrep', -⟩ | ⟨-, hrep'⟩
    · exact ⟨U', hrep'⟩
    · exact ⟨_, hrep'⟩
  obtain ⟨t', heq, -, honly, hagree, hpage⟩ := freeLeaf_spec hrep₁
  have hfreed : ∀ U', Rep (plen c) t₁.pages t₁.free ⟨(A ++ x :: B) :: U', cs, fs₁⟩ →
      Rep (plen c) t'.pages t'.free ⟨(A ++ B) :: U', cs, x.pgno :: fs₁⟩ := by
    intro U' hrep'
    obtain ⟨t'', heq', hrep'', -⟩ := freeLeaf_spec hrep'
    obtain rfl : t' = t'' := Except.ok.inj (heq.symm.trans heq')
    exact hrep''
  refine ⟨t', x.pgno :: fs₁, ?_, ⟨?_, hsuffix₁.trans (List.suffix_cons _ _), by simp, ?_, ?_, ?_⟩⟩
  · rw [btPdelete, heq₁, ok_bind, if_neg hroot]
    exact heq
  · rcases hlowers with ⟨U', hrep', hshrunk, hint'⟩ | ⟨hone, hrep'⟩
    · exact .inl ⟨U', hfreed U' hrep', hshrunk, hint'⟩
    · have hlen := congrArg List.length htower.1
      rw [hone, List.length_map, List.length_append, List.length_cons] at hlen
      obtain rfl : A = [] := List.length_eq_zero_iff.1 (by omega)
      obtain rfl : B = [] := List.length_eq_zero_iff.1 (by simpa using hlen)
      exact .inr ⟨rfl, rfl, Rep.drop_nil (D := []) (hfreed _ hrep')⟩
  · rw [honly, honly₁]
  · exact (hagree₁.mono fun q hq => by simp [hq]).trans (hagree.mono fun q hq => hsuffix₁.subset hq)
  · exact fun pg hget => hpage pg (hget₁.trans hget)

end Btree

end Bsdi.Db
