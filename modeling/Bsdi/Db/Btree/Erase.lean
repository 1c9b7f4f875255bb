import Bsdi.Db.Btree.Sorted

/-!
# Deleting a record of a tree in order

A record goes with its chains, and its page goes if nothing is left on it. `bt_last` may
still designate the page afterwards.
-/

namespace Bsdi.Db

open Bsdi.Lib

namespace Btree

variable {c : Config} {t t' : Btree} {cs cs' : List Chain} {fs fs' : List Pgno}
variable {A B : List Node} {ups : List (List Node)} {x : Node} {bl : BLeaf}
variable {ord : Dbt → Dbt → Int} {dom : Dbt → Prop} {u v : List (Option Item)}

theorem leafRefs_erase (hlinp : x.linp = u ++ some (.bl bl) :: v) :
    (leafRefs (A ++ x :: B)).Perm
      (slotRefs (some (.bl bl)) ++ leafRefs (A ++ { x with linp := u ++ v } :: B)) := by
  simp only [leafRefs, List.flatMap_append, List.flatMap_cons, hlinp, List.append_assoc]
  have := List.perm_append_comm_assoc
    (A.flatMap (fun n => n.linp.flatMap slotRefs) ++ u.flatMap slotRefs) (slotRefs (some (.bl bl)))
    (v.flatMap slotRefs ++ B.flatMap fun n => n.linp.flatMap slotRefs)
  simpa using this

theorem Shape.erase (hshape : Shape c cs (A ++ x :: B) ups)
    (hlinp : x.linp = u ++ some (.bl bl) :: v) :
    Shape c cs (A ++ { x with linp := u ++ v } :: B) ups where
  tower := by
    refine ⟨?_, hshape.tower.2⟩
    rw [← hshape.tower.1]
    simp
  leaf n hn := by
    have hx := hshape.leaf x (by simp)
    simp only [List.mem_append, List.mem_cons] at hn
    rcases hn with hn | rfl | hn
    · exact hshape.leaf n (by simp [hn])
    · refine ⟨hx.type, fun s hs => hx.slots s ?_, ?_⟩
      · simp only [hlinp, List.mem_append, List.mem_cons] at hs ⊢
        tauto
      · have hfits := hx.fits
        simp only [Fits, hlinp, List.length_append, List.length_cons, List.map_append,
          List.map_cons, List.sum_append, List.sum_cons, indxSize] at hfits ⊢
        omega
    · exact hshape.leaf n (by simp [hn])
  internal := hshape.internal
  refs := (List.nodup_append.1 ((leafRefs_erase hlinp).nodup_iff.1 hshape.refs)).2.1

theorem Shape.refs_apart (hshape : Shape c cs (A ++ x :: B) ups)
    (hlinp : x.linp = u ++ some (.bl bl) :: v) :
    (slotRefs (some (.bl bl))).Nodup ∧
      ∀ n ∈ A ++ { x with linp := u ++ v } :: B, ∀ s ∈ n.linp, ∀ q ∈ slotRefs s,
        q ∉ slotRefs (some (.bl bl)) := by
  obtain ⟨hown, -, hapart⟩ := List.nodup_append.1 ((leafRefs_erase hlinp).nodup_iff.1 hshape.refs)
  refine ⟨hown, fun n hn s hs q hq hmem => hapart q hmem q ?_ rfl⟩
  simp only [leafRefs, List.mem_flatMap]
  exact ⟨n, hn, s, hs, hq⟩

theorem Removes.tree (htree : Tree c t cs fs (A ++ x :: B) ups)
    (hlinp : x.linp = u ++ some (.bl bl) :: v)
    (hremoves : Removes c t cs fs A x B ups u v bl t' cs' fs') :
    Tree c t' cs' fs' (A ++ { x with linp := u ++ v } :: B) ups ∧
      ∀ level ∈ (A ++ { x with linp := u ++ v } :: B) :: ups, ∀ n ∈ level, ∀ s ∈ n.linp,
        SameSlot cs cs' s := by
  have hshape := htree.shape.erase hlinp
  have hapart := (htree.shape.refs_apart hlinp).2
  exact ⟨⟨hremoves.rep, hshape.rechain hremoves.keeps hapart⟩,
    hshape.same hremoves.keeps hapart htree.rep hremoves.rep⟩

theorem Ordered.erase (hshape : Shape c cs (A ++ x :: B) ups)
    (h : Ordered ord dom cs (A ++ x :: B) ups) (hlinp : x.linp = u ++ some (.bl bl) :: v) :
    Ordered ord dom cs (A ++ { x with linp := u ++ v } :: B) ups where
  fenced := by
    obtain ⟨X, low, Y, hXY, hX, -⟩ := hshape.tower.split_fences (slotKey cs)
    have hold := h.fenced
    rw [leafFences, hXY, List.map_append, List.map_cons] at hold ⊢
    refine hold.remove_keys (by simpa using hX) ?_
    rw [nodeKeys_mk, nodeKeys, hlinp]
    exact ((List.sublist_cons_self _ _).append_left u).filterMap _
  dom level hlevel n hn s hs := by
    rcases List.mem_cons.1 hlevel with rfl | hup
    · simp only [List.mem_append, List.mem_cons] at hn
      rcases hn with hn | rfl | hn
      · exact h.dom _ (List.mem_cons_self ..) n (by simp [hn]) s hs
      · refine h.dom _ (List.mem_cons_self ..) x (by simp) s ?_
        simp only [hlinp, List.mem_append, List.mem_cons] at hs ⊢
        tauto
      · exact h.dom _ (List.mem_cons_self ..) n (by simp [hn]) s hs
    · exact h.dom level (List.mem_cons_of_mem _ hup) n hn s hs

/-- The tree after `__bt_dleaf`. -/
structure Erased (c : Config) (ord : Dbt → Dbt → Int) (t' : Btree) (cs cs' : List Chain)
    (fs' : List Pgno) (A : List Node) (x : Node) (B : List Node) (ups : List (List Node))
    (u v : List (Option Item)) : Prop where
  tree : Tree c t' cs' fs' (A ++ { x with linp := u ++ v } :: B) ups
  fenced : Fenced ord (leafFences cs' ups)
    ((A ++ { x with linp := u ++ v } :: B).map (nodeKeys cs'))
  small : ∀ n ∈ A ++ { x with linp := u ++ v } :: B, ∀ bl, some (.bl bl) ∈ n.linp →
    bl.bigkey = false
  plain : ∀ ch ∈ cs', ch.preserve = false
  low : Lowest Node.linp (slotKey cs') (LowLe ord) ups
  same : ∀ level ∈ (A ++ { x with linp := u ++ v } :: B) :: ups, ∀ n ∈ level, ∀ s ∈ n.linp,
    SameSlot cs cs' s

theorem Arranged.erased (h : Arranged c ord t cs fs (A ++ x :: B) ups)
    (hlinp : x.linp = u ++ some (.bl bl) :: v)
    (hremoves : Removes c t cs fs A x B ups u v bl t' cs' fs') :
    Erased c ord t' cs cs' fs' A x B ups u v := by
  obtain ⟨htree, hsame⟩ := hremoves.tree h.tree hlinp
  have hordered := (h.ordered.erase h.tree.shape hlinp).rechain hsame
  have hsmall : ∀ n ∈ A ++ { x with linp := u ++ v } :: B, ∀ bl, some (.bl bl) ∈ n.linp →
      bl.bigkey = false := by
    intro n hn bl' hbl'
    simp only [List.mem_append, List.mem_cons] at hn
    rcases hn with hn | rfl | hn
    · exact h.small n (by simp [hn]) bl' hbl'
    · refine h.small x (by simp) bl' ?_
      simp only [hlinp, List.mem_append, List.mem_cons] at hbl' ⊢
      tauto
    · exact h.small n (by simp [hn]) bl' hbl'
  exact ⟨htree, hordered.fenced, hsmall, fun ch hch => h.plain ch (hremoves.old ch hch),
    lowest_congr (fun up hup n hn s hs => (hsame up (List.mem_cons_of_mem _ hup) n hn s hs).key) h.low,
    hsame⟩

theorem contents_erase
    (hsame : ∀ level ∈ (A ++ { x with linp := u ++ v } :: B) :: ups, ∀ n ∈ level, ∀ s ∈ n.linp,
      SameSlot cs cs' s) :
    contents cs' (A ++ { x with linp := u ++ v } :: B) =
      contents cs A ++ (u.filterMap (slotPair cs) ++ v.filterMap (slotPair cs)) ++ contents cs B := by
  rw [contents_congr (hsame _ (by simp))]
  simp

/-- The tree after a record was deleted, with the page it was on if that is empty now. -/
def Deleted (c : Config) (ord : Dbt → Dbt → Int) (cs : List Chain) (A B : List Node)
    (u v : List (Option Item)) (t' : Btree) : Prop :=
  ∃ cs' fs' leaves' ups', Sorted c ord t' cs' fs' leaves' ups' ∧
    contents cs' leaves' =
      contents cs A ++ (u.filterMap (slotPair cs) ++ v.filterMap (slotPair cs)) ++ contents cs B

theorem Removes.cached (hcached : Cached t (A ++ x :: B) fs)
    (hremoves : Removes c t cs fs A x B ups u v bl t' cs' fs') :
    Cached t' (A ++ { x with linp := u ++ v } :: B) fs' := by
  have honly := hremoves.only
  rw [SplitOnly] at honly
  have horder : t'.order = t.order ∧ t'.last = t.last := by
    rw [honly]
    exact ⟨rfl, rfl⟩
  intro hne
  rw [horder.1] at hne ⊢
  rw [horder.2]
  rcases hcached hne with ⟨hmem, hroot⟩ | ⟨hmem, pg, hget, hlinp⟩
  · exact .inl ⟨by simpa using hmem, hroot⟩
  · refine .inr ⟨hremoves.suffix.subset hmem, pg, ?_, hlinp⟩
    rw [hremoves.same _ (by simp [hmem]), hget]

theorem Sorted.keepPage (h : Sorted c ord t cs fs (A ++ x :: B) ups)
    (hlinp : x.linp = u ++ some (.bl bl) :: v)
    (hremoves : Removes c t cs fs A x B ups u v bl t' cs' fs')
    (hne : ups ≠ [] → u ++ v ≠ []) : Deleted c ord cs A B u v t' := by
  have herased := h.arranged.erased hlinp hremoves
  refine ⟨cs', fs', _, ups, ⟨herased.tree, fun hups n hn => ?_, herased.fenced, herased.small,
    herased.plain, herased.low, hremoves.cached h.cached⟩, (contents_erase herased.same)⟩
  simp only [List.mem_append, List.mem_cons] at hn
  rcases hn with hn | rfl | hn
  · exact h.filled hups n (by simp [hn])
  · exact hne hups
  · exact h.filled hups n (by simp [hn])

theorem Unlinks.cached {t₁ : Btree} {fs₁ : List Pgno} {leaves' : List Node}
    (h : Sorted c ord t cs fs (A ++ x :: B) ups) (hlinp : x.linp = [some (.bl bl)])
    (hremoves : Removes c t cs fs A x B ups [] [] bl t₁ cs' fs₁)
    (hunlinks : Unlinks c t₁ cs' fs₁ A { x with linp := [] } B ups t' fs')
    (hleaves : ∀ n ∈ A ++ B, n.pgno ∈ leaves'.map Node.pgno) : Cached t' leaves' fs' := by
  have horder : t'.order = t.order ∧ t'.last = t.last := by
    have honly := hremoves.only
    rw [SplitOnly] at honly
    rw [hunlinks.only, honly]
    exact ⟨rfl, rfl⟩
  intro hne
  rw [horder.1] at hne ⊢
  rw [horder.2]
  rcases h.cached hne with ⟨hmem, hroot⟩ | ⟨hmem, pg, hget, hempty⟩
  · obtain ⟨n, hn, hpgno⟩ := List.mem_map.1 hmem
    simp only [List.mem_append, List.mem_cons] at hn
    have hor : n = x ∨ n ∈ A ++ B := by
      rw [List.mem_append]
      tauto
    rcases hor with rfl | hother
    · obtain ⟨pg, hget, -⟩ := Rep.getNode (D := []) h.tree.rep
      obtain ⟨next, hget'⟩ := hunlinks.page _ (hremoves.page pg hget)
      exact .inr ⟨hpgno ▸ hunlinks.mem, _, hpgno ▸ hget', rfl⟩
    · exact .inl ⟨hpgno ▸ hleaves n hother, hroot⟩
  · refine .inr ⟨hunlinks.suffix.subset (hremoves.suffix.subset hmem), pg, ?_, hempty⟩
    rw [hunlinks.same _ (hremoves.suffix.subset hmem), hremoves.same _ (by simp [hmem]), hget]

theorem Sorted.dropPage {t₁ : Btree} {fs₁ : List Pgno} {ups' : List (List Node)}
    (hord : TotalCmp ord)
    (h : Sorted c ord t cs fs (A ++ x :: B) ups) (hups : ups ≠ []) (hlinp : x.linp = [some (.bl bl)])
    (hremoves : Removes c t cs fs A x B ups [] [] bl t₁ cs' fs₁)
    (hunlinks : Unlinks c t₁ cs' fs₁ A { x with linp := [] } B ups t' fs')
    (hrep : Rep (plen c) t'.pages t'.free ⟨(A ++ B) :: ups', cs', fs'⟩)
    (hshrunk : Shrunk Node.linp (slotKey cs') slotChild Node.pgno pRoot ups A.length ups')
    (hint : ∀ up ∈ ups', ∀ n ∈ up, InternalNode c cs' n) :
    Sorted c ord t' cs' fs' (A ++ B) ups' := by
  have herased := h.arranged.erased (u := []) (v := []) hlinp hremoves
  have hshape := herased.tree.shape
  have hmem : ∀ n ∈ A ++ B, n ∈ A ++ { x with linp := [] } :: B := by
    intro n hn
    simp only [List.mem_append, List.mem_cons] at hn ⊢
    tauto
  have hmem' : ∀ n ∈ A ++ B, n ∈ A ++ x :: B := by
    intro n hn
    simp only [List.mem_append, List.mem_cons] at hn ⊢
    tauto
  exact
    { tree := ⟨hrep, hshrunk.tower_cons hshape.tower, fun n hn => hshape.leaf n (hmem n hn), hint,
        by simpa [leafRefs] using hshape.refs⟩
      filled := fun _ n hn => h.filled hups n (hmem' n hn)
      fenced := by
        have hfenced := herased.fenced
        have hlen := hshape.tower.length (slotKey cs')
        simp only [List.map_append, List.map_cons, nodeKeys_mk] at hfenced ⊢
        refine hfenced.remove_near ?_ (by simpa [leafFences] using hshrunk.fences_eq)
        rw [leafFences, hlen]
        simp
        omega
      small := fun n hn => herased.small n (hmem n hn)
      plain := herased.plain
      low := by
        have hlen := hshape.tower.length (slotKey cs')
        refine hshrunk.low _ (fun _ _ _ => LowLe.trans hord)
          (fun up hup n hn => (hshape.internal up hup n hn).ne) ?_ herased.low
        exact (herased.fenced.sorted_fences (by simpa using hlen)).imp (LowLe.of_before hord)
      cached := Unlinks.cached h hlinp hremoves hunlinks fun n hn => List.mem_map_of_mem hn }

theorem Sorted.dropLast {t₁ : Btree} {fs₁ : List Pgno} (h : Sorted c ord t cs fs [x] ups)
    (hlinp : x.linp = [some (.bl bl)])
    (hremoves : Removes c t cs fs [] x [] ups [] [] bl t₁ cs' fs₁)
    (hunlinks : Unlinks c t₁ cs' fs₁ [] { x with linp := [] } [] ups t' fs')
    (hrep : Rep (plen c) t'.pages t'.free ⟨[[⟨pRoot, .bleaf, []⟩]], cs', fs'⟩) :
    Sorted c ord t' cs' fs' [⟨pRoot, .bleaf, []⟩] [] := by
  have herased := Arranged.erased (A := []) (B := []) (u := []) (v := []) h.arranged hlinp hremoves
  have hfits := (herased.tree.shape.leaf _ (List.mem_cons_self ..)).fits
  exact
    { tree := ⟨hrep, ⟨rfl, trivial⟩, by
        intro n hn
        obtain rfl := List.mem_singleton.1 hn
        exact ⟨rfl, by simp, hfits⟩, by simp, by simp [leafRefs]⟩
      filled := fun hne => absurd rfl hne
      fenced := by simp [Fenced, leafFences, fences, marks, nodeKeys]
      small := by simp
      plain := herased.plain
      low := trivial
      cached := Unlinks.cached (A := []) (B := []) h hlinp hremoves hunlinks (by simp) }

/-- What `__bt_bdelete` does with the page of the record: it stays, or it goes as nothing is left
on it. -/
def PageEnd (c : Config) (t₁ : Btree) (cs' : List Chain) (fs₁ : List Pgno) (A : List Node)
    (x : Node) (B : List Node) (ups : List (List Node)) (u v : List (Option Item))
    (t' : Btree) : Prop :=
  (ups ≠ [] → u ++ v ≠ []) ∧ (∃ st, t' = { t₁ with stack := st }) ∨
    u ++ v = [] ∧ ups ≠ [] ∧ ∃ fs', Unlinks c t₁ cs' fs₁ A { x with linp := [] } B ups t' fs'

theorem Tree.delete (hs : Sound c) (hnodups : c.nodups = true)
    (htree : Tree c t cs fs (A ++ x :: B) ups) (hlinp : x.linp = u ++ some (.bl bl) :: v)
    (hpath : u ++ v = [] → Path Node.linp Node.pgno ups A.length (path t.stack))
    (key : Option Dbt) :
    ∃ t₁ cs' fs₁ pg t', btDleaf c t key x.pgno u.length = .ok t₁ ∧
      Removes c t cs fs A x B ups u v bl t₁ cs' fs₁ ∧ t₁.pages[x.pgno]? = some pg ∧
      (if pg.nextindex = 0 then btPdelete c t₁ x.pgno else .ok t₁) = .ok t' ∧
      PageEnd c t₁ cs' fs₁ A x B ups u v t' := by
  obtain ⟨t₁, cs', fs₁, heq₁, hremoves⟩ := btDleaf_spec key hs.plen_pos hnodups htree.rep
    ((htree.shape.leaf x (by simp)).slots _ (by simp [hlinp])) (htree.shape.refs_apart hlinp).1
    hlinp
  have htree₁ := (hremoves.tree htree hlinp).1
  obtain ⟨pg₀, hget₀, -⟩ := Rep.getNode (D := []) htree.rep
  have hget := hremoves.page pg₀ hget₀
  have hstack : t₁.stack = t.stack := by
    have honly := hremoves.only
    rw [SplitOnly] at honly
    rw [honly]
  by_cases hempty : u ++ v = [] ∧ ups ≠ []
  · obtain ⟨hnil, hups⟩ := hempty
    rw [hnil] at htree₁
    obtain ⟨t', fs', heq, hunlinks⟩ := btPdelete_spec hs.plen_pos htree₁.rep
      htree₁.shape.tower htree₁.shape.internal hups (hstack ▸ hpath hnil)
    exact ⟨t₁, cs', fs₁, _, t', heq₁, hremoves, hget, by simpa [Page.nextindex, hnil] using heq,
      .inr ⟨hnil, hups, fs', hunlinks⟩⟩
  · have hkept : ups ≠ [] → u ++ v ≠ [] := fun hups hnil => hempty ⟨hnil, hups⟩
    by_cases hnil : u ++ v = []
    · -- the root stays when it is empty
      obtain rfl : ups = [] := by
        by_contra hups
        exact hkept hups hnil
      have hroot : x.pgno = pRoot := by
        have htower := htree.shape.tower
        obtain ⟨rfl, rfl⟩ := htower.alone
        exact Option.some.inj (List.cons.inj htower.1).1
      refine ⟨t₁, cs', fs₁, _, { t₁ with stack := [] }, heq₁, hremoves, hget, ?_,
        .inl ⟨hkept, [], rfl⟩⟩
      have : t₁.stack = [] := by simpa [hstack, path] using (hpath hnil).2
      simp [Page.nextindex, hnil, btPdelete, btPdeleteLoop, this, hroot]
    · refine ⟨t₁, cs', fs₁, _, t₁, heq₁, hremoves, hget, ?_, .inl ⟨hkept, t₁.stack, rfl⟩⟩
      rw [Page.nextindex, if_neg (by simpa using hnil)]

theorem Sorted.delete (hs : Sound c) (hord : TotalCmp ord) (hnodups : c.nodups = true)
    (h : Sorted c ord t cs fs (A ++ x :: B) ups)
    (hlinp : x.linp = u ++ some (.bl bl) :: v)
    (hpath : u ++ v = [] → Path Node.linp Node.pgno ups A.length (path t.stack))
    (key : Option Dbt) :
    ∃ t₁ pg t', btDleaf c t key x.pgno u.length = .ok t₁ ∧ t₁.pages[x.pgno]? = some pg ∧
      (if pg.nextindex = 0 then btPdelete c t₁ x.pgno else .ok t₁) = .ok t' ∧
      Deleted c ord cs A B u v t' := by
  obtain ⟨t₁, cs', fs₁, pg, t', heq₁, hremoves, hget, heq, hend⟩ :=
    h.tree.delete hs hnodups hlinp hpath key
  refine ⟨t₁, pg, t', heq₁, hget, heq, ?_⟩
  have herased := h.arranged.erased hlinp hremoves
  rcases hend with ⟨hkept, st, rfl⟩ | ⟨hnil, hups, fs', hunlinks⟩
  · obtain ⟨cs', fs', leaves', ups', hsorted, hcontents⟩ := h.keepPage hlinp hremoves hkept
    exact ⟨cs', fs', leaves', ups', { hsorted with tree := { hsorted.tree with } }, hcontents⟩
  · obtain ⟨rfl, rfl⟩ := List.append_eq_nil_iff.1 hnil
    rcases hunlinks.tree with ⟨ups', hrep, hshrunk, hint⟩ | ⟨rfl, rfl, hrep⟩
    · refine ⟨cs', fs', A ++ B, ups',
        h.dropPage hord hups hlinp hremoves hunlinks hrep hshrunk hint, ?_⟩
      simpa using contents_erase herased.same
    · exact ⟨cs', fs', _, [], h.dropLast hlinp hremoves hunlinks hrep, by simp [contents]⟩

end Btree

end Bsdi.Db
