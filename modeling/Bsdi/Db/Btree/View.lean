import Bsdi.Db.Btree.Put
import Bsdi.Lib.Ensures
import Bsdi.Lib.Linked

/-!
# What the pages of a pool hold

A view says which pages of a pool are the pages of a tree, which ones are overflow
chains and which ones are on the free list. `Rep` relates a pool to its view: the
pages of every level are linked in both directions, the chains and the free list
are linked forward, and no page has two uses.
-/

namespace Bsdi.Db

open Bsdi.Lib

/-- A page of the tree, without its links. -/
structure Node where
  pgno : Pgno
  type : PageType
  linp : List (Option Item)

structure Chain where
  pgnos : List Pgno
  bytes : Dbt
  preserve : Bool

/-- The uses of the pages of a pool. The leaf level comes first. -/
structure View where
  levels : List (List Node)
  chains : List Chain
  free : List Pgno

def View.pgnos (v : View) : List Pgno :=
  v.levels.flatten.map Node.pgno ++ (v.chains.flatMap Chain.pgnos ++ v.free)

/-- The page is the given node, between the given neighbours. -/
structure Page.Shows (h : Page) (n : Node) (prev next : Pgno) : Prop where
  pgno : h.pgno = n.pgno
  prevpg : h.prevpg = prev
  nextpg : h.nextpg = next
  type : h.type = n.type
  linp : h.linp = n.linp

namespace Btree

variable (size : Nat) (ps : List Page)

def Shows (n : Node) (prev next : Pgno) : Prop :=
  ∃ h, ps[n.pgno]? = some h ∧ h.Shows n prev next

/-- The pages hold the bytes, `size` of them on each page but the last. -/
def ChainAt : List Pgno → Dbt → Prop
  | [], _ => False
  | [p], bytes => bytes.length ≤ size ∧
      ∃ h, ps[p]? = some h ∧ h.pgno = p ∧ h.type = .overflow ∧ h.bytes = bytes
  | p :: q :: rest, bytes => size < bytes.length ∧
      (∃ h, ps[p]? = some h ∧ h.pgno = p ∧ h.type = .overflow ∧ h.bytes = bytes.take size ∧
        h.nextpg = q) ∧ ChainAt (q :: rest) (bytes.drop size)

def Stored (ch : Chain) : Prop :=
  ChainAt size ps ch.pgnos ch.bytes ∧
    ∀ p ∈ ch.pgnos.head?, ∀ h, ps[p]? = some h → h.preserve = ch.preserve

/-- The free list from page `pg` on. -/
def FreeAt : Pgno → List Pgno → Prop
  | pg, [] => pg = pInvalid
  | pg, p :: rest => pg = p ∧ ∃ h, ps[p]? = some h ∧ FreeAt h.nextpg rest

/-- The pool of pages and the head of the free list are as the view says. -/
structure Rep (free : Pgno) (v : View) : Prop where
  linked : ∀ level ∈ v.levels, Linked Node.pgno (Shows ps) pInvalid level pInvalid
  chains : ∀ ch ∈ v.chains, Stored size ps ch
  free : FreeAt ps free v.free
  nodup : v.pgnos.Nodup
  nonzero : pInvalid ∉ v.pgnos
  pos : 0 < ps.length
  max : ps.length ≤ u32Mod

variable {size ps} {ps' : List Page}

def Agree (pgs : List Pgno) (ps ps' : List Page) : Prop := ∀ p ∈ pgs, ps'[p]? = ps[p]?

theorem Agree.mono {pgs pgs' : List Pgno} (h : Agree pgs ps ps') (hsub : ∀ p ∈ pgs', p ∈ pgs) :
    Agree pgs' ps ps' := fun p hp => h p (hsub p hp)

theorem Agree.trans {pgs : List Pgno} {ps'' : List Page} (h : Agree pgs ps ps')
    (h' : Agree pgs ps' ps'') : Agree pgs ps ps'' := fun p hp => (h' p hp).trans (h p hp)

theorem agree_set {pgs : List Pgno} {p : Pgno} {h : Page} (hp : p ∉ pgs) :
    Agree pgs ps (ps.set p h) := by
  intro q hq
  refine List.getElem?_set_ne ?_
  rintro rfl
  exact hp hq

theorem linked_frame {level : List Node} {prev next : Pgno}
    (h : Linked Node.pgno (Shows ps) prev level next)
    (hsame : Agree (level.map Node.pgno) ps ps') :
    Linked Node.pgno (Shows ps') prev level next := by
  refine h.imp fun n hn p q hshow => ?_
  obtain ⟨pg, hget, hpg⟩ := hshow
  exact ⟨pg, by rw [hsame n.pgno (List.mem_map_of_mem hn), hget], hpg⟩

theorem ChainAt.frame {pgs : List Pgno} {bytes : Dbt} (h : ChainAt size ps pgs bytes)
    (hsame : Agree pgs ps ps') : ChainAt size ps' pgs bytes := by
  induction pgs generalizing bytes with
  | nil => exact h
  | cons p rest ih =>
    cases rest with
    | nil => simpa only [ChainAt, hsame p (by simp)] using h
    | cons q rest =>
      simp only [ChainAt, hsame p (by simp)] at h ⊢
      exact ⟨h.1, h.2.1, ih h.2.2 (hsame.mono fun _ => List.mem_cons_of_mem p)⟩

theorem Stored.frame {ch : Chain} (h : Stored size ps ch) (hsame : Agree ch.pgnos ps ps') :
    Stored size ps' ch := by
  refine ⟨h.1.frame hsame, fun p hp pg hget => h.2 p hp pg ?_⟩
  rw [← hsame p (List.mem_of_mem_head? hp), hget]

theorem FreeAt.frame {pg : Pgno} {fs : List Pgno} (h : FreeAt ps pg fs) (hsame : Agree fs ps ps') :
    FreeAt ps' pg fs := by
  induction fs generalizing pg with
  | nil => exact h
  | cons p rest ih =>
    obtain ⟨rfl, pg', hget, hrest⟩ := h
    exact ⟨rfl, pg', by rw [hsame pg (by simp), hget],
      ih hrest (hsame.mono fun _ => List.mem_cons_of_mem pg)⟩

theorem Rep.frame_le {free : Pgno} {v : View} (h : Rep size ps free v)
    (hsame : Agree v.pgnos ps ps') (hlen : ps.length ≤ ps'.length) (hmax : ps'.length ≤ u32Mod) :
    Rep size ps' free v where
  linked level hlevel := linked_frame (h.linked level hlevel) (hsame.mono fun p hp => by
    obtain ⟨n, hn, rfl⟩ := List.mem_map.1 hp
    simp only [View.pgnos, List.mem_append, List.mem_map, List.mem_flatten]
    exact .inl ⟨n, ⟨level, hlevel, hn⟩, rfl⟩)
  chains ch hch := (h.chains ch hch).frame (hsame.mono fun p hp => by
    simp only [View.pgnos, List.mem_append, List.mem_flatMap]
    exact .inr (.inl ⟨ch, hch, hp⟩))
  free := h.free.frame (hsame.mono fun p hp => by simp [View.pgnos, hp])
  nodup := h.nodup
  nonzero := h.nonzero
  pos := Nat.lt_of_lt_of_le h.pos hlen
  max := hmax

theorem Rep.frame {free : Pgno} {v : View} (h : Rep size ps free v)
    (hsame : Agree v.pgnos ps ps') (hlen : ps'.length = ps.length) : Rep size ps' free v :=
  h.frame_le hsame (Nat.le_of_eq hlen.symm) (hlen ▸ h.max)

theorem ChainAt.lt_length {pgs : List Pgno} {bytes : Dbt} (h : ChainAt size ps pgs bytes) :
    ∀ p ∈ pgs, p < ps.length := by
  induction pgs generalizing bytes with
  | nil => simp
  | cons p rest ih =>
    intro q hq
    cases rest with
    | nil =>
      obtain ⟨-, pg, hget, -⟩ := h
      obtain rfl : q = p := by simpa using hq
      exact (List.getElem?_eq_some_iff.1 hget).1
    | cons r rest =>
      obtain ⟨-, ⟨pg, hget, -⟩, hrest⟩ := h
      rcases List.mem_cons.1 hq with rfl | hq
      · exact (List.getElem?_eq_some_iff.1 hget).1
      · exact ih hrest q hq

theorem FreeAt.lt_length {pg : Pgno} {fs : List Pgno} (h : FreeAt ps pg fs) :
    ∀ p ∈ fs, p < ps.length := by
  induction fs generalizing pg with
  | nil => simp
  | cons p rest ih =>
    obtain ⟨rfl, pg', hget, hrest⟩ := h
    intro q hq
    rcases List.mem_cons.1 hq with rfl | hq
    · exact (List.getElem?_eq_some_iff.1 hget).1
    · exact ih hrest q hq

theorem Rep.lt_length {free : Pgno} {v : View} (h : Rep size ps free v) :
    ∀ p ∈ v.pgnos, p < ps.length := by
  intro p hp
  simp only [View.pgnos, List.mem_append, List.mem_map, List.mem_flatten, List.mem_flatMap] at hp
  rcases hp with ⟨n, ⟨level, hlevel, hn⟩, rfl⟩ | ⟨ch, hch, hp⟩ | hp
  · obtain ⟨_, _, pg, hget, -⟩ := (h.linked level hlevel).exists_cell hn
    exact (List.getElem?_eq_some_iff.1 hget).1
  · exact (h.chains ch hch).1.lt_length p hp
  · exact h.free.lt_length p hp

section

variable {free : Pgno} {D U : List (List Node)} {A B L M : List Node} {x y : Node}
variable {cs : List Chain} {fs : List Pgno}

theorem pgnos_level :
    (View.pgnos ⟨D ++ L :: U, cs, fs⟩).Perm (L.map Node.pgno ++ View.pgnos ⟨D ++ U, cs, fs⟩) := by
  simp only [View.pgnos, List.flatten_append, List.flatten_cons, List.map_append]
  rw [← List.append_assoc (L.map _)]
  refine List.Perm.append_right _ ?_
  rw [← List.append_assoc, ← List.append_assoc]
  exact List.perm_append_comm.append_right _

theorem pgnos_node :
    (View.pgnos ⟨D ++ (A ++ x :: B) :: U, cs, fs⟩).Perm
      (x.pgno :: View.pgnos ⟨D ++ (A ++ B) :: U, cs, fs⟩) := by
  refine pgnos_level.trans (List.Perm.trans ?_ (pgnos_level.symm.cons x.pgno))
  rw [← List.cons_append]
  refine List.Perm.append_right _ ?_
  simp [List.perm_middle]

theorem Rep.setLevel (h : Rep size ps free ⟨D ++ L :: U, cs, fs⟩)
    (hsame : Agree (View.pgnos ⟨D ++ U, cs, fs⟩) ps ps') (hlen : ps'.length = ps.length)
    (hlinked : Linked Node.pgno (Shows ps') pInvalid M pInvalid)
    (hnodup : (View.pgnos ⟨D ++ M :: U, cs, fs⟩).Nodup)
    (hnonzero : pInvalid ∉ View.pgnos ⟨D ++ M :: U, cs, fs⟩) :
    Rep size ps' free ⟨D ++ M :: U, cs, fs⟩ := by
  have hothers : Rep size ps' free ⟨D ++ U, cs, fs⟩ := by
    have hperm : (View.pgnos ⟨D ++ L :: U, cs, fs⟩).Perm
        (L.map Node.pgno ++ View.pgnos ⟨D ++ U, cs, fs⟩) := pgnos_level
    have hold : Rep size ps free ⟨D ++ U, cs, fs⟩ :=
      { linked := fun level hlevel => h.linked level (by
          simp only [List.mem_append, List.mem_cons] at hlevel ⊢
          tauto)
        chains := h.chains
        free := h.free
        nodup := (List.nodup_append.1 (hperm.nodup_iff.1 h.nodup)).2.1
        nonzero := fun hzero => h.nonzero (hperm.mem_iff.2 (by simp [hzero]))
        pos := h.pos
        max := h.max }
    exact hold.frame hsame hlen
  exact
    { linked := fun level hlevel => by
        simp only [List.mem_append, List.mem_cons] at hlevel
        rcases hlevel with hD | rfl | hU
        · exact hothers.linked level (by simp [hD])
        · exact hlinked
        · exact hothers.linked level (by simp [hU])
      chains := hothers.chains
      free := hothers.free
      nodup := hnodup
      nonzero := hnonzero
      pos := hothers.pos
      max := hothers.max }

theorem Rep.getNode (h : Rep size ps free ⟨D ++ (A ++ x :: B) :: U, cs, fs⟩) :
    ∃ pg, ps[x.pgno]? = some pg ∧
      pg.Shows x (lastKey Node.pgno pInvalid A) (headKey Node.pgno pInvalid B) :=
  (linked_append_cons.1 (h.linked (A ++ x :: B) (by simp))).2.1

theorem Rep.nodup_node (h : Rep size ps free ⟨D ++ (A ++ x :: B) :: U, cs, fs⟩) :
    x.pgno ∉ View.pgnos ⟨D ++ (A ++ B) :: U, cs, fs⟩ ∧
      (View.pgnos ⟨D ++ (A ++ B) :: U, cs, fs⟩).Nodup :=
  List.nodup_cons.1 (pgnos_node.nodup_iff.1 h.nodup)

theorem Rep.nonzero_node (h : Rep size ps free ⟨D ++ (A ++ x :: B) :: U, cs, fs⟩) :
    x.pgno ≠ pInvalid ∧ pInvalid ∉ View.pgnos ⟨D ++ (A ++ B) :: U, cs, fs⟩ := by
  have := pgnos_node.mem_iff.not.1 h.nonzero
  rw [List.mem_cons, not_or] at this
  exact ⟨fun h => this.1 h.symm, this.2⟩

theorem Rep.setNode (x' : Node) {pg : Page}
    (h : Rep size ps free ⟨D ++ (A ++ x :: B) :: U, cs, fs⟩) (hpgno : x'.pgno = x.pgno)
    (hpg : pg.Shows x' (lastKey Node.pgno pInvalid A) (headKey Node.pgno pInvalid B)) :
    Rep size (ps.set x.pgno pg) free ⟨D ++ (A ++ x' :: B) :: U, cs, fs⟩ := by
  have hpgnos : View.pgnos ⟨D ++ (A ++ x' :: B) :: U, cs, fs⟩ =
      View.pgnos ⟨D ++ (A ++ x :: B) :: U, cs, fs⟩ := by simp [View.pgnos, hpgno]
  have hfresh : x.pgno ∉ A.map Node.pgno ++ B.map Node.pgno ++ View.pgnos ⟨D ++ U, cs, fs⟩ := by
    rw [← List.map_append]
    exact pgnos_level.mem_iff.not.1 h.nodup_node.1
  obtain ⟨pg₀, hget, -⟩ := h.getNode
  have hlt : x.pgno < ps.length := (List.getElem?_eq_some_iff.1 hget).1
  obtain ⟨hA, -, hB⟩ := linked_append_cons.1 (h.linked (A ++ x :: B) (by simp))
  refine h.setLevel (agree_set fun hmem => hfresh (by simp [hmem])) (by simp) ?_
    (hpgnos ▸ h.nodup) (hpgnos ▸ h.nonzero)
  refine linked_append_cons.2 ⟨?_, ?_, ?_⟩
  · rw [hpgno]
    exact linked_frame hA (agree_set fun hmem => hfresh (by simp [hmem]))
  · exact ⟨pg, by rw [hpgno, List.getElem?_set_self hlt], hpg⟩
  · rw [hpgno]
    exact linked_frame hB (agree_set fun hmem => hfresh (by simp [hmem]))

theorem relinkSide_next {t : Btree} {prev : Pgno} (q : Pgno)
    (h : Linked Node.pgno (Shows t.pages) prev B pInvalid) (hnodup : (B.map Node.pgno).Nodup)
    (hnonzero : pInvalid ∉ B.map Node.pgno) :
    ∃ ps', relinkSide t (headKey Node.pgno pInvalid B) (fun e => { e with prevpg := q }) =
        .ok { t with pages := ps' } ∧
      Linked Node.pgno (Shows ps') q B pInvalid ∧ ps'.length = t.pages.length ∧
      ∀ p, p ∉ B.map Node.pgno → ps'[p]? = t.pages[p]? := by
  cases B with
  | nil => exact ⟨t.pages, rfl, trivial, rfl, fun _ _ => rfl⟩
  | cons b B =>
    obtain ⟨⟨pg, hget, hpg⟩, hrest⟩ := h
    have hb : b.pgno ≠ pInvalid := fun heq => hnonzero (by simp [heq])
    have hlt : b.pgno < t.pages.length := (List.getElem?_eq_some_iff.1 hget).1
    rw [List.map_cons, List.nodup_cons] at hnodup
    refine ⟨t.pages.set b.pgno { pg with prevpg := q }, ?_,
      ⟨⟨_, List.getElem?_set_self hlt, { hpg with prevpg := rfl }⟩, ?_⟩, by simp, ?_⟩
    · simp [relinkSide, hb, mpoolGet, hget, setPage]
    · exact linked_frame hrest (agree_set hnodup.1)
    · intro p hp
      exact List.getElem?_set_ne fun heq => hp (by simp [heq])

theorem relinkSide_prev {t : Btree} {next : Pgno} (q : Pgno)
    (h : Linked Node.pgno (Shows t.pages) pInvalid A next) (hnodup : (A.map Node.pgno).Nodup)
    (hnonzero : pInvalid ∉ A.map Node.pgno) :
    ∃ ps', relinkSide t (lastKey Node.pgno pInvalid A) (fun e => { e with nextpg := q }) =
        .ok { t with pages := ps' } ∧
      Linked Node.pgno (Shows ps') pInvalid A q ∧ ps'.length = t.pages.length ∧
      ∀ p, p ∉ A.map Node.pgno → ps'[p]? = t.pages[p]? := by
  obtain rfl | ⟨A, a, rfl⟩ := List.eq_nil_or_concat A
  · exact ⟨t.pages, rfl, trivial, rfl, fun _ _ => rfl⟩
  · rw [List.concat_eq_append] at *
    obtain ⟨hA, ⟨pg, hget, hpg⟩, -⟩ := linked_append_cons.1 h
    have ha : a.pgno ≠ pInvalid := fun heq => hnonzero (by simp [heq])
    have hlt : a.pgno < t.pages.length := (List.getElem?_eq_some_iff.1 hget).1
    have hfresh : a.pgno ∉ A.map Node.pgno := by
      rw [List.map_append, List.nodup_append] at hnodup
      exact fun hmem => hnodup.2.2 _ hmem a.pgno (by simp) rfl
    refine ⟨t.pages.set a.pgno { pg with nextpg := q }, ?_, ?_, by simp, ?_⟩
    · simp [relinkSide, ha, mpoolGet, hget, setPage]
    · exact linked_append_cons.2 ⟨linked_frame hA (agree_set hfresh),
        ⟨_, List.getElem?_set_self hlt, { hpg with nextpg := rfl }⟩, trivial⟩
    · intro p hp
      exact List.getElem?_set_ne fun heq => hp (by simp [heq])

theorem Rep.insertRight (x' : Node) (h : Rep size ps free ⟨D ++ (A ++ x :: B) :: U, cs, fs⟩)
    (hpgno : x'.pgno = x.pgno)
    (hfresh : y.pgno ∉ View.pgnos ⟨D ++ (A ++ x :: B) :: U, cs, fs⟩) (hy : y.pgno ≠ pInvalid)
    (hsame : Agree (A.map Node.pgno ++ View.pgnos ⟨D ++ U, cs, fs⟩) ps ps')
    (hlen : ps'.length = ps.length)
    (hx' : Shows ps' x' (lastKey Node.pgno pInvalid A) y.pgno)
    (hyx : Shows ps' y x.pgno (headKey Node.pgno pInvalid B))
    (hB : Linked Node.pgno (Shows ps') y.pgno B pInvalid) :
    Rep size ps' free ⟨D ++ (A ++ x' :: y :: B) :: U, cs, fs⟩ := by
  have hperm : (View.pgnos ⟨D ++ (A ++ x' :: y :: B) :: U, cs, fs⟩).Perm
      (y.pgno :: View.pgnos ⟨D ++ (A ++ x :: B) :: U, cs, fs⟩) := by
    have : (View.pgnos ⟨D ++ ((A ++ [x']) ++ y :: B) :: U, cs, fs⟩).Perm
        (y.pgno :: View.pgnos ⟨D ++ ((A ++ [x']) ++ B) :: U, cs, fs⟩) := pgnos_node
    simpa [View.pgnos, hpgno] using this
  obtain ⟨hA, -, -⟩ := linked_append_cons.1 (h.linked (A ++ x :: B) (by simp))
  refine h.setLevel (hsame.mono fun p hp => by simp [hp]) hlen ?_
    (hperm.nodup_iff.2 (List.nodup_cons.2 ⟨hfresh, h.nodup⟩)) ?_
  · refine linked_append_cons.2 ⟨?_, hx', ?_, hB⟩
    · rw [hpgno]
      exact linked_frame hA (hsame.mono fun p hp => List.mem_append_left _ hp)
    · rw [hpgno]
      exact hyx
  · rw [hperm.mem_iff, List.mem_cons, not_or]
    exact ⟨hy.symm, h.nonzero⟩

theorem Rep.nodup_level (h : Rep size ps free ⟨D ++ L :: U, cs, fs⟩) :
    (L.map Node.pgno).Nodup ∧ pInvalid ∉ L.map Node.pgno ∧
      ∀ p ∈ L.map Node.pgno, p ∉ View.pgnos ⟨D ++ U, cs, fs⟩ := by
  have hnodup := List.nodup_append.1 (pgnos_level.nodup_iff.1 h.nodup)
  refine ⟨hnodup.1, fun hmem => h.nonzero (pgnos_level.mem_iff.2 (by simp [hmem])), ?_⟩
  exact fun p hp hmem => hnodup.2.2 p hp p hmem rfl

theorem btRelink_spec {t : Btree}
    (h : Rep size t.pages t.free ⟨D ++ (A ++ x :: B) :: U, cs, fs⟩) :
    ∃ ps', btRelink t x.pgno = .ok { t with pages := ps' } ∧
      Rep size ps' t.free ⟨D ++ (A ++ B) :: U, cs, fs⟩ ∧
      ps'.length = t.pages.length ∧ ps'[x.pgno]? = t.pages[x.pgno]? ∧
      Agree (View.pgnos ⟨D ++ U, cs, fs⟩) t.pages ps' := by
  obtain ⟨pg, hget, hpg⟩ := h.getNode
  obtain ⟨hA, -, hB⟩ := linked_append_cons.1 (h.linked (A ++ x :: B) (by simp))
  obtain ⟨hnodup, hnonzero, hlevel⟩ := h.nodup_level
  rw [List.map_append, List.map_cons] at hnodup hnonzero hlevel
  have hnodupA := (List.nodup_append.1 hnodup).1
  have hnodupB := (List.nodup_cons.1 (List.nodup_append.1 hnodup).2.1)
  have hAB := (List.nodup_append.1 hnodup).2.2
  obtain ⟨ps₁, heq₁, hB₁, hlen₁, hsame₁⟩ := relinkSide_next (lastKey Node.pgno pInvalid A) hB
    hnodupB.2 (fun hmem => hnonzero (by simp [hmem]))
  have hA₁ : Linked Node.pgno (Shows ps₁) pInvalid A x.pgno := linked_frame hA fun p hp =>
    hsame₁ p fun hmem => hAB p hp p (by simp [hmem]) rfl
  obtain ⟨ps₂, heq₂, hA₂, hlen₂, hsame₂⟩ :=
    relinkSide_prev (t := { t with pages := ps₁ }) (headKey Node.pgno pInvalid B) hA₁
      hnodupA (fun hmem => hnonzero (by simp [hmem]))
  have hsame : Agree (View.pgnos ⟨D ++ U, cs, fs⟩) t.pages ps₂ := fun p hp => by
    rw [hsame₂ p fun hmem => hlevel p (by simp [hmem]) hp]
    exact hsame₁ p fun hmem => hlevel p (by simp [hmem]) hp
  refine ⟨ps₂, ?_, ?_, by simp [hlen₂, hlen₁], ?_, hsame⟩
  · simp only [btRelink, mpoolGet, hget, ok_bind, hpg.nextpg, hpg.prevpg, heq₁, heq₂]
  · refine h.setLevel hsame (by simp [hlen₂, hlen₁]) ?_ h.nodup_node.2 h.nonzero_node.2
    refine linked_append.2 ⟨hA₂, linked_frame hB₁ fun p hp => ?_⟩
    exact hsame₂ p fun hmem => hAB p hmem p (by simp [hp]) rfl
  · rw [hsame₂ x.pgno fun hmem => hAB x.pgno hmem x.pgno (by simp) rfl]
    exact hsame₁ x.pgno hnodupB.1

end

section

variable {c : Config} {t : Btree} {v : View} {p : Pgno}

theorem btFree_spec {pg : Page} (h : Rep size t.pages t.free v) (hp : p ∉ v.pgnos)
    (hne : p ≠ pInvalid) (hget : t.pages[p]? = some pg) (hpg : pg.pgno = p) :
    t.btFree p = .ok
        { t with pages := t.pages.set p { pg with prevpg := pInvalid, nextpg := t.free }, free := p } ∧
      Rep size (t.pages.set p { pg with prevpg := pInvalid, nextpg := t.free }) p
        { v with free := p :: v.free } := by
  have hlt : p < t.pages.length := (List.getElem?_eq_some_iff.1 hget).1
  have hperm : (View.pgnos { v with free := p :: v.free }).Perm (p :: v.pgnos) := by
    simp only [View.pgnos]
    rw [← List.append_assoc, ← List.append_assoc]
    exact List.perm_middle
  have hrep := h.frame (agree_set (h := { pg with prevpg := pInvalid, nextpg := t.free }) hp)
    (by simp)
  refine ⟨by simp [btFree, mpoolGet, hget, setPage, hpg], ?_⟩
  exact
    { linked := hrep.linked
      chains := hrep.chains
      free := ⟨rfl, _, List.getElem?_set_self hlt, hrep.free⟩
      nodup := hperm.nodup_iff.2 (List.nodup_cons.2 ⟨hp, h.nodup⟩)
      nonzero := by
        rw [hperm.mem_iff, List.mem_cons, not_or]
        exact ⟨hne.symm, h.nonzero⟩
      pos := hrep.pos
      max := hrep.max }

/-- The outcome of an allocation: page `p` belongs to nobody, and `fs` is what is left of
the free list. -/
structure Allocated (size : Nat) (c : Config) (t : Btree) (v : View) (fs : List Pgno) (p : Pgno)
    (t' : Btree) : Prop where
  eq : t' = { t with pages := t'.pages, free := t'.free }
  rep : Rep size t'.pages t'.free { v with free := fs }
  notMem : p ∉ View.pgnos { v with free := fs }
  ne : p ≠ pInvalid
  lt : p < t'.pages.length
  le : t.pages.length ≤ t'.pages.length
  same : ∀ q < t.pages.length, t'.pages[q]? = t.pages[q]?
  taken : v.free = p :: fs ∨ v.free = fs ∧ p = t.pages.length

theorem mpoolNew_spec (hpages : c.maxpages ≤ u32Mod) (h : Rep size t.pages t.free v) :
    Ensures (· = .nospace) (mpoolNew c t) fun r => Allocated size c t v v.free r.1 r.2 := by
  have hsame : ∀ q < t.pages.length, (t.pages ++ [junkPage])[q]? = t.pages[q]? :=
    fun q hq => List.getElem?_append_left hq
  unfold mpoolNew
  split_ifs with hmax
  · exact
      { eq := rfl
        rep := h.frame_le (fun q hq => hsame q (h.lt_length q hq)) (by simp)
          (Nat.le_trans (by simpa using Nat.succ_le_of_lt hmax) hpages)
        notMem := fun hmem => Nat.lt_irrefl _ (h.lt_length _ hmem)
        ne := Nat.ne_of_gt h.pos
        lt := by simp
        le := by simp
        same := hsame
        taken := .inr ⟨rfl, rfl⟩ }
  · exact rfl

theorem btNew_spec (hpages : c.maxpages ≤ u32Mod) (h : Rep size t.pages t.free v) :
    Ensures (· = .nospace) (btNew c t) fun r => ∃ fs, Allocated size c t v fs r.1 r.2 := by
  have hnew : Ensures (· = .nospace) (mpoolNew c t) fun r => ∃ fs, Allocated size c t v fs r.1 r.2 :=
    (mpoolNew_spec hpages h).mono fun r hr => ⟨v.free, hr⟩
  unfold btNew
  split_ifs with hfree
  · split
    · rename_i pg hget
      cases hv : v.free with
      | nil =>
        have hfreeAt := h.free
        rw [hv] at hfreeAt
        exact absurd hfreeAt hfree
      | cons p fs =>
        have hfreeAt := h.free
        rw [hv] at hfreeAt
        obtain ⟨hp, pg', hget', hrest⟩ := hfreeAt
        rw [hp] at hget ⊢
        obtain rfl : pg = pg' := Option.some.inj (hget.symm.trans hget')
        have hperm : v.pgnos.Perm (p :: View.pgnos { v with free := fs }) := by
          simp only [View.pgnos, hv]
          rw [← List.append_assoc, ← List.append_assoc]
          exact List.perm_middle
        have hnodup := List.nodup_cons.1 (hperm.nodup_iff.1 h.nodup)
        have hnonzero := hperm.mem_iff.not.1 h.nonzero
        rw [List.mem_cons, not_or] at hnonzero
        exact ⟨fs,
          { eq := rfl
            rep := { h with free := hrest, nodup := hnodup.2, nonzero := hnonzero.2 }
            notMem := hnodup.1
            ne := fun heq => hnonzero.1 heq.symm
            lt := (List.getElem?_eq_some_iff.1 hget).1
            le := Nat.le_refl _
            same := fun _ _ => rfl
            taken := .inl hv }⟩
    · exact hnew
  · exact hnew

theorem btNew_last {r : Pgno × Btree} (h : btNew c t = .ok r) :
    ∀ q, t.pages.length ≤ q → q < r.2.pages.length → q = r.1 := by
  have hnew : mpoolNew c t = .ok r → ∀ q, t.pages.length ≤ q → q < r.2.pages.length → q = r.1 := by
    unfold mpoolNew
    split_ifs
    · rintro heq q hle hlt
      obtain rfl := Except.ok.inj heq
      simp only [List.length_append, List.length_singleton] at hlt
      simp only
      omega
    · exact fun heq => nomatch heq
  unfold btNew at h
  split_ifs at h with hfree
  · split at h
    · obtain rfl := Except.ok.inj h
      intro q hle hlt
      simp only at hlt
      omega
    · exact hnew h
  · exact hnew h

end

end Btree

end Bsdi.Db
