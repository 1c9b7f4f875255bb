import Bsdi.Db.Btree.Erase
import Bsdi.Lib.Assoc

/-!
# Reading and deleting records

`__bt_get` and `__bt_delete` of a key, on a tree in order, as operations on the pairs of
the tree.
-/

namespace Bsdi.Db

open Bsdi.Lib

namespace Btree

variable {c : Config} {t t' : Btree} {cs : List Chain} {fs : List Pgno}
variable {leaves A B : List Node} {ups : List (List Node)} {x : Node} {bl : BLeaf}
variable {ord : Dbt → Dbt → Int} {u v : List (Option Item)} {key : Dbt}

theorem Sorted.frame (h : Sorted c ord t cs fs leaves ups) (hpages : t'.pages = t.pages)
    (hfree : t'.free = t.free) (horder : t'.order = t.order) (hlast : t'.last = t.last) :
    Sorted c ord t' cs fs leaves ups :=
  { h with
    tree := ⟨by rw [hpages, hfree]; exact h.tree.rep, h.tree.shape⟩
    cached := by
      rw [Cached, horder, hlast, hpages]
      exact h.cached }

theorem contents_keys (h : ∀ n ∈ leaves, ∀ s ∈ n.linp, ∃ bl, s = some (.bl bl)) :
    (contents cs leaves).map Prod.fst = (leaves.map (nodeKeys cs)).flatten := by
  rw [contents, List.map_flatMap, ← List.flatMap_def]
  refine List.flatMap_congr fun n hn => ?_
  rw [nodeKeys, List.map_filterMap]
  refine List.filterMap_congr fun s hs => ?_
  obtain ⟨bl, rfl⟩ := h n hn s hs
  rfl

theorem pairs_sorted (hlen : (leafFences cs ups).length = leaves.length)
    (hfenced : Fenced ord (leafFences cs ups) (leaves.map (nodeKeys cs)))
    (h : ∀ n ∈ leaves, ∀ s ∈ n.linp, ∃ bl, s = some (.bl bl)) :
    (contents cs leaves).Pairwise fun p q => ord p.1 q.1 < 0 := by
  have hsorted := hfenced.sorted (by simpa using hlen)
  rw [← contents_keys h] at hsorted
  exact List.pairwise_map.1 hsorted

theorem Shape.records (hshape : Shape c cs leaves ups) :
    ∀ n ∈ leaves, ∀ s ∈ n.linp, ∃ bl, s = some (.bl bl) := by
  intro n hn s hs
  obtain ⟨bl, rfl, -⟩ := (hshape.leaf n hn).slots s hs
  exact ⟨bl, rfl⟩

theorem contents_split {w : List (Option Item)} (hlinp : x.linp = u ++ some (.bl bl) :: w) :
    contents cs (A ++ x :: B) = (contents cs A ++ u.filterMap (slotPair cs)) ++
      recordPair cs bl :: (w.filterMap (slotPair cs) ++ contents cs B) := by
  simp [hlinp, slotPair]

theorem PlacedAt.sides (hord : TotalCmp ord) (hshape : Shape c cs (A ++ x :: B) ups)
    (hfenced : Fenced ord (leafFences cs ups) ((A ++ x :: B).map (nodeKeys cs)))
    (hlinp : x.linp = u ++ v) (hplaced : PlacedAt ord cs ups A u v key false) :
    (∀ p ∈ contents cs A ++ u.filterMap (slotPair cs), ord p.1 key < 0) ∧
      ∀ p ∈ v.filterMap (slotPair cs) ++ contents cs B, ord key p.1 < 0 := by
  -- with a record of that key the keys would still be in order
  have hnew := hplaced.fenced hord hfenced hlinp ⟨key, [], false, false⟩ rfl
  have hlen := hshape.length_fences
  have hrecords := hshape.records
  have hpairs := pairs_sorted (by simpa using hlen) hnew (by
    intro n hn s hs
    simp only [List.mem_append, List.mem_cons] at hn
    rcases hn with hn | rfl | hn
    · exact hrecords n (by simp [hn]) s hs
    · simp only [List.mem_append, List.mem_cons] at hs
      rcases hs with hs | rfl | hs
      · exact hrecords x (by simp) s (by simp [hlinp, hs])
      · exact ⟨_, rfl⟩
      · exact hrecords x (by simp) s (by simp [hlinp, hs])
    · exact hrecords n (by simp [hn]) s hs)
  rw [contents_split rfl] at hpairs
  obtain ⟨-, hbehind, hbefore⟩ := List.pairwise_append.1 hpairs
  exact ⟨fun p hp => hbefore p hp _ (List.mem_cons_self ..), (List.pairwise_cons.1 hbehind).1⟩

theorem PlacedAt.absent (hord : TotalCmp ord) (hshape : Shape c cs (A ++ x :: B) ups)
    (hfenced : Fenced ord (leafFences cs ups) ((A ++ x :: B).map (nodeKeys cs)))
    (hlinp : x.linp = u ++ v) (hplaced : PlacedAt ord cs ups A u v key false) :
    key ∉ (contents cs (A ++ x :: B)).map Prod.fst := by
  obtain ⟨hbefore, hbehind⟩ := hplaced.sides hord hshape hfenced hlinp
  intro hmem
  obtain ⟨p, hp, rfl⟩ := List.mem_map.1 hmem
  have hside : p ∈ contents cs A ++ u.filterMap (slotPair cs) ∨
      p ∈ v.filterMap (slotPair cs) ++ contents cs B := by
    rw [← List.mem_append]
    simpa [hlinp] using hp
  exact hside.elim (fun h => hord.irrefl _ (hbefore p h)) fun h => hord.irrefl _ (hbehind p h)

theorem PlacedAt.record (hshape : Shape c cs (A ++ x :: B) ups) (hlinp : x.linp = u ++ v)
    (hplaced : PlacedAt ord cs ups A u v key true) :
    ∃ bl w, v = some (.bl bl) :: w ∧ LeafSlot c cs (some (.bl bl)) ∧ itemKey cs (.bl bl) = key := by
  obtain ⟨s, w, rfl, hkey, -⟩ := hplaced.hit rfl
  have hslot := (hshape.leaf x (by simp)).slots s (by simp [hlinp])
  obtain ⟨bl, rfl, -⟩ := id hslot
  exact ⟨bl, w, rfl, hslot, Option.some.inj hkey⟩

theorem Arranged.frame (h : Arranged c ord t cs fs leaves ups) (hpages : t'.pages = t.pages)
    (hfree : t'.free = t.free) : Arranged c ord t' cs fs leaves ups :=
  { h with tree := ⟨by rw [hpages, hfree]; exact h.tree.rep, h.tree.shape⟩ }

/-- A tree in order whose pairs are those of the map `m`. -/
def Holds (c : Config) (ord : Dbt → Dbt → Int) (t : Btree) (m : Dbt → Option Dbt) : Prop :=
  ∃ cs fs leaves ups, Sorted c ord t cs fs leaves ups ∧ Represents (contents cs leaves) m

theorem Arranged.search (hs : Sound c) (hnodups : c.nodups = true) (hord : Compares c ord)
    (h : Arranged c ord t cs fs leaves ups) (hdepth : ups.length ≤ stackSize)
    (hkey : key.length ≤ c.ovflsize) :
    ∃ r A x B u v, btSearch c t key = .ok r ∧ Located t leaves ups A x B u v r ∧
      (r.2.2 = false → key ∉ (contents cs leaves).map Prod.fst) ∧
      (r.2.2 = true → ∃ bl w, v = some (.bl bl) :: w ∧ LeafSlot c cs (some (.bl bl)) ∧
        itemKey cs (.bl bl) = key) := by
  obtain ⟨r, A, x, B, u, v, heq, hloc, hplace⟩ :=
    btSearch_spec _ hs.plen_pos hnodups h.tree.shape h.tree.rep hdepth
  have hplaced := hplace ord _ hord.total hord.cmp hkey h.ordered
  obtain rfl := hloc.leaves_eq
  refine ⟨r, A, x, B, u, v, heq, hloc, fun hmiss => ?_, fun hhit => ?_⟩
  · rw [hmiss] at hplaced
    exact hplaced.absent hord.total h.tree.shape h.fenced hloc.linp_eq
  · rw [hhit] at hplaced
    exact hplaced.record h.tree.shape hloc.linp_eq

theorem Arranged.get {m : Dbt → Option Dbt} (hs : Sound c) (hnodups : c.nodups = true)
    (hord : Compares c ord) (h : Arranged c ord t cs fs leaves ups)
    (hm : Represents (contents cs leaves) m) (hdepth : ups.length ≤ stackSize)
    (hkey : key.length ≤ c.ovflsize) :
    ∃ st, btGet c t key .none =
      .ok (if (m key).isSome then .success else .special, m key, { t with stack := st }) := by
  obtain ⟨r, A, x, B, u, v, heq, hloc, hmiss, hhit⟩ := h.search hs hnodups hord hdepth hkey
  have harranged : Arranged c ord r.1 cs fs leaves ups := by
    rw [hloc.eq]
    exact h.frame rfl rfl
  refine ⟨r.1.stack, ?_⟩
  rw [← hloc.eq, btGet, if_neg (by simp), heq, ok_bind]
  cases hexact : r.2.2 with
  | false =>
    rw [hm.eq_none (hmiss hexact)]
    simp [hexact]
  | true =>
    obtain ⟨bl, w, rfl, hslot, hbl⟩ := hhit hexact
    obtain rfl := hloc.leaves_eq
    have hlinp := hloc.linp_eq
    obtain ⟨pg, hget, hpg⟩ := Rep.getNode (D := []) harranged.tree.rep
    have hbleaf : pg.getBleaf r.2.1.index = .ok bl := by
      simp [Page.getBleaf, Page.slot, hpg.linp, hlinp, hloc.index]
    have hdata : btRetData c r.1 bl = .ok (full cs bl.bigdata bl.data) := by
      obtain ⟨bl', hbl', -, -, hbig⟩ := hslot
      obtain rfl : bl = bl' := by simpa using hbl'
      exact fullKey_spec hs.plen_pos harranged.tree.rep hbig
    have hpair : recordPair cs bl = (key, full cs bl.bigdata bl.data) := by
      rw [recordPair, ← hbl]
      rfl
    have hsome : m key = some (full cs bl.bigdata bl.data) := by
      rw [hm.mem, ← hpair, contents_split hlinp]
      simp
    simp [hexact, hloc.pgno, mpoolGet, hget, hbleaf, hdata, hsome]

theorem Sorted.get {m : Dbt → Option Dbt} (hs : Sound c) (hnodups : c.nodups = true)
    (hord : Compares c ord) (h : Sorted c ord t cs fs leaves ups)
    (hm : Represents (contents cs leaves) m) (hdepth : ups.length ≤ stackSize)
    (hkey : key.length ≤ c.ovflsize) :
    ∃ t', btGet c t key .none =
        .ok (if (m key).isSome then .success else .special, m key, t') ∧
      Sorted c ord t' cs fs leaves ups := by
  obtain ⟨st, heq⟩ := h.arranged.get hs hnodups hord hm hdepth hkey
  exact ⟨_, heq, h.frame rfl rfl rfl rfl⟩

theorem Sorted.remove {m : Dbt → Option Dbt} (hs : Sound c) (hnodups : c.nodups = true)
    (hord : Compares c ord) (hrdonly : c.rdonly = false) (h : Sorted c ord t cs fs leaves ups)
    (hm : Represents (contents cs leaves) m) (hdepth : ups.length ≤ stackSize)
    (hkey : key.length ≤ c.ovflsize) :
    ∃ t', btDelete c t key .none = .ok (if (m key).isSome then .success else .special, t') ∧
      Holds c ord t' (Function.update m key none) := by
  obtain ⟨r, A, x, B, u, v, heq, hloc, hmiss, hhit⟩ := h.arranged.search hs hnodups hord hdepth hkey
  have hsorted : Sorted c ord r.1 cs fs leaves ups := by
    rw [hloc.eq]
    exact h.frame rfl rfl rfl rfl
  rw [btDelete, if_neg (by simp [hrdonly])]
  simp only [btBdelete, bdeleteLoop, heq, ok_bind]
  cases hexact : r.2.2 with
  | false =>
    have hnone := hm.eq_none (hmiss hexact)
    have hsame : Function.update m key none = m := by rw [← hnone, Function.update_eq_self]
    refine ⟨r.1, by simp [hnone], cs, fs, leaves, ups, hsorted, ?_⟩
    rwa [hsame]
  | true =>
    obtain ⟨bl, w, rfl, hslot, hbl⟩ := hhit hexact
    obtain rfl := hloc.leaves_eq
    have hlinp := hloc.linp_eq
    obtain ⟨t₁, pg, t', heq₁, hget, hpdelete, cs', fs', leaves', ups', hsorted', hcontents⟩ :=
      hsorted.delete hs hord.total hnodups hlinp (fun _ => hloc.path) (some key)
    rw [← hloc.pgno, ← hloc.index] at heq₁
    rw [← hloc.pgno] at hget hpdelete
    have hpair : recordPair cs bl = (key, full cs bl.bigdata bl.data) := by
      rw [recordPair, ← hbl]
      rfl
    rw [contents_split hlinp, hpair] at hm
    have hsome := (hm.mem key (full cs bl.bigdata bl.data)).2 (by simp)
    refine ⟨{ t' with modified := true }, ?_, cs', fs', leaves', ups',
      hsorted'.frame rfl rfl rfl rfl, ?_⟩
    · by_cases hempty : pg.nextindex = 0
      · rw [if_pos hempty] at hpdelete
        simp [hnodups, heq₁, mpoolGet, hget, hempty, hpdelete, hsome]
      · rw [if_neg hempty] at hpdelete
        obtain rfl := Except.ok.inj hpdelete
        simp [hnodups, heq₁, mpoolGet, hget, hempty, hsome]
    · rw [hcontents]
      simpa using hm.erase

end Btree

end Bsdi.Db
