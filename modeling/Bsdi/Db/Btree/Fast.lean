import Bsdi.Db.Btree.Insert
import Bsdi.Db.Btree.Remove

/-!
# Inserts in order

`bt_fast` looks at the page of the last insert only: a leaf page of the tree, or one that was
emptied since. The first slot of an emptied page still designates the last record it had, and a key
that is not above that record is taken for a hit.
-/

namespace Bsdi.Db

open Bsdi.Lib

namespace Btree

variable {c : Config} {t : Btree} {cs : List Chain} {fs : List Pgno}
variable {leaves A B : List Node} {ups : List (List Node)} {x : Node} {key : Dbt} {bl : BLeaf}

/-- What `bt_last` designates while the check is on. -/
def Cached (t : Btree) (leaves : List Node) (fs : List Pgno) : Prop :=
  t.order ≠ .not →
    (t.last.pgno ∈ leaves.map Node.pgno ∧ (t.order = .back → t.last.pgno ≠ pRoot)) ∨
    (t.last.pgno ∈ fs ∧ ∃ h, t.pages[t.last.pgno]? = some h ∧ h.linp = [])

/-- `bt_fast` does not find a place for the pair on a page that was emptied. -/
def Fresh (c : Config) (t : Btree) (key data : Dbt) : Prop :=
  t.order ≠ .not → ∀ t₁ bl h, storePair c t key data = .ok (t₁, bl) →
    t₁.pages[t₁.last.pgno]? = some h → h.linp = [] → fastHit c t₁ bl h = .ok none

/-- A position on leaf page `x` and what is known of a key there. -/
structure Position (c : Config) (cs : List Chain) (A : List Node) (x : Node) (B : List Node)
    (ups : List (List Node)) (u v : List (Option Item)) (key : Dbt) (exact : Bool) : Prop where
  linp : x.linp = u ++ v
  hit : exact = true → v ≠ []
  placed : ∀ ord dom, TotalCmp ord → (∀ a b, dom a → dom b → c.cmp a b = ord a b) → dom key →
    Ordered ord dom cs (A ++ x :: B) ups → PlacedAt ord cs ups A u v key exact

theorem Ordered.around {ord : Dbt → Dbt → Int} {dom : Dbt → Prop} {u w : List (Option Item)}
    {d : Option Item} (hshape : Shape c cs (A ++ x :: B) ups)
    (h : Ordered ord dom cs (A ++ x :: B) ups) (hlinp : x.linp = u ++ d :: w) :
    ∃ k X low Y, slotKey cs d = some k ∧ dom k ∧ leafFences cs ups = X ++ low :: Y ∧
      X.length = A.length ∧ Y.length = B.length ∧ (Mark.low low).Before ord (.key k) ∧
      (∀ y ∈ Y.head?, (Mark.key k).Before ord (.low y)) ∧
      (∀ a ∈ u.filterMap (slotKey cs), ord a k < 0) ∧ ∀ b ∈ w.filterMap (slotKey cs), ord k b < 0 := by
  obtain ⟨k, hk, hdom⟩ := h.slots hshape (List.mem_cons_self ..) (by simp : x ∈ A ++ x :: B) d
    (by simp [hlinp])
  obtain ⟨X, low, Y, hXY, hX, hY⟩ := hshape.tower.split_fences (slotKey cs)
  have hfenced := h.fenced
  have hkeys : nodeKeys cs x = u.filterMap (slotKey cs) ++ k :: w.filterMap (slotKey cs) := by
    rw [nodeKeys, hlinp, List.filterMap_append, List.filterMap_cons_some hk]
  rw [leafFences, hXY, List.map_append, List.map_cons, hkeys] at hfenced
  have hsorted := hfenced.sorted_node (by simpa using hX)
  obtain ⟨hlow, hnext⟩ := hfenced.within (k := k) (by simpa using hX) (by simpa using hY) (by simp)
  rw [List.pairwise_append, List.pairwise_cons] at hsorted
  exact ⟨k, X, low, Y, hk, hdom, hXY, hX, hY, hlow, hnext,
    fun a ha => hsorted.2.2 a ha k (by simp), hsorted.2.1.1⟩

theorem slotCmp_eq {ord : Dbt → Dbt → Int} {dom : Dbt → Prop} {u w : List (Option Item)}
    {d : Option Item} {k : Dbt} (hcmp : ∀ a b, dom a → dom b → c.cmp a b = ord a b) (hkey : dom key)
    (hk : slotKey cs d = some k) (hdom : dom k) :
    slotCmp c cs key (u ++ d :: w) u.length = ord key k := by
  simp [slotCmp, hk, hcmp key k hkey hdom]

section

variable {u w : List (Option Item)} {d : Option Item}

theorem position_hit (hshape : Shape c cs (A ++ x :: B) ups) (hlinp : x.linp = u ++ d :: w)
    (hcmp : slotCmp c cs key x.linp u.length = 0) :
    Position c cs A x B ups u (d :: w) key true where
  linp := hlinp
  hit _ := by simp
  placed ord dom hord hagree hkey hordered := by
    obtain ⟨k, X, low, Y, hk, hdom, hXY, hX, -, hlow, hnext, hbelow, habove⟩ :=
      hordered.around hshape hlinp
    rw [hlinp, slotCmp_eq hagree hkey hk hdom, hord.eq_zero] at hcmp
    subst hcmp
    exact
      { brackets := ⟨X, low, Y, hXY, hX, hlow, hnext⟩
        below := hbelow
        hit := fun _ => ⟨d, w, rfl, hk, habove⟩
        miss := by simp }

theorem position_last (hshape : Shape c cs (A ++ [x]) ups) (hlinp : x.linp = u ++ [d])
    (hcmp : 0 < slotCmp c cs key x.linp u.length) :
    Position c cs A x [] ups x.linp [] key false where
  linp := by simp
  hit := by simp
  placed ord dom hord hagree hkey hordered := by
    obtain ⟨k, X, low, Y, hk, hdom, hXY, hX, hY, hlow, -, hbelow, -⟩ := hordered.around hshape hlinp
    rw [hlinp, slotCmp_eq hagree hkey hk hdom, ← hord.neg_swap] at hcmp
    obtain rfl := List.length_eq_zero_iff.1 hY
    exact
      { brackets := ⟨X, low, [], hXY, hX, hlow.trans hord hcmp, by simp⟩
        below := by
          rw [hlinp, List.filterMap_append]
          simp only [List.mem_append, List.filterMap_cons_some hk, List.filterMap_nil,
            List.mem_singleton]
          rintro a (ha | rfl)
          · exact hord.trans _ _ _ (hbelow a ha) hcmp
          · exact hcmp
        hit := by simp
        miss := by simp }

theorem position_first (hshape : Shape c cs (x :: B) ups) (hlinp : x.linp = d :: w)
    (hcmp : slotCmp c cs key x.linp 0 < 0) :
    Position c cs [] x B ups [] x.linp key false where
  linp := rfl
  hit := by simp
  placed ord dom hord hagree hkey hordered := by
    obtain ⟨k, X, low, Y, hk, hdom, hXY, hX, -, -, hnext, -, habove⟩ :=
      Ordered.around (A := []) (u := []) hshape hordered hlinp
    have hval : slotCmp c cs key ([] ++ d :: w) 0 = ord key k := slotCmp_eq hagree hkey hk hdom
    rw [List.nil_append, ← hlinp] at hval
    rw [hval] at hcmp
    obtain rfl := List.length_eq_zero_iff.1 hX
    obtain ⟨lows, hlows⟩ := head_fences (slotKey cs) hshape.tower.2
      fun up hup n hn => (hshape.internal up hup n hn).ne
    obtain rfl : low = none := by
      have := hXY.symm.trans hlows
      simpa using (List.cons.inj this).1
    exact
      { brackets := ⟨[], none, Y, hXY, rfl, trivial,
          fun y hy => Mark.Before.trans (b := .key k) hord hcmp (hnext y hy)⟩
        below := by simp
        hit := by simp
        miss := fun _ => by
          rw [hlinp, List.filterMap_cons_some hk]
          simp only [List.mem_cons]
          rintro b (rfl | hb)
          · exact hcmp
          · exact hord.trans _ _ _ hcmp (habove b hb) }

end

theorem lastKey_eq_zero {size : Nat} {D U : List (List Node)}
    (hrep : Rep size t.pages t.free ⟨D ++ (A ++ x :: B) :: U, cs, fs⟩) :
    lastKey Node.pgno pInvalid A = pInvalid ↔ A = [] := by
  obtain rfl | ⟨A, a, rfl⟩ := List.eq_nil_or_concat A
  · simp
  · have := (Rep.nonzero_node (A := A) (x := a) (B := x :: B) (by simpa using hrep)).1
    simpa [lastKey] using this

theorem fastHit_leaf {pg : Page} (bl : BLeaf) (hsize : 0 < plen c) (htree : Tree c t cs fs (A ++ x :: B) ups)
    (hpg : pg.Shows x (lastKey Node.pgno pInvalid A) (headKey Node.pgno pInvalid B))
    (hne : t.order ≠ .forward → x.linp ≠ []) :
    ∃ res, fastHit c t bl pg = .ok res ∧ ∀ index exact, res = some (index, exact) →
      ¬ pg.room c.psize < (Item.bl bl).nbytes + indxSize ∧
      ∃ u v, index = u.length ∧ Position c cs A x B ups u v bl.key exact := by
  have hleaf := htree.shape.leaf x (by simp)
  have hB := headKey_eq_zero (D := []) htree.rep
  have hA := lastKey_eq_zero (D := []) htree.rep
  rw [fastHit, hpg.nextpg, hpg.prevpg, Page.nextindex, hpg.linp]
  split_ifs with hroom hforward hedge hedge
  · exact ⟨none, rfl, by simp⟩
  · exact ⟨none, rfl, by simp⟩
  · -- the key is compared with the last record of the last page
    simp only [not_or, not_not] at hedge
    obtain rfl := hB.1 hedge.1
    obtain ⟨u, d, w, hlinp, hu⟩ := exists_split (l := x.linp) (i := t.last.index) (by omega)
    obtain rfl : w = [] := by
      have := congrArg List.length hlinp
      simp only [List.length_append, List.length_cons] at this
      exact List.length_eq_zero_iff.1 (by omega)
    rw [btCmp_leaf hsize htree.rep hleaf hpg (by omega), ok_bind, ← hu]
    refine ⟨_, rfl, fun index exact hres => ⟨hroom, ?_⟩⟩
    split_ifs at hres with hneg hzero
    · obtain ⟨rfl, rfl⟩ := Prod.mk.inj (Option.some.inj hres)
      exact ⟨u, [d], rfl, by simpa [hzero] using position_hit htree.shape hlinp hzero⟩
    · obtain ⟨rfl, rfl⟩ := Prod.mk.inj (Option.some.inj hres)
      refine ⟨x.linp, [], by simp [hlinp], ?_⟩
      simpa [hzero] using position_last htree.shape hlinp (by omega)
  · exact ⟨none, rfl, by simp⟩
  · -- the key is compared with the first record of the first page
    simp only [not_or, not_not] at hedge
    obtain rfl := hA.1 hedge.1
    obtain ⟨d, w, hlinp⟩ := List.exists_cons_of_ne_nil (hne hforward)
    rw [hedge.2, btCmp_leaf hsize htree.rep hleaf hpg (by simp [hlinp]), ok_bind]
    refine ⟨_, rfl, fun index exact hres => ⟨hroom, ?_⟩⟩
    split_ifs at hres with hpos
    obtain ⟨rfl, rfl⟩ := Prod.mk.inj (Option.some.inj hres)
    refine ⟨[], x.linp, rfl, ?_⟩
    by_cases hzero : slotCmp c cs bl.key x.linp 0 = 0
    · simpa [hzero, ← hlinp] using position_hit (A := []) (u := []) htree.shape hlinp hzero
    · simpa [hzero] using position_first htree.shape hlinp (by omega)

theorem fastHit_overflow {h : Page} (htype : h.type = .overflow) : fastHit c t bl h = .ok none := by
  rw [fastHit, if_pos]
  simp [Page.room, htype, indxSize]

/-- The position `__bt_put` finds on leaf page `x`, and how it found it: by a search, which
leaves the path on the stack, or by the check, which knows that there is room. -/
structure Finds (c : Config) (t : Btree) (cs : List Chain) (A : List Node) (x : Node)
    (B : List Node) (ups : List (List Node)) (u v : List (Option Item)) (bl : BLeaf)
    (r : Btree × Epgno × Bool) : Prop where
  at_ : r.2.1 = ⟨x.pgno, u.length⟩
  position : Position c cs A x B ups u v bl.key r.2.2
  how : (btSearch c { t with order := .not } bl.key = .ok r ∧
      r.1 = { t with order := .not, stack := r.1.stack } ∧
      Path Node.linp Node.pgno ups A.length (path r.1.stack)) ∨
    (r.1 = { t with last := r.2.1 } ∧ t.order ≠ .not ∧ (t.order = .back → x.pgno ≠ pRoot) ∧
      ∀ pg, t.pages[x.pgno]? = some pg → ¬ pg.room c.psize < (Item.bl bl).nbytes + indxSize)

theorem search_finds (hs : Sound c) (hnodups : c.nodups = true) (htree : Tree c t cs fs leaves ups)
    (hdepth : ups.length ≤ stackSize) (bl : BLeaf) :
    ∃ r A x B u v, btSearch c { t with order := .not } bl.key = .ok r ∧ leaves = A ++ x :: B ∧
      Finds c t cs A x B ups u v bl r := by
  obtain ⟨r, A, x, B, u, v, heq, hloc, hplaced⟩ := btSearch_spec bl.key
    (t := { t with order := .not }) hs.plen_pos hnodups htree.shape htree.rep hdepth
  obtain rfl := hloc.leaves_eq
  refine ⟨r, A, x, B, u, v, heq, rfl, ?_, ⟨hloc.linp_eq, hloc.hit, hplaced⟩,
    .inl ⟨heq, hloc.eq, hloc.path⟩⟩
  rw [← hloc.pgno, ← hloc.index]

/-- The page `bt_last` designates is a leaf page, or the check fails there. -/
def CacheMiss (c : Config) (t : Btree) (leaves : List Node) (bl : BLeaf) : Prop :=
  t.order ≠ .not →
    (t.last.pgno ∈ leaves.map Node.pgno ∧ (t.order = .back → t.last.pgno ≠ pRoot)) ∨
    ∃ h, t.pages[t.last.pgno]? = some h ∧ fastHit c t bl h = .ok none

theorem putSearch_spec (bl : BLeaf) (hs : Sound c) (hnodups : c.nodups = true)
    (htree : Tree c t cs fs leaves ups) (hfilled : Filled leaves ups)
    (hdepth : ups.length ≤ stackSize) (hcache : CacheMiss c t leaves bl) :
    ∃ r A x B u v, putSearch c t bl = .ok r ∧ leaves = A ++ x :: B ∧
      Finds c t cs A x B ups u v bl r := by
  obtain ⟨r, A, x, B, u, v, heq, hleaves, hfinds⟩ := search_finds hs hnodups htree hdepth bl
  by_cases horder : t.order = .not
  · refine ⟨r, A, x, B, u, v, ?_, hleaves, hfinds⟩
    rw [putSearch, if_pos horder, ← heq, ← horder]
  have hmiss : ∀ h, t.pages[t.last.pgno]? = some h → fastHit c t bl h = .ok none →
      ∃ r A x B u v, putSearch c t bl = .ok r ∧ leaves = A ++ x :: B ∧
        Finds c t cs A x B ups u v bl r := by
    intro h hget hhit
    refine ⟨r, A, x, B, u, v, ?_, hleaves, hfinds⟩
    rw [putSearch, if_neg horder]
    simp only [btFast, hget, hhit, ok_bind]
    exact heq
  rcases hcache horder with ⟨hmem, hroot⟩ | ⟨h, hget, hhit⟩
  · obtain ⟨x', hx', hpgno⟩ := List.mem_map.1 hmem
    obtain ⟨A', B', rfl⟩ := List.append_of_mem hx'
    obtain ⟨pg, hget, hpg⟩ := Rep.getNode (D := []) htree.rep
    rw [hpgno] at hget
    have hne : t.order ≠ .forward → x'.linp ≠ [] := by
      intro hforward
      have hback : t.order = .back := by
        cases ho : t.order with
        | not => exact absurd ho horder
        | back => rfl
        | forward => exact absurd ho hforward
      refine hfilled (fun hups => hroot hback ?_) x' (by simp)
      subst hups
      have hroot' := htree.shape.tower.1
      simp only [kids, List.map_append, List.map_cons] at hroot'
      obtain rfl : A' = [] := by
        have := congrArg List.length hroot'
        simp only [List.length_append, List.length_map, List.length_cons, List.length_nil] at this
        exact List.length_eq_zero_iff.1 (by omega)
      rw [← hpgno]
      exact Option.some.inj (List.cons.inj hroot').1
    obtain ⟨res, heq', hres⟩ := fastHit_leaf bl hs.plen_pos htree hpg hne
    cases res with
    | none => exact hmiss pg hget heq'
    | some hit =>
      obtain ⟨index, exact⟩ := hit
      obtain ⟨hroom, u', v', rfl, hposition⟩ := hres index exact rfl
      refine ⟨({ t with last := ⟨t.last.pgno, u'.length⟩ }, ⟨t.last.pgno, u'.length⟩, exact),
        A', x', B', u', v', ?_, rfl, ⟨?_, hposition, .inr ⟨rfl, horder, ?_, ?_⟩⟩⟩
      · rw [putSearch, if_neg horder]
        simp only [btFast, hget, heq', ok_bind]
      · rw [hpgno]
      · rw [hpgno]
        exact hroot
      · intro pg' hget'
        rw [hpgno, hget] at hget'
        obtain rfl := Option.some.inj hget'
        exact hroom
  · exact hmiss h hget hhit

end Btree

end Bsdi.Db
