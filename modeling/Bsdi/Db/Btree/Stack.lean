import Bsdi.Db.Btree.Records
import Mathlib.Data.List.Induction
import Mathlib.Data.List.Perm.Subperm

/-!
# Acquiring the stack of the cursor's page

`__bt_stkacq` searches for the cursor's key and walks over the leaf pages, to the right and then
to the left, until it is on the cursor's page.
-/

namespace Bsdi.Db

open Bsdi.Lib

namespace Btree

variable {c : Config} {t : Btree} {cs : List Chain} {fs : List Pgno}
variable {leaves A B : List Node} {ups : List (List Node)} {x : Node} {stack : List Epgno}

/-- The internal levels of a tree are on its pages. -/
structure OnPages (c : Config) (cs : List Chain) (t : Btree) (ups : List (List Node)) : Prop where
  shows : ∀ up ∈ ups, ∀ n ∈ up, ∃ h, t.pages[n.pgno]? = some h ∧ h.pgno = n.pgno ∧ h.linp = n.linp
  internal : ∀ up ∈ ups, ∀ n ∈ up, InternalNode c cs n
  tower : Tower Node.linp slotChild Node.pgno pRoot ups

theorem onPages (hshape : Shape c cs leaves ups)
    (hrep : Rep (plen c) t.pages t.free ⟨leaves :: ups, cs, fs⟩) : OnPages c cs t ups where
  shows up hup n hn := by
    obtain ⟨D, U, hups⟩ := List.append_of_mem (List.mem_cons_of_mem leaves hup)
    obtain ⟨A, B, rfl⟩ := List.append_of_mem hn
    rw [hups] at hrep
    obtain ⟨h, hget, hshows⟩ := hrep.getNode
    exact ⟨h, hget, hshows.pgno, hshows.linp⟩
  internal := hshape.internal
  tower := hshape.tower.2

/-- The neighbour of node `i` on its level: the next one or the previous one. -/
def Neighbour (right : Bool) (i j : Nat) : Prop := if right then j = i + 1 else i = j + 1

theorem slotCount_append (A B : List Node) :
    slotCount Node.linp (A ++ B) = slotCount Node.linp A + slotCount Node.linp B := by
  rw [slotCount, slotCount, slotCount, List.flatMap_append, List.length_append]

theorem slotCount_single (n : Node) : slotCount Node.linp [n] = n.linp.length := by
  simp [slotCount]

theorem neighbour_node {right : Bool} {A' B' : List Node} {n m : Node}
    (h : A ++ n :: B = A' ++ m :: B') (hnext : Neighbour right A.length A'.length) :
    (right = true → A' = A ++ [n] ∧ B = m :: B') ∧ (right = false → A = A' ++ [m]) := by
  constructor
  · rintro rfl
    have hlen : A'.length = (A ++ [n]).length := by
      simpa [Neighbour] using hnext
    have hsplit : (A ++ [n]) ++ B = A' ++ m :: B' := by simpa using h
    obtain ⟨hA, hB⟩ := List.append_inj hsplit hlen.symm
    exact ⟨hA.symm, hB⟩
  · rintro rfl
    have hlen : A.length = (A' ++ [m]).length := by
      simpa [Neighbour] using hnext
    have hsplit : A ++ n :: B = (A' ++ [m]) ++ B' := by simpa using h
    exact (List.append_inj hsplit hlen).1

theorem stkNeighbour_some {right : Bool} {hp : Page} {e : Epgno} {index j a : Nat}
    (h : stkNeighbour right hp e = some index) (hk : e.index < hp.nextindex)
    (hnext : Neighbour right (a + e.index) j) : index < hp.nextindex ∧ j = a + index := by
  cases right with
  | true =>
    simp only [stkNeighbour, Neighbour, if_true] at h hnext
    split_ifs at h
    obtain rfl := Option.some.inj h
    omega
  | false =>
    simp only [stkNeighbour, Neighbour, Bool.false_eq_true, if_false] at h hnext
    split_ifs at h
    obtain rfl := Option.some.inj h
    omega

theorem stkNeighbour_none {right : Bool} {hp : Page} {e : Epgno}
    (h : stkNeighbour right hp e = none) :
    (right = true → e.index + 1 = hp.nextindex) ∧ (right = false → e.index = 0) := by
  cases right with
  | true =>
    simp only [stkNeighbour, if_true] at h
    split_ifs at h with hne
    exact ⟨fun _ => not_not.1 hne, (nomatch ·)⟩
  | false =>
    simp only [stkNeighbour, Bool.false_eq_true, if_false] at h
    split_ifs at h with hne
    exact ⟨(nomatch ·), fun _ => not_not.1 hne⟩

theorem length_kids_cons (up : List Node) (ups : List (List Node)) :
    (kids Node.linp slotChild pRoot (up :: ups)).length = slotCount Node.linp up := by
  rw [kids, slotCount, List.length_flatMap, List.length_flatMap]
  simp

theorem neighbour_above {right : Bool} {n : Node} {k j : Nat}
    (hedge : (right = true → k + 1 = n.linp.length) ∧ (right = false → k = 0))
    (hnext : Neighbour right (slotCount Node.linp A + k) j)
    (hj : j < slotCount Node.linp (A ++ n :: B)) :
    ∃ j', Neighbour right A.length j' ∧ j' < (A ++ n :: B).length := by
  cases right with
  | true =>
    refine ⟨A.length + 1, rfl, ?_⟩
    have hk := hedge.1 rfl
    have hnext : j = slotCount Node.linp A + k + 1 := hnext
    have hB : B ≠ [] := by
      rintro rfl
      rw [slotCount_append, slotCount_single] at hj
      omega
    have := List.length_pos_iff.2 hB
    simp only [List.length_append, List.length_cons]
    omega
  | false =>
    have hk := hedge.2 rfl
    have hnext : slotCount Node.linp A + k = j + 1 := hnext
    have hA : A ≠ [] := by
      rintro rfl
      simp [slotCount] at hnext
      omega
    have := List.length_pos_iff.2 hA
    refine ⟨A.length - 1, ?_, ?_⟩
    · show A.length = A.length - 1 + 1
      omega
    · simp only [List.length_append, List.length_cons]
      omega

theorem stkMove {right : Bool} {i j : Nat} (h : OnPages c cs t ups)
    (hpath : Path Node.linp Node.pgno ups i (path stack)) (hnext : Neighbour right i j)
    (hj : j < (kids Node.linp slotChild pRoot ups).length) (level : Nat) :
    ∃ d pg index st e rest hp, stkUp t right level stack = .ok (level + d, some (pg, index), st) ∧
      t.pages[e.pgno]? = some hp ∧
      (∀ m, stkDown t right (d + m) pg index st = stkDown t right m hp e.index (e :: rest)) ∧
      Path Node.linp Node.pgno ups j (path (e :: rest)) := by
  -- by induction on the levels, from the one over the leaf pages up
  induction ups generalizing i j stack level with
  | nil =>
    obtain ⟨rfl, -⟩ := hpath
    rw [kids, List.length_singleton] at hj
    rw [Neighbour] at hnext
    split at hnext <;> omega
  | cons up ups ih =>
    obtain ⟨A, n, B, k, rest, rfl, hk, rfl, hstack, hrest⟩ := hpath
    obtain ⟨e, rest, rfl, he, rfl⟩ := List.map_eq_cons_iff.1 hstack
    obtain ⟨hpgno, hindex⟩ := Prod.mk.inj he
    obtain ⟨hp, hget, hself, hlinp⟩ := h.shows _ (List.mem_cons_self ..) n (by simp)
    have hnextindex : hp.nextindex = n.linp.length := by rw [Page.nextindex, hlinp]
    rw [stkUp, mpoolGet, hpgno, hget]
    simp only [ok_bind]
    cases hneigh : stkNeighbour right hp e with
    | some index =>
      -- the path moves on this page
      refine ⟨0, hp, index, _, ⟨hp.pgno, index⟩, rest, hp, rfl, by rw [hself]; exact hget,
        fun m => by rw [Nat.zero_add], A, n, B, index, path rest, rfl, ?_, ?_, ?_, hrest⟩
      · exact hnextindex ▸ (stkNeighbour_some hneigh (by omega) (hindex ▸ hnext)).1
      · exact (stkNeighbour_some hneigh (by omega) (hindex ▸ hnext)).2
      · rw [hself]
        rfl
    | none =>
      -- the path moves on a page above, and comes back at the edge of the next node
      have hedge := stkNeighbour_none hneigh
      rw [hnextindex, hindex] at hedge
      rw [length_kids_cons] at hj
      obtain ⟨j', hnext', hj'⟩ := neighbour_above hedge hnext hj
      have hkids : (A ++ n :: B).length = (kids Node.linp slotChild pRoot ups).length := by
        rw [← h.tower.1, List.length_map]
      obtain ⟨d, pg, index, st, e', rest', hp', hup, hget', hdown, hpath'⟩ :=
        ih ⟨fun up hup => h.shows up (by simp [hup]), fun up hup => h.internal up (by simp [hup]),
          h.tower.2⟩ hrest hnext' (hkids ▸ hj') (level + 1)
      cases ups with
      | nil =>
        obtain ⟨-, hnil⟩ := hpath'
        cases hnil
      | cons up₂ ups₂ =>
        obtain ⟨A₂, n₂, B₂, k₂, rest₂, rfl, hk₂, rfl, hstack₂, hrest₂⟩ := id hpath'
        obtain ⟨he', hrest'⟩ := List.cons.inj hstack₂
        obtain ⟨hpgno₂, hindex₂⟩ := Prod.mk.inj he'
        obtain ⟨hp₂, hget₂, hself₂, hlinp₂⟩ := h.shows (A₂ ++ n₂ :: B₂) (by simp) n₂ (by simp)
        obtain rfl : hp' = hp₂ := by
          rw [hpgno₂, hget₂] at hget'
          exact (Option.some.inj hget').symm
        obtain ⟨u, s, w, hslot, hu⟩ := exists_split hk₂
        have hn₂ := h.internal (A₂ ++ n₂ :: B₂) (by simp) n₂ (by simp)
        obtain ⟨bi, rfl, -⟩ := hn₂.slots s (by simp [hslot])
        obtain ⟨A', m, B', hlevel, hA', hm⟩ := h.tower.child_node hslot rfl
        rw [hu] at hA'
        rw [← hA'] at hnext' hpath'
        obtain ⟨hright, hleft⟩ := neighbour_node hlevel hnext'
        obtain ⟨hpm, hgetm, hselfm, hlinpm⟩ := h.shows _ (List.mem_cons_self ..) m
          (by rw [hlevel]; simp)
        have hgetbi : hp'.getBinternal e'.index = .ok bi := by
          simp [Page.getBinternal, Page.slot, hlinp₂, hslot, hindex₂, ← hu]
        have hpos : 0 < m.linp.length := List.length_pos_of_ne_nil
          (h.internal _ (List.mem_cons_self ..) m (by rw [hlevel]; simp)).ne
        refine ⟨d + 1, pg, index, st,
          ⟨m.pgno, if right then 0 else hpm.nextindex - 1⟩, e' :: rest', hpm, ?_, hgetm, ?_, ?_⟩
        · have hlevels : level + 1 + d = level + (d + 1) := by omega
          rw [hup, hlevels]
        · intro l
          have hdl : d + 1 + l = d + (l + 1) := by omega
          rw [hdl, hdown, stkDown, hgetbi, ok_bind, ← hm, mpoolGet, hgetm, ok_bind]
        · refine ⟨A', m, B', if right then 0 else hpm.nextindex - 1, path (e' :: rest'), hlevel,
            ?_, ?_, rfl, hpath'⟩
          · rw [Page.nextindex, hlinpm]
            split <;> omega
          · rw [Page.nextindex, hlinpm]
            cases right with
            | true =>
              have hk' := hedge.1 rfl
              have hnext : j = slotCount Node.linp A + k + 1 := hnext
              rw [(hright rfl).1, slotCount_append, slotCount_single, if_pos rfl]
              omega
            | false =>
              have hk' := hedge.2 rfl
              have hnext : slotCount Node.linp A + k = j + 1 := hnext
              rw [hleft rfl, slotCount_append, slotCount_single] at hnext
              rw [if_neg (by simp)]
              omega

theorem stkStep_spec (right : Bool) {i j : Nat} (h : OnPages c cs t ups)
    (hpath : Path Node.linp Node.pgno ups i (path t.stack)) (hnext : Neighbour right i j)
    (hj : j < (kids Node.linp slotChild pRoot ups).length) :
    ∃ st, stkStep t right = .ok { t with stack := st } ∧
      Path Node.linp Node.pgno ups j (path st) := by
  obtain ⟨d, pg, index, st, e, rest, hp, hup, -, hdown, hpath'⟩ := stkMove h hpath hnext hj 0
  have hall := hdown 0
  rw [Nat.add_zero] at hall
  refine ⟨e :: rest, ?_, hpath'⟩
  rw [stkStep, hup, ok_bind]
  simp only [Nat.zero_add]
  rw [hall, stkDown, ok_bind]

variable {p : Pgno}

theorem leaf_page (hrep : Rep (plen c) t.pages t.free ⟨(A ++ x :: B) :: ups, cs, fs⟩) :
    ∃ h, t.mpoolGet x.pgno = .ok h ∧ h.pgno = x.pgno ∧
      h.prevpg = lastKey Node.pgno pInvalid A ∧ h.nextpg = headKey Node.pgno pInvalid B := by
  obtain ⟨h, hget, hshows⟩ := Rep.getNode (D := []) hrep
  exact ⟨h, by rw [mpoolGet, hget], hshows.pgno, hshows.prevpg, hshows.nextpg⟩

theorem stkWalk_right {f : Nat} (h : OnPages c cs t ups)
    (hrep : Rep (plen c) t.pages t.free ⟨(A ++ x :: B) :: ups, cs, fs⟩)
    (htower : Tower Node.linp slotChild Node.pgno pRoot ((A ++ x :: B) :: ups))
    (hpath : Path Node.linp Node.pgno ups A.length (path t.stack)) (hfuel : B.length < f) :
    ∃ st A' x' B', stkWalk true p f t x.pgno = .ok ({ t with stack := st }, x'.pgno) ∧
      A ++ x :: B = A' ++ x' :: B' ∧ Path Node.linp Node.pgno ups A'.length (path st) ∧
      (x'.pgno = p ∨ p ∉ (x :: B).map Node.pgno) := by
  induction B generalizing A x t f with
  | nil =>
    obtain ⟨fuel, rfl⟩ := Nat.exists_eq_add_of_lt hfuel
    obtain ⟨hp, hget, hself, -, hnext⟩ := leaf_page hrep
    refine ⟨t.stack, A, x, [], ?_, rfl, hpath, ?_⟩
    · rw [stkWalk, hget, ok_bind]
      simp [hnext, hself]
    · by_cases heq : x.pgno = p
      · exact .inl heq
      · exact .inr (by simpa using Ne.symm heq)
  | cons y B ih =>
    obtain ⟨fuel, rfl⟩ := Nat.exists_eq_add_of_lt hfuel
    obtain ⟨hp, hget, hself, -, hnext⟩ := leaf_page hrep
    have hzero : y.pgno ≠ pInvalid := (Rep.nonzero_node (D := []) (A := A ++ [x])
      (x := y) (B := B) (U := ups) (by simpa using hrep)).1
    by_cases heq : x.pgno = p
    · refine ⟨t.stack, A, x, y :: B, ?_, rfl, hpath, .inl heq⟩
      rw [stkWalk, hget, ok_bind]
      simp [hself, heq]
    · have hlen : (kids Node.linp slotChild pRoot ups).length = (A ++ x :: y :: B).length := by
        rw [← htower.1, List.length_map]
      obtain ⟨st, hstep, hpath'⟩ := stkStep_spec true (j := A.length + 1) h hpath rfl
        (by rw [hlen]; simp)
      obtain ⟨st', A', x', B', hwalk, hsplit, hpath'', hfound⟩ :=
        ih (A := A ++ [x]) (x := y) (t := { t with stack := st }) (f := (y :: B).length + fuel)
          ⟨h.shows, h.internal, h.tower⟩ (by simpa using hrep) (by simpa using htower)
          (by simpa using hpath') (by simp; omega)
      refine ⟨st', A', x', B', ?_, by simpa using hsplit, hpath'', ?_⟩
      · rw [stkWalk, hget, ok_bind]
        simp only [if_true, hself, heq, hnext, headKey_cons, hzero, or_self, if_false, hstep,
          ok_bind]
        exact hwalk
      · rcases hfound with hfound | hfound
        · exact .inl hfound
        · refine .inr ?_
          rw [List.map_cons, List.mem_cons, not_or]
          exact ⟨Ne.symm heq, hfound⟩

theorem stkWalk_left {f : Nat} (h : OnPages c cs t ups)
    (hrep : Rep (plen c) t.pages t.free ⟨(A ++ x :: B) :: ups, cs, fs⟩)
    (htower : Tower Node.linp slotChild Node.pgno pRoot ((A ++ x :: B) :: ups))
    (hpath : Path Node.linp Node.pgno ups A.length (path t.stack)) (hfuel : A.length < f) :
    ∃ st A' x' B' q, stkWalk false p f t x.pgno = .ok ({ t with stack := st }, q) ∧
      A ++ x :: B = A' ++ x' :: B' ∧ Path Node.linp Node.pgno ups A'.length (path st) ∧
      (x'.pgno = p ∨ p ∉ (A ++ [x]).map Node.pgno) := by
  induction A using List.reverseRecOn generalizing x B t f with
  | nil =>
    obtain ⟨fuel, rfl⟩ := Nat.exists_eq_add_of_lt hfuel
    obtain ⟨hp, hget, hself, hprev, -⟩ := leaf_page hrep
    refine ⟨t.stack, [], x, B, x.pgno, ?_, rfl, hpath, ?_⟩
    · rw [stkWalk, hget, ok_bind]
      simp [hprev, hself]
    · by_cases heq : x.pgno = p
      · exact .inl heq
      · exact .inr (by simpa using Ne.symm heq)
  | append_singleton A y ih =>
    obtain ⟨fuel, rfl⟩ := Nat.exists_eq_add_of_lt hfuel
    obtain ⟨hp, hget, hself, hprev, -⟩ := leaf_page hrep
    have hzero : y.pgno ≠ pInvalid := (Rep.nonzero_node (D := []) (A := A) (x := y) (B := x :: B)
      (U := ups) (by simpa using hrep)).1
    by_cases heq : x.pgno = p
    · refine ⟨t.stack, A ++ [y], x, B, x.pgno, ?_, rfl, hpath, .inl heq⟩
      rw [stkWalk, hget, ok_bind]
      simp [hself, heq]
    · have hlen : (kids Node.linp slotChild pRoot ups).length = (A ++ [y] ++ x :: B).length := by
        rw [← htower.1, List.length_map]
      obtain ⟨st, hstep, hpath'⟩ := stkStep_spec false (j := A.length) h hpath
        (by simp [Neighbour]) (by rw [hlen]; simp)
      obtain ⟨st', A', x', B', q, hwalk, hsplit, hpath'', hfound⟩ :=
        ih (x := y) (B := x :: B) (t := { t with stack := st }) (f := (A ++ [y]).length + fuel)
          ⟨h.shows, h.internal, h.tower⟩ (by simpa using hrep) (by simpa using htower)
          hpath' (by simp; omega)
      refine ⟨st', A', x', B', q, ?_, by simpa using hsplit, hpath'', ?_⟩
      · have hprev' : hp.prevpg = y.pgno := by rw [hprev, lastKey_append]; rfl
        rw [stkWalk, hget, ok_bind]
        simp only [Bool.false_eq_true, hself, heq, hprev', hzero, or_self, if_false, hstep,
          ok_bind]
        exact hwalk
      · rcases hfound with hfound | hfound
        · exact .inl hfound
        · refine .inr ?_
          rw [List.map_append, List.mem_append, not_or]
          exact ⟨hfound, by simpa using Ne.symm heq⟩

theorem length_leaves (hrep : Rep (plen c) t.pages t.free ⟨leaves :: ups, cs, fs⟩) :
    leaves.length ≤ t.pages.length := by
  have hnodup : (leaves.map Node.pgno).Nodup := (Rep.nodup_level (D := []) hrep).1
  have hsub : leaves.map Node.pgno ⊆ List.range t.pages.length := by
    intro q hq
    refine List.mem_range.2 (hrep.lt_length q ?_)
    rw [View.pgnos, List.flatten_cons, List.map_append]
    exact List.mem_append_left _ (List.mem_append_left _ hq)
  have hle := (hnodup.subperm hsub).length_le
  simpa using hle

theorem leaf_unique {A' B' : List Node} {x' : Node}
    (hrep : Rep (plen c) t.pages t.free ⟨(A ++ x :: B) :: ups, cs, fs⟩)
    (h : A ++ x :: B = A' ++ x' :: B') (hpgno : x'.pgno = x.pgno) : A' = A := by
  have hnodup : ((A ++ x :: B).map Node.pgno).Nodup := (Rep.nodup_level (D := []) hrep).1
  have hget : ((A ++ x :: B).map Node.pgno)[A.length]? = some x.pgno := by simp
  have hget' : ((A ++ x :: B).map Node.pgno)[A'.length]? = some x.pgno := by
    rw [h]
    simp [hpgno]
  have hlen : A'.length = A.length := by
    obtain ⟨hlt, -⟩ := List.getElem?_eq_some_iff.1 hget'
    exact (List.getElem?_inj hlt hnodup).1 (hget'.trans hget.symm)
  exact ((List.append_inj h hlen.symm).1).symm

theorem btStkacq_spec (hsize : 0 < plen c) (hnodups : c.nodups = true)
    (hshape : Shape c cs (A ++ x :: B) ups)
    (hrep : Rep (plen c) t.pages t.free ⟨(A ++ x :: B) :: ups, cs, fs⟩)
    (hdepth : ups.length ≤ stackSize) (hcursor : t.cursor.pg.pgno = x.pgno) :
    ∃ st, btStkacq c t = .ok { t with stack := st } ∧
      Path Node.linp Node.pgno ups A.length (path st) := by
  obtain ⟨⟨t₁, e, exact⟩, A₁, x₁, B₁, u, v, hsearch, hloc, -⟩ :=
    btSearch_spec t.cursor.key hsize hnodups hshape hrep hdepth
  obtain ⟨hleaves, -, heq, hpath, hpgno, -⟩ := hloc
  obtain ⟨st₁, rfl⟩ : ∃ st, t₁ = { t with stack := st } := ⟨_, heq⟩
  replace hpgno : e.pgno = x₁.pgno := hpgno
  have hpages : OnPages c cs { t with stack := st₁ } ups := onPages hshape hrep
  have hlen : (A₁ ++ x₁ :: B₁).length ≤ t.pages.length := hleaves ▸ length_leaves hrep
  rw [List.length_append, List.length_cons] at hlen
  have hrep₁ := hrep
  have htower₁ := hshape.tower
  rw [hleaves] at hrep₁ htower₁
  obtain ⟨st₂, A₂, x₂, B₂, hwalk, hsplit, hpath₂, hfound⟩ := stkWalk_right (p := x.pgno)
    (t := { t with stack := st₁ }) (f := t.pages.length + 1) hpages hrep₁ htower₁ hpath (by omega)
  rw [btStkacq, hsearch]
  simp only [ok_bind, hpgno, hcursor, hwalk]
  by_cases hright : x₂.pgno = x.pgno
  · -- the page is to the right of where the key belongs
    rw [leaf_unique hrep (hleaves.trans hsplit) hright] at hpath₂
    exact ⟨st₂, by simp [hright], hpath₂⟩
  · -- start again and go to the left
    have hagain : btSearch c { t with stack := st₂ } t.cursor.key =
        .ok ({ t with stack := st₁ }, e, exact) := hsearch
    obtain ⟨st₃, A₃, x₃, B₃, q, hwalk₃, hsplit₃, hpath₃, hfound₃⟩ := stkWalk_left (p := x.pgno)
      (t := { t with stack := st₁ }) (f := t.pages.length + 1) hpages hrep₁ htower₁ hpath (by omega)
    have hpg : x₃.pgno = x.pgno := by
      refine hfound₃.resolve_right fun hleft => ?_
      have hmem : x.pgno ∈ (A₁ ++ x₁ :: B₁).map Node.pgno := by
        rw [← hleaves]
        simp
      rw [List.map_append, List.mem_append] at hmem hleft
      exact hmem.elim (fun h => hleft (.inl h)) (hfound.resolve_left hright)
    rw [leaf_unique hrep (hleaves.trans hsplit₃) hpg] at hpath₃
    exact ⟨st₃, by simp only [hright, if_false, hagain, ok_bind, hpgno, hcursor, hwalk₃], hpath₃⟩

end Btree

end Bsdi.Db
