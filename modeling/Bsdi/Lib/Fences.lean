import Bsdi.Lib.BinarySearch
import Mathlib.Data.List.Forall2

/-!
# Search trees, level by level

A search tree is described by its levels, from the lowest one up. A level is the list of its nodes
and a node has a list of slots, which lead to the nodes of the level below. The fences of a level
are the lower bounds that the slots above set for its nodes; the first slot of a node sets none.

The order of the whole tree is a condition on the list of a level's fences and keys.
-/

namespace Bsdi.Lib

variable {ν ε κ π : Type*} (slots : ν → List ε) (fence : ε → Option κ)

/-! ## Positions in lists -/

section

variable {α : Type*} {l l' U V : List α} {i : Nat} {a x : α}

theorem exists_split (h : i < l.length) : ∃ U a V, l = U ++ a :: V ∧ U.length = i :=
  ⟨l.take i, l[i], l.drop (i + 1), by simp, by simp; omega⟩

/-- `l'` is `l` with `x` behind position `i`. -/
def InsertedAfter (i : Nat) (x : α) (l l' : List α) : Prop :=
  ∃ U a V, l = U ++ a :: V ∧ U.length = i ∧ l' = U ++ a :: x :: V

theorem insertedAfter_append (hU : U.length = i + 1) :
    InsertedAfter i x (U ++ V) (U ++ x :: V) := by
  obtain rfl | ⟨U, a, rfl⟩ := List.eq_nil_or_concat U
  · simp at hU
  · exact ⟨U, a, V, by simp, by simpa using hU, by simp⟩

theorem InsertedAfter.eq (h : InsertedAfter i x l l') (hl : l = U ++ a :: V)
    (hU : U.length = i) : l' = U ++ a :: x :: V := by
  obtain ⟨U', a', V', rfl, hU', rfl⟩ := h
  obtain ⟨rfl, hV⟩ := List.append_inj hl (by omega)
  simp_all

end

/-! ## Fences -/

/-- The fences that the slots of one node set, the node itself starting at `low`. -/
def nodeFences (low : Option κ) : List ε → List (Option κ)
  | [] => []
  | _ :: rest => low :: rest.map fence

/-- The fences that the slots of a level set. -/
def levelFences : List (Option κ) → List ν → List (Option κ)
  | low :: lows, n :: level => nodeFences fence low (slots n) ++ levelFences lows level
  | _, _ => []

/-- The fences of the level below the given ones. The lowest of these comes first. -/
def fences : List (List ν) → List (Option κ)
  | [] => [none]
  | level :: ups => levelFences slots fence (fences ups) level

/-- The number of slots of a level. -/
def slotCount (level : List ν) : Nat := (level.flatMap slots).length

variable {slots fence} {low : Option κ} {X Y : List (Option κ)} {A B : List ν} {n : ν}

@[simp] theorem length_nodeFences (es : List ε) :
    (nodeFences fence low es).length = es.length := by
  cases es <;> simp [nodeFences]

@[simp] theorem slotCount_nil : slotCount slots ([] : List ν) = 0 := rfl

@[simp] theorem slotCount_cons : slotCount slots (n :: A) = (slots n).length + slotCount slots A := by
  simp [slotCount]

theorem length_levelFences (h : X.length = A.length) :
    (levelFences slots fence X A).length = slotCount slots A := by
  induction A generalizing X with
  | nil =>
    obtain rfl := List.length_eq_zero_iff.1 h
    rfl
  | cons n A ih =>
    obtain ⟨x, X, rfl⟩ := List.exists_cons_of_length_eq_add_one h
    simp [levelFences, ih (by simpa using h)]

theorem levelFences_append (h : X.length = A.length) :
    levelFences slots fence (X ++ Y) (A ++ B) =
      levelFences slots fence X A ++ levelFences slots fence Y B := by
  induction A generalizing X with
  | nil =>
    obtain rfl := List.length_eq_zero_iff.1 h
    rfl
  | cons n A ih =>
    obtain ⟨x, X, rfl⟩ := List.exists_cons_of_length_eq_add_one h
    simp [levelFences, ih (by simpa using h)]

theorem levelFences_append_cons (h : X.length = A.length) :
    levelFences slots fence (X ++ low :: Y) (A ++ n :: B) =
      levelFences slots fence X A ++ nodeFences fence low (slots n) ++
        levelFences slots fence Y B := by
  rw [levelFences_append h, levelFences, List.append_assoc]

/-- Splitting a node changes no fence, if the new node starts with the fence of its
first slot. -/
theorem nodeFences_append {u w : List ε} {e : ε} (hu : u ≠ []) :
    nodeFences fence low (u ++ e :: w) =
      nodeFences fence low u ++ nodeFences fence (fence e) (e :: w) := by
  obtain ⟨d, u, rfl⟩ := List.exists_cons_of_ne_nil hu
  simp [nodeFences]

/-- A slot behind the first of a node sets its own fence. -/
theorem nodeFences_insert {u v : List ε} {d e : ε} :
    nodeFences fence low (u ++ d :: e :: v) =
      nodeFences fence low (u ++ [d]) ++ fence e :: v.map fence := by
  cases u <;> simp [nodeFences]

theorem nodeFences_concat {u v : List ε} {d : ε} :
    nodeFences fence low (u ++ d :: v) =
      nodeFences fence low (u ++ [d]) ++ v.map fence := by
  cases u <;> simp [nodeFences]

theorem nodeFences_congr {fence' : ε → Option κ} {es : List ε} (h : ∀ e ∈ es, fence' e = fence e) :
    nodeFences fence' low es = nodeFences fence low es := by
  cases es with
  | nil => rfl
  | cons e es =>
    have hmap : es.map fence' = es.map fence :=
      List.map_congr_left fun e' he' => h e' (List.mem_cons_of_mem e he')
    rw [nodeFences, nodeFences, hmap]

theorem levelFences_congr {fence' : ε → Option κ} (h : ∀ n ∈ A, ∀ e ∈ slots n, fence' e = fence e) :
    levelFences slots fence' X A = levelFences slots fence X A := by
  induction A generalizing X with
  | nil => cases X <;> rfl
  | cons n A ih =>
    cases X with
    | nil => rfl
    | cons x X =>
      rw [levelFences, levelFences, nodeFences_congr (h n (by simp)),
        ih fun m hm => h m (List.mem_cons_of_mem n hm)]

/-- The fences depend on those of the slots only. -/
theorem fences_congr {fence' : ε → Option κ} {ups : List (List ν)}
    (h : ∀ level ∈ ups, ∀ n ∈ level, ∀ e ∈ slots n, fence' e = fence e) :
    fences slots fence' ups = fences slots fence ups := by
  induction ups with
  | nil => rfl
  | cons level ups ih =>
    rw [fences, fences, ih fun up hup => h up (List.mem_cons_of_mem level hup),
      levelFences_congr (h level (by simp))]

/-! ## Towers -/

variable (slots) (child : ε → Option π) (name : ν → π) (root : π)

/-- The nodes of the level below the given ones: those the slots of the lowest one
lead to, or the root. -/
def kids : List (List ν) → List (Option π)
  | [] => [some root]
  | up :: _ => up.flatMap fun n => (slots n).map child

/-- The nodes of each level are those the level above leads to, and the top level is
the root alone. -/
def Tower : List (List ν) → Prop
  | [] => True
  | level :: ups => level.map (some ∘ name) = kids slots child root ups ∧ Tower ups

/-- The stack of the slots that lead to node `i` of the level below `ups`. -/
def Path : List (List ν) → Nat → List (π × Nat) → Prop
  | [], i, stack => i = 0 ∧ stack = []
  | up :: ups, i, stack =>
    ∃ A n B k rest, up = A ++ n :: B ∧ k < (slots n).length ∧
      i = slotCount slots A + k ∧ stack = (name n, k) :: rest ∧ Path ups A.length rest

variable {slots child name root} {level : List ν} {ups ups' : List (List ν)}

variable (fence) in
theorem length_kids (h : Tower slots child name root ups) :
    (fences slots fence ups).length = (kids slots child root ups).length := by
  induction ups with
  | nil => rfl
  | cons up ups ih =>
    have hlen : (fences slots fence ups).length = up.length := by
      rw [ih h.2, ← h.1, List.length_map]
    rw [fences, length_levelFences hlen, slotCount, kids, List.length_flatMap,
      List.length_flatMap]
    simp

variable (fence) in
theorem Tower.length (h : Tower slots child name root (level :: ups)) :
    (fences slots fence ups).length = level.length := by
  rw [length_kids fence h.2, ← h.1, List.length_map]

variable (fence) in
/-- The fence of one node among those of its level. -/
theorem Tower.split_fences (h : Tower slots child name root ((A ++ n :: B) :: ups)) :
    ∃ X low Y, fences slots fence ups = X ++ low :: Y ∧ X.length = A.length ∧
      Y.length = B.length := by
  have hlen := h.length fence
  simp only [List.length_append, List.length_cons] at hlen
  obtain ⟨X, low, Y, hXY, hX⟩ :=
    exists_split (l := fences slots fence ups) (i := A.length) (by omega)
  refine ⟨X, low, Y, hXY, hX, ?_⟩
  rw [hXY, List.length_append, List.length_cons] at hlen
  omega

theorem Tower.suffix {D : List (List ν)} (h : Tower slots child name root (D ++ ups)) :
    Tower slots child name root ups := by
  induction D with
  | nil => exact h
  | cons level D ih => exact ih h.2

theorem Tower.alone (h : Tower slots child name root [A ++ n :: B]) : A = [] ∧ B = [] := by
  have hlen := congrArg List.length h.1
  simp only [kids, List.length_map, List.length_append, List.length_cons, List.length_nil] at hlen
  exact ⟨List.length_eq_zero_iff.1 (by omega), List.length_eq_zero_iff.1 (by omega)⟩

theorem Tower.root_node {D : List (List ν)} {levels : List (List ν)} {top : List ν}
    (h : Tower slots child name root levels) (hlevels : levels = D ++ [top]) :
    ∃ x, top = [x] ∧ name x = root := by
  rw [hlevels] at h
  obtain ⟨x, rest, rfl, hx, hrest⟩ := List.map_eq_cons_iff.1 h.suffix.1
  obtain rfl := List.map_eq_nil_iff.1 hrest
  exact ⟨x, rfl, Option.some.inj hx⟩

theorem Tower.child_at {up : List ν} {P Q : List ε} {d : ε} {p : π}
    (h : Tower slots child name root (level :: up :: ups)) (hslots : up.flatMap slots = P ++ d :: Q)
    (hchild : child d = some p) :
    ∃ A' m B', level = A' ++ m :: B' ∧ A'.length = P.length ∧ name m = p := by
  have hkids := h.1
  rw [kids, ← List.map_flatMap, hslots, List.map_append, List.map_cons] at hkids
  obtain ⟨A', R, rfl, hA', hR⟩ := List.map_eq_append_iff.1 hkids
  obtain ⟨m, B', rfl, hm, -⟩ := List.map_eq_cons_iff.1 hR
  refine ⟨A', m, B', rfl, ?_, Option.some.inj (hm.trans hchild)⟩
  have := congrArg List.length hA'
  simpa using this

theorem Tower.child_node {u w : List ε} {d : ε} {p : π}
    (h : Tower slots child name root (level :: (A ++ n :: B) :: ups))
    (hslots : slots n = u ++ d :: w) (hchild : child d = some p) :
    ∃ A' m B', level = A' ++ m :: B' ∧ A'.length = slotCount slots A + u.length ∧ name m = p := by
  have hflat : (A ++ n :: B).flatMap slots =
      (A.flatMap slots ++ u) ++ d :: (w ++ B.flatMap slots) := by simp [hslots]
  obtain ⟨A', m, B', hlevel, hlen, hname⟩ := h.child_at hflat hchild
  exact ⟨A', m, B', hlevel, by simpa [slotCount] using hlen, hname⟩

/-- Every slot above the lowest level leads to a node of the tree. -/
theorem Tower.child_mem {up : List ν} {e : ε} {p : π}
    (h : Tower slots child name root (level :: ups)) (hup : up ∈ ups) (hn : n ∈ up)
    (he : e ∈ slots n) (hchild : child e = some p) : p ∈ (level :: ups).flatten.map name := by
  induction ups generalizing level with
  | nil => simp at hup
  | cons up' ups ih =>
    rcases List.mem_cons.1 hup with rfl | hup
    · have hmem : some p ∈ level.map (some ∘ name) := by
        rw [h.1, kids]
        exact List.mem_flatMap.2 ⟨n, hn, List.mem_map.2 ⟨e, he, hchild⟩⟩
      obtain ⟨m, hm, hname⟩ := List.mem_map.1 hmem
      exact List.mem_map.2 ⟨m, by simp [hm], Option.some.inj hname⟩
    · have := ih h.2 hup
      rw [List.flatten_cons, List.map_append]
      exact List.mem_append_right _ this

/-- The slots of a level keep its own fences, if there are any under each node. -/
theorem sublist_levelFences (hlen : X.length = A.length) (hne : ∀ n ∈ A, slots n ≠ []) :
    X.Sublist (levelFences slots fence X A) := by
  induction A generalizing X with
  | nil =>
    obtain rfl := List.length_eq_zero_iff.1 hlen
    exact List.Sublist.refl _
  | cons n A ih =>
    obtain ⟨x, X, rfl⟩ := List.exists_cons_of_length_eq_add_one hlen
    obtain ⟨e, es, hslots⟩ := List.exists_cons_of_ne_nil (hne n (by simp))
    have hrest := ih (by simpa using hlen) fun m hm => hne m (by simp [hm])
    rw [levelFences, hslots, nodeFences, List.cons_append]
    exact (hrest.trans (List.sublist_append_right _ _)).cons_cons _

variable (fence) in
/-- The fences of a level are among those of the levels below it. -/
theorem sublist_fences {D : List (List ν)} (htower : Tower slots child name root (D ++ ups))
    (hne : ∀ level ∈ D, ∀ n ∈ level, slots n ≠ []) :
    (fences slots fence ups).Sublist (fences slots fence (D ++ ups)) := by
  induction D with
  | nil => exact List.Sublist.refl _
  | cons level D ih =>
    rw [List.cons_append] at htower ⊢
    refine (ih htower.2 fun m hm => hne m (by simp [hm])).trans ?_
    exact sublist_levelFences (htower.length fence) (hne level (by simp))

variable (fence) in
theorem head_fences (htower : Tower slots child name root ups)
    (hne : ∀ level ∈ ups, ∀ n ∈ level, slots n ≠ []) :
    ∃ lows, fences slots fence ups = none :: lows := by
  induction ups with
  | nil => exact ⟨[], rfl⟩
  | cons level ups ih =>
    obtain ⟨lows, hlows⟩ := ih htower.2 fun up hup => hne up (List.mem_cons_of_mem level hup)
    have hlen := htower.length fence
    rw [hlows, List.length_cons] at hlen
    obtain ⟨n, level, rfl⟩ := List.exists_cons_of_length_eq_add_one hlen.symm
    obtain ⟨e, es, hslots⟩ := List.exists_cons_of_ne_nil
      (hne (n :: level) (List.mem_cons_self ..) n (List.mem_cons_self ..))
    rw [fences, hlows, levelFences, hslots, nodeFences, List.cons_append]
    exact ⟨_, rfl⟩

/-! ## First slots -/

/-- The own fence of a first slot, which sets none, is not below the fence of its node. -/
def LevelLow (slots : ν → List ε) (fence : ε → Option κ) (le : Option κ → Option κ → Prop) :
    List (Option κ) → List ν → Prop
  | low :: lows, n :: level =>
    (∀ e ∈ (slots n).head?, le low (fence e)) ∧ LevelLow slots fence le lows level
  | _, _ => True

/-- The first slots of all levels. -/
def Lowest (slots : ν → List ε) (fence : ε → Option κ) (le : Option κ → Option κ → Prop) :
    List (List ν) → Prop
  | [] => True
  | level :: ups => LevelLow slots fence le (fences slots fence ups) level ∧
    Lowest slots fence le ups

section

variable {le : Option κ → Option κ → Prop}

theorem levelLow_append (h : X.length = A.length) :
    LevelLow slots fence le (X ++ Y) (A ++ B) ↔
      LevelLow slots fence le X A ∧ LevelLow slots fence le Y B := by
  induction A generalizing X with
  | nil =>
    obtain rfl := List.length_eq_zero_iff.1 h
    simp [LevelLow]
  | cons n A ih =>
    obtain ⟨x, X, rfl⟩ := List.exists_cons_of_length_eq_add_one h
    simp [LevelLow, ih (by simpa using h), and_assoc]

theorem levelLow_append_cons (h : X.length = A.length) :
    LevelLow slots fence le (X ++ low :: Y) (A ++ n :: B) ↔
      LevelLow slots fence le X A ∧ (∀ e ∈ (slots n).head?, le low (fence e)) ∧
        LevelLow slots fence le Y B := by
  rw [levelLow_append h, LevelLow]

theorem levelLow_congr {fence' : ε → Option κ} (h : ∀ n ∈ A, ∀ e ∈ slots n, fence' e = fence e)
    (hlow : LevelLow slots fence le X A) : LevelLow slots fence' le X A := by
  induction A generalizing X with
  | nil => cases X <;> trivial
  | cons n A ih =>
    cases X with
    | nil => trivial
    | cons x X =>
      refine ⟨fun e he => ?_, ih (fun m hm => h m (List.mem_cons_of_mem n hm)) hlow.2⟩
      rw [h n (by simp) e (List.mem_of_mem_head? he)]
      exact hlow.1 e he

/-- Every slot has its own fence, or one that is not above it. -/
theorem LevelLow.forall₂ (h : LevelLow slots fence le X A) (hlen : X.length = A.length)
    (hrefl : ∀ a, le a a) :
    List.Forall₂ le (levelFences slots fence X A) ((A.flatMap slots).map fence) := by
  induction A generalizing X with
  | nil =>
    obtain rfl := List.length_eq_zero_iff.1 hlen
    exact .nil
  | cons n A ih =>
    obtain ⟨x, X, rfl⟩ := List.exists_cons_of_length_eq_add_one hlen
    rw [levelFences, List.flatMap_cons, List.map_append]
    refine List.rel_append ?_ (ih h.2 (by simpa using hlen))
    cases hslots : slots n with
    | nil => exact .nil
    | cons e es =>
      exact .cons (h.1 e (by simp [hslots])) (List.forall₂_same.2 fun a _ => hrefl a)

theorem lowest_congr {fence' : ε → Option κ} {ups : List (List ν)}
    (h : ∀ level ∈ ups, ∀ n ∈ level, ∀ e ∈ slots n, fence' e = fence e)
    (hlow : Lowest slots fence le ups) : Lowest slots fence' le ups := by
  induction ups with
  | nil => trivial
  | cons level ups ih =>
    have hups : ∀ up ∈ ups, ∀ n ∈ up, ∀ e ∈ slots n, fence' e = fence e := fun up hup =>
      h up (List.mem_cons_of_mem level hup)
    refine ⟨?_, ih hups hlow.2⟩
    rw [fences_congr hups]
    exact levelLow_congr (h level (by simp)) hlow.1

end

/-! ## Adding a node -/

/-- The levels above node `i` of a level, after a node with fence `s` was added behind
it. -/
structure Grown (slots : ν → List ε) (fence : ε → Option κ) (child : ε → Option π) (name : ν → π)
    (root : π) (ups : List (List ν)) (i : Nat) (s : κ) (new : π) (ups' : List (List ν)) : Prop where
  tower : Tower slots child name root ups'
  kids_eq : InsertedAfter i (some new) (kids slots child root ups) (kids slots child root ups')
  fences_eq : InsertedAfter i (some s) (fences slots fence ups) (fences slots fence ups')
  low : ∀ le : Option κ → Option κ → Prop, (∀ a, le none a) → (∀ a, le a a) →
    Lowest slots fence le ups → Lowest slots fence le ups'

variable {n' n₁ n₂ : ν} {u v w : List ε} {d e f : ε} {s s' : κ} {new : π}

/-- A node that is divided in two, with the second one added to the levels above. -/
theorem Grown.tower_cons (htower : Tower slots child name root ((A ++ n :: B) :: ups))
    (hname : name n₁ = name n)
    (hgrown : Grown slots fence child name root ups A.length s (name n₂) ups') :
    Tower slots child name root ((A ++ n₁ :: n₂ :: B) :: ups') := by
  refine ⟨?_, hgrown.tower⟩
  have hkids := hgrown.kids_eq
  rw [← htower.1, List.map_append, List.map_cons] at hkids
  rw [hkids.eq rfl (by simp)]
  simp [hname]

theorem grown_insert (htower : Tower slots child name root ((A ++ n :: B) :: ups))
    (hslots : slots n = u ++ d :: v) (hslots' : slots n' = u ++ d :: e :: v)
    (hname : name n' = name n) (hchild : child e = some new) (hfence : fence e = some s) :
    Grown slots fence child name root ((A ++ n :: B) :: ups) (slotCount slots A + u.length) s new
      ((A ++ n' :: B) :: ups) := by
  obtain ⟨X, low, Y, hXY, hX, hY⟩ := htower.split_fences fence
  refine ⟨⟨?_, htower.2⟩, ?_, ?_, fun le _ _ hlow => ⟨?_, hlow.2⟩⟩
  · rw [← htower.1]
    simp [hname]
  · have := insertedAfter_append (x := some new) (i := slotCount slots A + u.length)
      (U := (A.flatMap fun n => (slots n).map child) ++ u.map child ++ [child d])
      (V := v.map child ++ B.flatMap fun n => (slots n).map child)
      (by simp [slotCount, List.length_flatMap, Nat.add_assoc])
    simpa [kids, hslots, hslots', hchild] using this
  · have := insertedAfter_append (x := some s) (i := slotCount slots A + u.length)
      (U := levelFences slots fence X A ++ nodeFences fence low (u ++ [d]))
      (V := v.map fence ++ levelFences slots fence Y B)
      (by simp [length_levelFences hX, Nat.add_assoc])
    rw [fences, fences, hXY, levelFences_append_cons hX, levelFences_append_cons hX, hslots,
      hslots', nodeFences_insert, nodeFences_concat, hfence]
    simpa using this
  · have hfirst := hlow.1
    rw [hXY, levelLow_append_cons hX, hslots] at hfirst
    rw [hXY, levelLow_append_cons hX, hslots']
    refine ⟨hfirst.1, ?_, hfirst.2.2⟩
    cases u <;> simpa using hfirst.2.1

theorem grown_split (htower : Tower slots child name root ((A ++ n :: B) :: ups))
    (hslots : slots n = u ++ d :: v) (hdivided : slots n₁ ++ slots n₂ = u ++ d :: e :: v)
    (hname : name n₁ = name n) (hchild : child e = some new) (hfence : fence e = some s)
    (hleft : slots n₁ ≠ []) (hright : slots n₂ = f :: w) (hfirst' : fence f = some s')
    (hgrown : Grown slots fence child name root ups A.length s' (name n₂) ups') :
    Grown slots fence child name root ((A ++ n :: B) :: ups) (slotCount slots A + u.length) s new
      ((A ++ n₁ :: n₂ :: B) :: ups') := by
  have htower' := hgrown.tower_cons htower hname
  obtain ⟨X, low, Y, hXY, hX, hY⟩ := htower.split_fences fence
  have hfences := hgrown.fences_eq
  rw [hXY] at hfences
  refine ⟨htower', ?_, ?_, fun le hbot hrefl hlow => ⟨?_, hgrown.low le hbot hrefl hlow.2⟩⟩
  · have hsame : (slots n₁).map child ++ (slots n₂).map child =
        u.map child ++ child d :: some new :: v.map child := by
      rw [← List.map_append, hdivided]
      simp [hchild]
    have := insertedAfter_append (x := some new) (i := slotCount slots A + u.length)
      (U := (A.flatMap fun n => (slots n).map child) ++ u.map child ++ [child d])
      (V := v.map child ++ B.flatMap fun n => (slots n).map child)
      (by simp [slotCount, List.length_flatMap, Nat.add_assoc])
    simp only [kids, List.flatMap_append, List.flatMap_cons, hslots]
    rw [← List.append_assoc (List.map child (slots n₁)), hsame]
    simpa using this
  · have hsame : nodeFences fence low (slots n₁) ++ nodeFences fence (some s') (slots n₂) =
        nodeFences fence low (u ++ [d]) ++ some s :: v.map fence := by
      rw [hright, ← hfirst', ← nodeFences_append hleft, ← hright, hdivided, nodeFences_insert,
        hfence]
    have := insertedAfter_append (x := some s) (i := slotCount slots A + u.length)
      (U := levelFences slots fence X A ++ nodeFences fence low (u ++ [d]))
      (V := v.map fence ++ levelFences slots fence Y B)
      (by simp [length_levelFences hX, Nat.add_assoc])
    rw [fences, fences, hfences.eq rfl hX, hXY, levelFences_append_cons hX,
      levelFences_append_cons hX, levelFences, ← List.append_assoc _ (nodeFences _ _ _),
      List.append_assoc (levelFences slots fence X A) _ (nodeFences _ _ _), hsame, hslots,
      nodeFences_concat]
    simpa using this
  · have hfirst := hlow.1
    rw [hXY, levelLow_append_cons hX, hslots] at hfirst
    rw [hfences.eq rfl hX, levelLow_append_cons hX, LevelLow]
    refine ⟨hfirst.1, ?_, ?_, hfirst.2.2⟩
    · -- the left half starts as the node did
      have hhead : (slots n₁).head? = (u ++ d :: v).head? := by
        obtain ⟨e', es, hes⟩ := List.exists_cons_of_ne_nil hleft
        rw [hes, List.cons_append] at hdivided
        rw [hes]
        cases u <;> simp_all
      rw [hhead]
      exact hfirst.2.1
    · rw [hright]
      intro e' he'
      obtain rfl : f = e' := by simpa using he'
      rw [hfirst']
      exact hrefl _

/-- The root was divided: its two halves are under a new root with two slots. -/
theorem grown_root {m : ν} {d₀ e₀ : ε} (htower : Tower slots child name root [[n]])
    (hslots : slots n = u ++ d :: v) (hdivided : slots n₁ ++ slots n₂ = u ++ d :: e :: v)
    (hchild : child e = some new) (hfence : fence e = some s)
    (hleft : slots n₁ ≠ []) (hright : slots n₂ = f :: w) (hfirst : fence f = fence e₀)
    (hroot : slots m = [d₀, e₀]) (hm : name m = name n)
    (hd₀ : child d₀ = some (name n₁)) (he₀ : child e₀ = some (name n₂)) :
    Grown slots fence child name root [[n]] u.length s new [[n₁, n₂], [m]] := by
  refine ⟨⟨?_, ?_, trivial⟩, ?_, ?_, fun le hbot hrefl _ => ?_⟩
  · simp [kids, hroot, hd₀, he₀]
  · have := htower.1
    simp only [List.map_cons, List.map_nil, Function.comp] at this ⊢
    rw [hm]
    exact this
  · have hsame : (slots n₁).map child ++ (slots n₂).map child =
        u.map child ++ child d :: some new :: v.map child := by
      rw [← List.map_append, hdivided]
      simp [hchild]
    have := insertedAfter_append (x := some new) (i := u.length)
      (U := u.map child ++ [child d]) (V := v.map child) (by simp)
    simp only [kids, List.flatMap_cons, List.flatMap_nil, List.append_nil, hslots, hsame]
    simpa using this
  · have hsame : nodeFences fence none (slots n₁) ++ nodeFences fence (fence e₀) (slots n₂) =
        nodeFences fence none (u ++ [d]) ++ some s :: v.map fence := by
      rw [hright, ← hfirst, ← nodeFences_append hleft, ← hright, hdivided, nodeFences_insert,
        hfence]
    have := insertedAfter_append (x := some s) (i := u.length)
      (U := nodeFences fence none (u ++ [d])) (V := v.map fence) (by simp)
    simp only [fences, levelFences, hslots, hroot, List.append_nil]
    rw [show nodeFences fence none [d₀, e₀] = [none, fence e₀] from rfl]
    simp only [levelFences, List.append_nil, hsame]
    rw [nodeFences_concat]
    exact this
  · simp only [Lowest, fences, levelFences, hroot, nodeFences, List.append_nil, List.map_cons,
      List.map_nil, LevelLow, hright, List.head?_cons, Option.mem_def, Option.some.injEq, and_true]
    refine ⟨⟨fun e' _ => hbot _, ?_⟩, fun e' _ => hbot _⟩
    rintro e' rfl
    rw [hfirst]
    exact hrefl _

/-! ## Removing a node -/

/-- `l'` is `l` without position `i`. -/
def RemovedAt {α : Type*} (i : Nat) (l l' : List α) : Prop :=
  ∃ U a V, l = U ++ a :: V ∧ U.length = i ∧ l' = U ++ V

/-- `l'` is `l` without position `i` or without the next one. -/
def RemovedNear {α : Type*} (i : Nat) (l l' : List α) : Prop :=
  ∃ U a V, l = U ++ a :: V ∧ U.length = i ∧
    (l' = U ++ V ∨ ∃ b V', V = b :: V' ∧ l' = U ++ a :: V')

/-- The levels above node `i` of a level, after that node was removed. The fence that
goes with it is its own or, when it was the first one of its parent, that of the next
node. -/
structure Shrunk (slots : ν → List ε) (fence : ε → Option κ) (child : ε → Option π) (name : ν → π)
    (root : π) (ups : List (List ν)) (i : Nat) (ups' : List (List ν)) : Prop where
  tower : Tower slots child name root ups'
  kids_eq : RemovedAt i (kids slots child root ups) (kids slots child root ups')
  fences_eq : RemovedNear i (fences slots fence ups) (fences slots fence ups')
  low : ∀ le : Option κ → Option κ → Prop, (∀ a b c, le a b → le b c → le a c) →
    (∀ up ∈ ups, ∀ n ∈ up, slots n ≠ []) → (fences slots fence ups).Pairwise le →
    Lowest slots fence le ups → Lowest slots fence le ups'
  height : ups'.length = ups.length
  all : ∀ P : ε → Prop, (∀ up ∈ ups, ∀ n ∈ up, ∀ s ∈ slots n, P s) →
    ∀ up ∈ ups', ∀ n ∈ up, ∀ s ∈ slots n, P s

theorem RemovedAt.eq {α : Type*} {l l' U V : List α} {a : α} {i : Nat} (h : RemovedAt i l l')
    (hl : l = U ++ a :: V) (hU : U.length = i) : l' = U ++ V := by
  obtain ⟨U', a', V', rfl, hU', rfl⟩ := h
  obtain ⟨rfl, hV⟩ := List.append_inj hl (by omega)
  simp_all

theorem RemovedNear.eq {α : Type*} {l l' U V : List α} {a : α} {i : Nat} (h : RemovedNear i l l')
    (hl : l = U ++ a :: V) (hU : U.length = i) :
    l' = U ++ V ∨ ∃ b V', V = b :: V' ∧ l' = U ++ a :: V' := by
  obtain ⟨U', a', V', rfl, hU', h⟩ := h
  obtain ⟨rfl, hV⟩ := List.append_inj hl (by omega)
  simp_all

/-- A node that is gone from its level and from the levels above. -/
theorem Shrunk.tower_cons (htower : Tower slots child name root ((A ++ n :: B) :: ups))
    (hshrunk : Shrunk slots fence child name root ups A.length ups') :
    Tower slots child name root ((A ++ B) :: ups') := by
  refine ⟨?_, hshrunk.tower⟩
  have hkids := hshrunk.kids_eq
  rw [← htower.1, List.map_append, List.map_cons] at hkids
  rw [hkids.eq rfl (by simp)]
  simp

variable (child root ups B) in
private theorem removedAt_kids (hslots : slots n = u ++ d :: v) :
    RemovedAt (slotCount slots A + u.length) (kids slots child root ((A ++ n :: B) :: ups))
      ((A.flatMap fun n => (slots n).map child) ++ (u ++ v).map child ++
        B.flatMap fun n => (slots n).map child) :=
  ⟨(A.flatMap fun n => (slots n).map child) ++ u.map child, child d,
    v.map child ++ B.flatMap fun n => (slots n).map child, by simp [kids, hslots],
    by simp [slotCount, List.length_flatMap], by simp⟩

theorem shrunk_erase (htower : Tower slots child name root ((A ++ n :: B) :: ups))
    (hslots : slots n = u ++ d :: v) (hslots' : slots n' = u ++ v) (hname : name n' = name n)
    (hne : u ++ v ≠ []) :
    Shrunk slots fence child name root ((A ++ n :: B) :: ups) (slotCount slots A + u.length)
      ((A ++ n' :: B) :: ups) := by
  obtain ⟨X, low, Y, hXY, hX, hY⟩ := htower.split_fences fence
  refine ⟨⟨?_, htower.2⟩, ?_, ?_, fun le _ _ hsorted hlow => ⟨?_, hlow.2⟩, rfl,
    fun P hall up hup m hm s hs => ?_⟩
  · rw [← htower.1]
    simp [hname]
  · simpa [kids, hslots'] using removedAt_kids B child root ups hslots
  · rw [fences, fences, hXY, levelFences_append_cons hX, levelFences_append_cons hX, hslots,
      hslots']
    cases u with
    | nil =>
      obtain ⟨f, v, rfl⟩ := List.exists_cons_of_ne_nil hne
      exact ⟨levelFences slots fence X A, low, fence f :: v.map fence ++ levelFences slots fence Y B,
        by simp [nodeFences], by simp [length_levelFences hX], .inr ⟨fence f, _, rfl, by
          simp [nodeFences]⟩⟩
    | cons c u =>
      exact ⟨levelFences slots fence X A ++ low :: u.map fence, fence d,
        v.map fence ++ levelFences slots fence Y B, by simp [nodeFences],
        by simp [length_levelFences hX], .inl (by simp [nodeFences])⟩
  · have hfirst := hlow.1
    rw [hXY, levelLow_append_cons hX, hslots] at hfirst
    rw [hXY, levelLow_append_cons hX, hslots']
    refine ⟨hfirst.1, ?_, hfirst.2.2⟩
    cases u with
    | nil =>
      -- the slot that is first now has its fence behind that of the node
      obtain ⟨f, v, rfl⟩ := List.exists_cons_of_ne_nil hne
      rw [fences, hXY, levelFences_append_cons hX, hslots] at hsorted
      have hnode := (List.pairwise_append.1 (List.pairwise_append.1 hsorted).1).2.1
      simp only [List.nil_append, nodeFences, List.map_cons, List.pairwise_cons] at hnode
      intro e he
      obtain rfl : f = e := by simpa using he
      exact hnode.1 _ (by simp)
    | cons c u => simpa using hfirst.2.1
  · rcases List.mem_cons.1 hup with rfl | hup
    · simp only [List.mem_append, List.mem_cons] at hm
      rcases hm with hm | rfl | hm
      · exact hall _ (List.mem_cons_self ..) m (by simp [hm]) s hs
      · refine hall _ (List.mem_cons_self ..) n (by simp) s ?_
        rw [hslots'] at hs
        simp only [hslots, List.mem_append, List.mem_cons] at hs ⊢
        tauto
      · exact hall _ (List.mem_cons_self ..) m (by simp [hm]) s hs
    · exact hall up (List.mem_cons_of_mem _ hup) m hm s hs

theorem shrunk_remove (htower : Tower slots child name root ((A ++ n :: B) :: ups))
    (hslots : slots n = [d]) (hshrunk : Shrunk slots fence child name root ups A.length ups') :
    Shrunk slots fence child name root ((A ++ n :: B) :: ups) (slotCount slots A)
      ((A ++ B) :: ups') := by
  have htower' := hshrunk.tower_cons htower
  obtain ⟨X, low, Y, hXY, hX, hY⟩ := htower.split_fences fence
  have hbefore : fences slots fence ((A ++ n :: B) :: ups) =
      levelFences slots fence X A ++ low :: levelFences slots fence Y B := by
    rw [fences, hXY, levelFences_append_cons hX, hslots]
    simp [nodeFences]
  refine ⟨htower', ?_, ?_, fun le htrans hne hsorted hlow => ?_, by simp [hshrunk.height],
    fun P hall up hup m hm => ?_⟩
  · simpa [kids] using removedAt_kids B child root ups (u := []) (v := []) hslots
  · refine ⟨_, _, _, hbefore, by rw [length_levelFences hX], ?_⟩
    rw [fences]
    rcases hshrunk.fences_eq.eq hXY hX with h | ⟨y, Y, rfl, h⟩
    · exact .inl (by rw [h, levelFences_append hX])
    · obtain ⟨m, B, rfl⟩ := List.exists_cons_of_length_eq_add_one hY.symm
      rw [h, levelFences_append_cons hX, levelFences]
      cases hm : slots m with
      | nil => exact .inl (by simp [nodeFences])
      | cons f w => exact .inr ⟨y, _, rfl, by simp [nodeFences]⟩
  · have hup : (fences slots fence ups).Pairwise le := hsorted.sublist
      (sublist_levelFences (htower.length fence) (hne _ (List.mem_cons_self ..)))
    refine ⟨?_, hshrunk.low le htrans (fun up hmem => hne up (List.mem_cons_of_mem _ hmem)) hup
      hlow.2⟩
    have hfirst := hlow.1
    rw [hXY, levelLow_append_cons hX] at hfirst
    rcases hshrunk.fences_eq.eq hXY hX with h | ⟨y, Y, rfl, h⟩
    · rw [h, levelLow_append hX]
      exact ⟨hfirst.1, hfirst.2.2⟩
    · obtain ⟨m, B, rfl⟩ := List.exists_cons_of_length_eq_add_one hY.symm
      rw [h, levelLow_append_cons hX]
      refine ⟨hfirst.1, fun e he => ?_, hfirst.2.2.2⟩
      rw [hXY] at hup
      have hlt : le low y :=
        (List.pairwise_cons.1 (List.pairwise_append.1 hup).2.1).1 y (by simp)
      exact htrans _ _ _ hlt (hfirst.2.2.1 e he)
  · rcases List.mem_cons.1 hup with rfl | hup
    · refine hall _ (List.mem_cons_self ..) m ?_
      simp only [List.mem_append, List.mem_cons] at hm ⊢
      tauto
    · exact hshrunk.all P (fun up hup => hall up (List.mem_cons_of_mem _ hup)) up hup m hm

/-! ## Order -/

/-- An element of a level that is read as one list. -/
inductive Mark (κ : Type*)
  | low (fence : Option κ)
  | key (key : κ)

/-- What the order of a tree says about two elements, the first to the left of the
second: a fence may equal a key behind it, otherwise the order is strict. -/
def Mark.Before (cmp : κ → κ → Int) : Mark κ → Mark κ → Prop
  | .low none, _ => True
  | .low (some a), .key b => ¬ cmp b a < 0
  | .low (some a), .low (some b) => cmp a b < 0
  | .key a, .key b => cmp a b < 0
  | .key a, .low (some b) => cmp a b < 0
  | _, .low none => False

/-- A level as one list, from its fences and the keys of its nodes. -/
def marks : List (Option κ) → List (List κ) → List (Mark κ)
  | low :: lows, ks :: level => .low low :: ks.map .key ++ marks lows level
  | _, _ => []

/-- The keys of a level are in order and within their fences. -/
def Fenced (cmp : κ → κ → Int) (lows : List (Option κ)) (level : List (List κ)) : Prop :=
  (marks lows level).Pairwise (Mark.Before cmp)

variable {cmp : κ → κ → Int} {K L : List (List κ)} {ks ks₁ ks₂ : List κ} {k : κ}

theorem marks_append (h : X.length = K.length) :
    marks (X ++ Y) (K ++ L) = marks X K ++ marks Y L := by
  induction K generalizing X with
  | nil =>
    obtain rfl := List.length_eq_zero_iff.1 h
    rfl
  | cons n K ih =>
    obtain ⟨x, X, rfl⟩ := List.exists_cons_of_length_eq_add_one h
    simp [marks, ih (by simpa using h)]

theorem marks_append_cons (h : X.length = K.length) :
    marks (X ++ low :: Y) (K ++ ks :: L) =
      marks X K ++ .low low :: (ks.map .key ++ marks Y L) := by
  rw [marks_append h, marks]
  rfl

/-- An element that fits between the two parts of a list in order may stand there. -/
theorem pairwise_insert {α : Type*} {R : α → α → Prop} {P Q : List α} {x : α}
    (h : (P ++ Q).Pairwise R) (hP : ∀ a ∈ P, R a x) (hQ : ∀ b ∈ Q, R x b) :
    (P ++ x :: Q).Pairwise R := by
  rw [List.pairwise_append] at h ⊢
  refine ⟨h.1, List.pairwise_cons.2 ⟨hQ, h.2.1⟩, ?_⟩
  intro a ha b hb
  rcases List.mem_cons.1 hb with rfl | hb
  · exact hP a ha
  · exact h.2.2 a ha b hb

namespace Mark

variable {a b m : Mark κ}

theorem Before.trans (hcmp : TotalCmp cmp) (hab : a.Before cmp b) (hbm : b.Before cmp m) :
    a.Before cmp m := by
  rcases a with (_ | a) | a
  · trivial
  · rcases b with (_ | b) | b
    · exact hab.elim
    · rcases m with (_ | m) | m
      · exact hbm
      · exact hcmp.trans _ _ _ hab hbm
      · intro hlt
        exact hbm (hcmp.trans _ _ _ hlt hab)
    · rcases m with (_ | m) | m
      · exact hbm
      · exact hcmp.trans_le_lt hab hbm
      · intro hlt
        exact hab (hcmp.trans _ _ _ hbm hlt)
  · rcases b with (_ | b) | b
    · exact hab.elim
    · rcases m with (_ | m) | m
      · exact hbm
      · exact hcmp.trans _ _ _ hab hbm
      · exact hcmp.trans_lt_le hab hbm
    · rcases m with (_ | m) | m
      · exact hbm
      · exact hcmp.trans _ _ _ hab hbm
      · exact hcmp.trans _ _ _ hab hbm

end Mark

namespace Fenced

/-- Keys to the left of a fence are below everything the fence is not above. -/
theorem left (hcmp : TotalCmp cmp) (h : Fenced cmp (X ++ low :: Y) (K ++ ks :: L))
    (hX : X.length = K.length) (hlow : (Mark.low low).Before cmp (.key k)) :
    ∀ m ∈ marks X K, m.Before cmp (.key k) := by
  intro m hm
  rw [Fenced, marks_append_cons hX, List.pairwise_append] at h
  exact (h.2.2 m hm _ (by simp)).trans hcmp hlow

/-- Everything to the right of a fence is above the keys that are below the fence. -/
theorem right (hcmp : TotalCmp cmp) (h : Fenced cmp (X ++ low :: Y) (K ++ ks :: L))
    (hX : X.length = K.length) (hnext : ∀ y ∈ Y.head?, (Mark.key k).Before cmp (.low y)) :
    ∀ m ∈ marks Y L, (Mark.key k).Before cmp m := by
  intro m hm
  rw [Fenced, marks_append_cons hX, List.pairwise_append, List.pairwise_cons,
    List.pairwise_append] at h
  obtain ⟨-, ⟨-, -, hYL, -⟩, -⟩ := h
  match Y, L, hm, hYL with
  | y :: Y, l :: L, hm, hYL =>
    rw [marks, List.cons_append] at hm hYL
    rcases List.mem_cons.1 hm with rfl | hm
    · exact hnext y (by simp)
    · exact (hnext y (by simp)).trans hcmp ((List.pairwise_cons.1 hYL).1 m hm)

theorem insert_key (hcmp : TotalCmp cmp)
    (h : Fenced cmp (X ++ low :: Y) (K ++ (ks₁ ++ ks₂) :: L)) (hX : X.length = K.length)
    (hlow : (Mark.low low).Before cmp (.key k))
    (hnext : ∀ y ∈ Y.head?, (Mark.key k).Before cmp (.low y))
    (hlt : ∀ a ∈ ks₁, cmp a k < 0) (hgt : ∀ b ∈ ks₂, cmp k b < 0) :
    Fenced cmp (X ++ low :: Y) (K ++ (ks₁ ++ k :: ks₂) :: L) := by
  have hleft := h.left hcmp hX hlow
  have hright := h.right hcmp hX hnext
  rw [Fenced, marks_append_cons hX] at h ⊢
  have hins := pairwise_insert (x := Mark.key k)
    (P := marks X K ++ .low low :: ks₁.map .key) (Q := ks₂.map .key ++ marks Y L)
    (by simpa using h) ?_ ?_
  · simpa using hins
  · simp only [List.mem_append, List.mem_cons, List.mem_map]
    rintro m (hm | rfl | ⟨a, ha, rfl⟩)
    · exact hleft m hm
    · exact hlow
    · exact hlt a ha
  · simp only [List.mem_append, List.mem_map]
    rintro m (⟨b, hb, rfl⟩ | hm)
    · exact hgt b hb
    · exact hright m hm

/-- A node may be divided by a fence between its keys. -/
theorem split (hcmp : TotalCmp cmp)
    (h : Fenced cmp (X ++ low :: Y) (K ++ (ks₁ ++ ks₂) :: L)) (hX : X.length = K.length)
    (h₁ : ks₁ ≠ []) (h₂ : ks₂ ≠ [])
    (hlt : ∀ a ∈ ks₁, cmp a k < 0) (hge : ∀ b ∈ ks₂, ¬ cmp b k < 0) :
    Fenced cmp (X ++ low :: some k :: Y) (K ++ ks₁ :: ks₂ :: L) := by
  obtain ⟨a, ha⟩ := List.exists_mem_of_ne_nil _ h₁
  obtain ⟨b, hb⟩ := List.exists_mem_of_ne_nil _ h₂
  rw [Fenced, marks_append_cons hX] at h ⊢
  have hins := pairwise_insert (x := Mark.low (some k))
    (P := marks X K ++ .low low :: ks₁.map .key) (Q := ks₂.map .key ++ marks Y L)
    (by simpa using h) ?_ ?_
  · simpa [marks] using hins
  · -- everything before the keys on the left is below one of them
    intro m hm
    have hma : m ∈ marks X K ++ [.low low] → m.Before cmp (.key a) := by
      intro hm'
      rw [← List.singleton_append, ← List.append_assoc, List.pairwise_append] at h
      exact h.2.2 m hm' _ (by simp [ha])
    simp only [List.mem_append, List.mem_cons, List.mem_map] at hm
    rcases hm with hm | rfl | ⟨a', ha', rfl⟩
    · exact (hma (by simp [hm])).trans hcmp (hlt a ha)
    · exact (hma (by simp)).trans hcmp (hlt a ha)
    · exact hlt a' ha'
  · intro m hm
    simp only [List.mem_append, List.mem_map] at hm
    rcases hm with ⟨b', hb', rfl⟩ | hm
    · exact hge b' hb'
    · have hbm : (Mark.key b).Before cmp m := by
        have hfrom := (List.pairwise_cons.1 (List.pairwise_append.1 h).2.1).2
        exact (List.pairwise_append.1 hfrom).2.2 _ (List.mem_map_of_mem (by simp [hb])) m hm
      exact Mark.Before.trans hcmp (b := .key b) (hge b hb) hbm

theorem sublist {X' : List (Option κ)} {K' : List (List κ)} (h : Fenced cmp X K)
    (hsub : (marks X' K').Sublist (marks X K)) : Fenced cmp X' K' :=
  List.Pairwise.sublist hsub h

/-- A node without keys may be removed with its fence. -/
theorem remove_self (h : Fenced cmp (X ++ low :: Y) (K ++ [] :: L)) (hX : X.length = K.length) :
    Fenced cmp (X ++ Y) (K ++ L) := by
  refine h.sublist ?_
  rw [marks_append_cons hX, marks_append hX]
  exact (List.sublist_cons_self _ _).append_left _

/-- A node without keys may be removed with the fence behind it. -/
theorem remove_next {low' : Option κ} (h : Fenced cmp (X ++ low :: low' :: Y) (K ++ [] :: ks :: L))
    (hX : X.length = K.length) : Fenced cmp (X ++ low :: Y) (K ++ ks :: L) := by
  refine h.sublist ?_
  rw [marks_append_cons hX, marks_append_cons hX, marks]
  exact ((List.sublist_cons_self _ _).cons_cons _).append_left _

theorem remove_keys (h : Fenced cmp (X ++ low :: Y) (K ++ ks :: L)) (hX : X.length = K.length)
    (hsub : ks₁.Sublist ks) : Fenced cmp (X ++ low :: Y) (K ++ ks₁ :: L) := by
  refine h.sublist ?_
  rw [marks_append_cons hX, marks_append_cons hX]
  exact (((hsub.map _).append_right _).cons_cons _).append_left _

theorem sorted (h : Fenced cmp X K) (hX : X.length = K.length) :
    K.flatten.Pairwise fun a b => cmp a b < 0 := by
  have hsub : (K.flatten.map Mark.key).Sublist (marks X K) := by
    clear h
    induction K generalizing X with
    | nil => simp
    | cons ks K ih =>
      obtain ⟨x, X, rfl⟩ := List.exists_cons_of_length_eq_add_one hX
      rw [List.flatten_cons, List.map_append, marks]
      exact (List.sublist_cons_self _ _).append (ih (by simpa using hX))
  exact List.pairwise_map.1 (List.Pairwise.sublist hsub h)

/-- A node without keys may be removed with the fence that `Shrunk` removes. -/
theorem remove_near {F F' : List (Option κ)} (h : Fenced cmp F (K ++ [] :: L))
    (hF : F.length = K.length + 1 + L.length) (hnear : RemovedNear K.length F F') :
    Fenced cmp F' (K ++ L) := by
  obtain ⟨X, low, Y, rfl, hX, rfl | ⟨low', Y, rfl, rfl⟩⟩ := hnear
  · exact h.remove_self hX
  · simp only [List.length_append, List.length_cons] at hF
    obtain ⟨ks, L, rfl⟩ := List.exists_cons_of_length_pos (l := L) (by omega)
    exact h.remove_next hX

theorem sorted_fences (h : Fenced cmp X K) (hX : X.length = K.length) :
    X.Pairwise fun a b => (Mark.low a).Before cmp (.low b) := by
  have hsub : (X.map Mark.low).Sublist (marks X K) := by
    clear h
    induction K generalizing X with
    | nil =>
      obtain rfl := List.length_eq_zero_iff.1 hX
      exact List.Sublist.refl _
    | cons ks K ih =>
      obtain ⟨x, X, rfl⟩ := List.exists_cons_of_length_eq_add_one hX
      rw [List.map_cons, marks, List.cons_append]
      exact ((ih (by simpa using hX)).trans (List.sublist_append_right _ _)).cons_cons _
  exact List.pairwise_map.1 (List.Pairwise.sublist hsub h)

/-- A key is between the fence of its node and the next one. -/
theorem within (h : Fenced cmp (X ++ low :: Y) (K ++ ks :: L)) (hX : X.length = K.length)
    (hY : Y.length = L.length) (hk : k ∈ ks) : (Mark.low low).Before cmp (.key k) ∧
      ∀ y ∈ Y.head?, (Mark.key k).Before cmp (.low y) := by
  rw [Fenced, marks_append_cons hX, List.pairwise_append, List.pairwise_cons,
    List.pairwise_append] at h
  obtain ⟨-, ⟨hlow, -, -, hnext⟩, -⟩ := h
  refine ⟨hlow _ (List.mem_append_left _ (List.mem_map_of_mem hk)), fun y hy => ?_⟩
  cases Y with
  | nil => simp at hy
  | cons y' Y =>
    obtain rfl : y' = y := by simpa using hy
    obtain ⟨l, L, rfl⟩ := List.exists_cons_of_length_eq_add_one hY.symm
    exact hnext _ (List.mem_map_of_mem hk) _ (by simp [marks])

theorem sorted_node (h : Fenced cmp (X ++ low :: Y) (K ++ ks :: L)) (hX : X.length = K.length) :
    ks.Pairwise fun a b => cmp a b < 0 := by
  rw [Fenced, marks_append_cons hX, List.pairwise_append, List.pairwise_cons,
    List.pairwise_append] at h
  exact List.pairwise_map.1 h.2.1.2.1

end Fenced

/-! ## Searching -/

/-- Key `k` belongs between fence `i` and the next one. -/
def Brackets (cmp : κ → κ → Int) (lows : List (Option κ)) (i : Nat) (k : κ) : Prop :=
  ∃ X low Y, lows = X ++ low :: Y ∧ X.length = i ∧ (Mark.low low).Before cmp (.key k) ∧
    ∀ y ∈ Y.head?, (Mark.key k).Before cmp (.low y)

theorem brackets_root : Brackets cmp (fences slots fence []) 0 k :=
  ⟨[], none, [], rfl, rfl, trivial, by simp⟩

/-- A key that belongs to a node belongs below the last slot of it that is not behind
the key. -/
theorem Brackets.descend {lows : List (Option κ)} (h : Brackets cmp lows A.length k)
    (hslots : slots n = u ++ d :: v) (hne : ∀ m ∈ B, slots m ≠ [])
    (hlen : lows.length = A.length + 1 + B.length)
    (hle : u ≠ [] → (Mark.low (fence d)).Before cmp (.key k))
    (hgt : ∀ f ∈ v.head?, (Mark.key k).Before cmp (.low (fence f))) :
    Brackets cmp (levelFences slots fence lows (A ++ n :: B)) (slotCount slots A + u.length) k := by
  obtain ⟨X, low, Y, rfl, hX, hlow, hnext⟩ := h
  have hY : Y.length = B.length := by
    simp only [List.length_append, List.length_cons] at hlen
    omega
  -- the fence behind the slot is that of the next slot or of the next node
  have hbehind : ∀ y ∈ (v.map fence ++ levelFences slots fence Y B).head?,
      (Mark.key k).Before cmp (.low y) := by
    cases v with
    | cons f v =>
      intro y hy
      obtain rfl : fence f = y := by simpa using hy
      exact hgt f (by simp)
    | nil =>
      cases B with
      | nil =>
        obtain rfl := List.length_eq_zero_iff.1 hY
        simp [levelFences]
      | cons m B =>
        obtain ⟨y, Y, rfl⟩ := List.exists_cons_of_length_eq_add_one hY
        obtain ⟨f, w, hm⟩ := List.exists_cons_of_ne_nil (hne m (by simp))
        intro y' hy'
        obtain rfl : y = y' := by simpa [levelFences, hm, nodeFences] using hy'
        exact hnext y (by simp)
  rw [levelFences_append_cons hX, hslots]
  cases u with
  | nil =>
    exact ⟨levelFences slots fence X A, low, _, by simp [nodeFences],
      by simp [length_levelFences hX], hlow, hbehind⟩
  | cons c u =>
    exact ⟨levelFences slots fence X A ++ low :: u.map fence, fence d, _,
      by simp [nodeFences], by simp [length_levelFences hX], hle (by simp), hbehind⟩

/-- A key that belongs below a slot of a node belongs to the node. -/
theorem Brackets.ascend {lows : List (Option κ)} (hcmp : TotalCmp cmp)
    (h : Brackets cmp (levelFences slots fence lows (A ++ n :: B)) (slotCount slots A + u.length) k)
    (hslots : slots n = u ++ d :: v) (hne : ∀ m ∈ B, slots m ≠ [])
    (hlen : lows.length = A.length + 1 + B.length)
    (hsorted : (levelFences slots fence lows (A ++ n :: B)).Pairwise fun a b =>
      (Mark.low a).Before cmp (.low b)) : Brackets cmp lows A.length k := by
  obtain ⟨X, low, Y, rfl, hX⟩ := exists_split (l := lows) (i := A.length) (by omega)
  have hY : Y.length = B.length := by
    simp only [List.length_append, List.length_cons] at hlen
    omega
  obtain ⟨P, l, Q, hPQ, hP, hlow, hnext⟩ := h
  rw [levelFences_append_cons hX, hslots] at hPQ hsorted
  -- the fence of the node is at or before the one of the slot, that of the next node behind
  have hfirst : l = low ∨ (Mark.low low).Before cmp (.low l) := by
    cases u with
    | nil =>
      simp only [List.nil_append, nodeFences, List.append_assoc, List.cons_append] at hPQ
      obtain ⟨-, hl⟩ := List.append_inj hPQ (by rw [length_levelFences hX]; simpa using hP.symm)
      exact .inl (List.cons.inj hl).1.symm
    | cons c u =>
      refine .inr ?_
      have hnode : nodeFences fence low ((c :: u) ++ d :: v) =
          low :: (u.map fence ++ fence d :: v.map fence) := by simp [nodeFences]
      rw [hnode] at hPQ hsorted
      have hassoc : levelFences slots fence X A ++ low :: (u.map fence ++ fence d :: v.map fence) ++
          levelFences slots fence Y B = (levelFences slots fence X A ++ low :: u.map fence) ++
          fence d :: (v.map fence ++ levelFences slots fence Y B) := by simp
      rw [hassoc] at hPQ hsorted
      obtain ⟨-, hl⟩ := List.append_inj hPQ (by
        rw [List.length_append, length_levelFences hX, List.length_cons, List.length_map, hP,
          List.length_cons])
      rw [← (List.cons.inj hl).1]
      exact (List.pairwise_append.1 hsorted).2.2 low (by simp) _ (by simp)
  refine ⟨X, low, Y, rfl, hX, ?_, fun y hy => ?_⟩
  · rcases hfirst with rfl | hlt
    · exact hlow
    · exact hlt.trans hcmp hlow
  · obtain ⟨y', Y', rfl⟩ : ∃ y' Y', Y = y' :: Y' := by
      cases Y with
      | nil => simp at hy
      | cons y' Y' => exact ⟨y', Y', rfl⟩
    obtain rfl : y' = y := by simpa using hy
    obtain ⟨m, B, rfl⟩ := List.exists_cons_of_length_eq_add_one hY.symm
    obtain ⟨f, w, hm⟩ := List.exists_cons_of_ne_nil (hne m (by simp))
    have hQ : Q = v.map fence ++ y' :: (w.map fence ++ levelFences slots fence Y' B) := by
      have hassoc : levelFences slots fence X A ++ nodeFences fence low (u ++ d :: v) ++
          levelFences slots fence (y' :: Y') (m :: B) =
          (levelFences slots fence X A ++ nodeFences fence low (u ++ [d])) ++
            (v.map fence ++ y' :: (w.map fence ++ levelFences slots fence Y' B)) := by
        rw [nodeFences_concat, levelFences, hm]
        simp [nodeFences]
      have hsplit : P ++ l :: Q = (P ++ [l]) ++ Q := by simp
      rw [hassoc, hsplit] at hPQ
      exact (List.append_inj hPQ (by
        simp [length_levelFences hX, hP, Nat.add_assoc])).2.symm
    subst hQ
    rw [hPQ] at hsorted
    cases v with
    | nil => exact hnext y' (by simp)
    | cons f' v =>
      refine (hnext (fence f') (by simp)).trans hcmp ?_
      have hrest := (List.pairwise_cons.1 (List.pairwise_append.1 hsorted).2.1).2
      exact (List.pairwise_cons.1 hrest).1 y' (by simp)

theorem Brackets.index_le {lows : List (Option κ)} {i j : Nat} (hcmp : TotalCmp cmp)
    (hsorted : lows.Pairwise fun a b => (Mark.low a).Before cmp (.low b))
    (h : Brackets cmp lows i k) (h' : Brackets cmp lows j k) : j ≤ i := by
  obtain ⟨X, low, Y, hlows, rfl, -, hnext⟩ := h
  obtain ⟨X', low', Y', hlows', rfl, hlow', -⟩ := h'
  by_contra hlt
  -- the fence behind the first place is at or before the fence of the second one
  obtain ⟨Z, rfl⟩ : ∃ Z, X' = X ++ low :: Z := by
    have hpre : X ++ [low] <+: lows := ⟨Y, by simp [hlows]⟩
    have hpre' : X' <+: lows := ⟨low' :: Y', hlows'.symm⟩
    obtain ⟨Z, hZ⟩ := List.prefix_of_prefix_length_le hpre hpre' (by simp; omega)
    exact ⟨Z, by simp [← hZ]⟩
  obtain rfl : Y = Z ++ low' :: Y' := by
    have := hlows.symm.trans hlows'
    simpa using this
  have hbehind : (Mark.key k).Before cmp (.low low') := by
    cases Z with
    | nil => exact hnext low' (by simp)
    | cons z Z =>
      refine (hnext z (by simp)).trans hcmp ?_
      rw [hlows, List.pairwise_append, List.pairwise_cons, List.cons_append,
        List.pairwise_cons] at hsorted
      exact hsorted.2.1.2.1 low' (by simp)
  cases low' with
  | none => exact hbehind
  | some b => exact hlow' hbehind

theorem Brackets.unique {lows : List (Option κ)} {i j : Nat} (hcmp : TotalCmp cmp)
    (hsorted : lows.Pairwise fun a b => (Mark.low a).Before cmp (.low b))
    (h : Brackets cmp lows i k) (h' : Brackets cmp lows j k) : i = j :=
  Nat.le_antisymm (h'.index_le hcmp hsorted h) (h.index_le hcmp hsorted h')

/-! ## Bounds -/

/-- One lower bound is at most as strict as another. -/
def LowLe (cmp : κ → κ → Int) : Option κ → Option κ → Prop
  | none, _ => True
  | some a, some b => ¬ cmp b a < 0
  | some _, none => False

namespace LowLe

variable {a b c : Option κ}

theorem refl (hcmp : TotalCmp cmp) (a : Option κ) : LowLe cmp a a := by
  cases a with
  | none => trivial
  | some a => exact hcmp.irrefl a

theorem trans (hcmp : TotalCmp cmp) (hab : LowLe cmp a b) (hbc : LowLe cmp b c) : LowLe cmp a c := by
  cases a with
  | none => trivial
  | some a =>
    cases b with
    | none => exact hab.elim
    | some b =>
      cases c with
      | none => exact hbc.elim
      | some c => exact fun hlt => hab (hcmp.trans_le_lt hbc hlt)

theorem of_before (hcmp : TotalCmp cmp) (h : (Mark.low a).Before cmp (.low b)) : LowLe cmp a b := by
  cases a with
  | none => trivial
  | some a =>
    cases b with
    | none => exact h.elim
    | some b => exact fun hlt => hcmp.irrefl a (hcmp.trans _ _ _ h hlt)

theorem before (hcmp : TotalCmp cmp) (h : (Mark.key k).Before cmp (.low a)) (hab : LowLe cmp a b) :
    (Mark.key k).Before cmp (.low b) := by
  cases a with
  | none => exact h.elim
  | some a =>
    cases b with
    | none => exact hab.elim
    | some b => exact hcmp.trans_lt_le h hab

end LowLe

end Bsdi.Lib
