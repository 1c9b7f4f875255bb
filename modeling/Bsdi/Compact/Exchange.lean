import Bsdi.Compact.Places

/-!
# Exchanges

The inner loop of `uptree`, in terms of places: it stops at a place, or exchanges what is there
with what is at the first place of its class.
-/

namespace Bsdi.Compact

namespace Tree

variable {t : Tree} {i j k : Nat} {x : Item}

/-- The parts of the tables that a step on the nodes leaves alone. -/
structure SameLists (t t' : Tree) : Prop where
  head : t'.head = t.head
  flist : t'.flist = t.flist
  bottom : t'.bottom = t.bottom
  dir : t'.dir = t.dir

theorem SameLists.trans {t₁ t₂ t₃ : Tree} (h : SameLists t₁ t₂) (h' : SameLists t₂ t₃) :
    SameLists t₁ t₃ :=
  ⟨h'.head.trans h.head, h'.flist.trans h.flist, h'.bottom.trans h.bottom, h'.dir.trans h.dir⟩

@[simp] theorem leafAt_setAt {s : Son} : (t.setAt k s).leafAt i = t.leafAt i := by
  simp [leafAt]

@[simp] theorem upOf_setAt {s : Son} : (t.setAt k s).upOf x = t.upOf x := by
  cases x <;> simp [upOf]

theorem sameLists_setAt {s : Son} : SameLists t (t.setAt k s) := ⟨rfl, rfl, rfl, rfl⟩

/-- What `exch` does: the item at `j` points back to `k`. -/
structure Repointed (t t' : Tree) (x : Item) (k : Nat) : Prop where
  son : ∀ i, t'.sonAt i = t.sonAt i
  leaf : ∀ i, t'.leafAt i = t.leafAt i
  up : ∀ z, t'.upOf z = if z = x then linkTo k else t.upOf z
  lists : SameLists t t'

theorem exch_repointed (sp : Nat) :
    Repointed t (exch t (j / 2) (side j) sp (k / 2) (side k))
      (if t.leafAt j then .chr sp else .node sp) k := by
  have hside : (side k).toNat = k % 2 := by
    rcases Nat.mod_two_eq_zero_or_one k with h | h <;> simp [side, h]
  rw [exch]
  cases hleaf : t.leafAt j with
  | true =>
    rw [if_pos (leafFlag_ne_zero.mpr hleaf)]
    refine ⟨fun i => sonAt_setIn, fun i => by simp [leafAt], fun z => ?_, rfl, rfl, rfl, rfl⟩
    cases z with
    | node r => simp [upOf]
    | chr ch =>
      by_cases hch : ch = sp
      · subst hch
        simp [upOf, linkTo, hside]
      · simp [upOf, hch]
  | false =>
    rw [if_neg fun hne => by simpa [leafAt] using hleaf.symm.trans (leafFlag_ne_zero.mp hne)]
    refine ⟨fun i => sonAt_setFath, fun i => ?_, fun z => ?_, rfl, rfl, rfl, rfl⟩
    · by_cases hi : i / 2 = sp
      · simp [leafAt, hi]
      · simp [leafAt, hi]
    · cases z with
      | chr ch => simp [upOf]
      | node r =>
        by_cases hr : r = sp
        · subst hr
          simp [upOf, linkTo, hside]
        · simp [upOf, hr]

def toggled (t : Tree) (k : Nat) : Tree :=
  t.setFath (k / 2) ⟨(t.dict (k / 2)).fath.fp, (t.dict (k / 2)).fath.flags ^^^ leafFlag (side k)⟩

@[simp] theorem sonAt_toggled : (t.toggled k).sonAt i = t.sonAt i := sonAt_setFath

@[simp] theorem leafAt_toggled : (t.toggled k).leafAt i = (t.leafAt i ^^ decide (i = k)) := by
  by_cases hi : i / 2 = k / 2
  · have heq : (side k == side i) = decide (i = k) := by
      by_cases hik : i = k
      · simp [hik]
      · have hside : ¬ side k = side i := fun hs => hik (place_eq_iff.mpr ⟨hi, hs.symm⟩)
        simp [hik, hside]
    simp only [leafAt, toggled, fath_setFath, hi, if_true, hasLeaf_xor, heq]
  · have hik : i ≠ k := fun h => hi (h ▸ rfl)
    simp [leafAt, toggled, hi, hik]

@[simp] theorem upOf_toggled : (t.toggled k).upOf x = t.upOf x := by
  cases x with
  | chr ch => simp [upOf, toggled]
  | node r =>
    simp only [upOf, toggled, fath_setFath]
    split_ifs with hr
    · rw [hr, xor_leafFlag_mod]
    · rfl

theorem sameLists_toggled : SameLists t (t.toggled k) := ⟨rfl, rfl, rfl, rfl⟩

/-- The exchange in the inner loop of `uptree`. -/
def exchanged (t : Tree) (v : Nat) (vs : Bool) (r : Nat) (rs : Bool) (qt : Nat) : Tree :=
  let tson := t.son v vs
  let rson := t.son r rs
  let t := t.setSon v vs { t.son v vs with sp := rson.sp }
  let t := t.setSon r rs { t.son r rs with sp := tson.sp }
  let t := exch t v vs tson.sp r rs
  let t := exch t r rs rson.sp v vs
  let rflag : Bool := (t.dict r).fath.flags &&& leafFlag rs ≠ 0
  let tflag : Bool := (t.dict v).fath.flags &&& leafFlag vs ≠ 0
  let t :=
    if rflag = tflag then t
    else
      let f := (t.dict r).fath
      let t := t.setFath r ⟨f.fp, f.flags ^^^ leafFlag rs⟩
      let f := (t.dict v).fath
      t.setFath v ⟨f.fp, f.flags ^^^ leafFlag vs⟩
  let t := t.setSon v vs { t.son v vs with count := (t.son v vs).count + 1 }
  let t := t.setSon r rs { t.son r rs with count := (t.son r rs).count - 1 }
  if vs then t.setDir qt { t.dir qt with pt := (t.dir qt).pt + 1 } else t

/-- What the exchange of the places `j` and `k` does. -/
structure Exchanged (t t' : Tree) (j k qt : Nat) : Prop where
  sonFirst : t'.sonAt j = ⟨(t.sonAt k).sp, (t.sonAt j).top, (t.sonAt j).count + 1⟩
  sonLast : t'.sonAt k = ⟨(t.sonAt j).sp, (t.sonAt k).top, (t.sonAt k).count - 1⟩
  son : ∀ i, i ≠ j → i ≠ k → t'.sonAt i = t.sonAt i
  leafFirst : t'.leafAt j = t.leafAt k
  leafLast : t'.leafAt k = t.leafAt j
  leaf : ∀ i, i ≠ j → i ≠ k → t'.leafAt i = t.leafAt i
  up : ∀ z, t'.upOf z =
    if z = t.itemAt k then linkTo j else if z = t.itemAt j then linkTo k else t.upOf z
  head : t'.head = t.head
  flist : t'.flist = t.flist
  bottom : t'.bottom = t.bottom
  dir : ∀ c, t'.dir c =
    if c = qt ∧ side j = true then ⟨(t.dir qt).pt + 1, (t.dir qt).next⟩ else t.dir c

theorem son_place : t.son (k / 2) (side k) = t.sonAt k := rfl

theorem setSon_place (s : Son) : t.setSon (k / 2) (side k) s = t.setAt k s := rfl

theorem leaf_place :
    decide ((t.dict (k / 2)).fath.flags &&& leafFlag (side k) ≠ 0) = t.leafAt k := by
  rw [leafAt, Bool.eq_iff_iff, decide_eq_true_eq, leafFlag_ne_zero]

structure Swapped (t t' : Tree) (j k : Nat) : Prop where
  son : ∀ i, t'.sonAt i = t.sonAt i
  leafFirst : t'.leafAt j = t.leafAt k
  leafLast : t'.leafAt k = t.leafAt j
  leaf : ∀ i, i ≠ j → i ≠ k → t'.leafAt i = t.leafAt i
  up : ∀ z, t'.upOf z = t.upOf z
  lists : SameLists t t'

theorem swapped_of_toggled (hne : j ≠ k) :
    Swapped t (if t.leafAt k = t.leafAt j then t else (t.toggled k).toggled j) j k := by
  by_cases heq : t.leafAt k = t.leafAt j
  · rw [if_pos heq]
    exact ⟨fun _ => rfl, heq.symm, heq, fun _ _ _ => rfl, fun _ => rfl, rfl, rfl, rfl, rfl⟩
  · rw [if_neg heq]
    refine ⟨fun i => by simp, ?_, ?_, fun i hj hk => by simp [hj, hk], fun z => by simp,
      sameLists_toggled.trans sameLists_toggled⟩
    · cases hj : t.leafAt j <;> cases hk : t.leafAt k <;> simp_all
    · cases hj : t.leafAt j <;> cases hk : t.leafAt k <;> simp_all [Ne.symm hne]

theorem exchanged_spec (hne : j ≠ k) (qt : Nat) :
    Exchanged t (exchanged t (j / 2) (side j) (k / 2) (side k) qt) j k qt := by
  have hne' : k ≠ j := hne.symm
  -- the pointers of the two sons
  obtain ⟨t₂, ht₂⟩ : ∃ t₂, t₂ =
    (t.setAt j ⟨(t.sonAt k).sp, (t.sonAt j).top, (t.sonAt j).count⟩).setAt k
      ⟨(t.sonAt j).sp, (t.sonAt k).top, (t.sonAt k).count⟩ := ⟨_, rfl⟩
  -- the pointers back
  obtain ⟨t₃, ht₃⟩ : ∃ t₃, t₃ = exch t₂ (j / 2) (side j) (t.sonAt j).sp (k / 2) (side k) :=
    ⟨_, rfl⟩
  obtain ⟨t₄, ht₄⟩ : ∃ t₄, t₄ = exch t₃ (k / 2) (side k) (t.sonAt k).sp (j / 2) (side j) :=
    ⟨_, rfl⟩
  -- the leaf flags
  obtain ⟨t₅, ht₅⟩ : ∃ t₅, t₅ =
      if t₄.leafAt k = t₄.leafAt j then t₄ else (t₄.toggled k).toggled j := ⟨_, rfl⟩
  -- the counts
  obtain ⟨t₆, ht₆⟩ : ∃ t₆, t₆ = t₅.setAt j
      ⟨(t₅.sonAt j).sp, (t₅.sonAt j).top, (t₅.sonAt j).count + 1⟩ := ⟨_, rfl⟩
  obtain ⟨t₇, ht₇⟩ : ∃ t₇, t₇ = t₆.setAt k
      ⟨(t₆.sonAt k).sp, (t₆.sonAt k).top, (t₆.sonAt k).count - 1⟩ := ⟨_, rfl⟩
  have hresult : exchanged t (j / 2) (side j) (k / 2) (side k) qt =
      if side j = true then t₇.setDir qt ⟨(t₇.dir qt).pt + 1, (t₇.dir qt).next⟩ else t₇ := by
    subst ht₇ ht₆ ht₅ ht₄ ht₃ ht₂
    simp only [exchanged, son_place, setSon_place, sonAt_setAt, if_neg hne', leaf_place]
    rfl
  have hleaf₂ : ∀ i, t₂.leafAt i = t.leafAt i := by
    intro i
    rw [ht₂, leafAt_setAt, leafAt_setAt]
  have h₃ : Repointed t₂ t₃ (t.itemAt j) k := by
    rw [ht₃, itemAt, ← hleaf₂]
    exact exch_repointed _
  have h₄ : Repointed t₃ t₄ (t.itemAt k) j := by
    rw [ht₄, itemAt, ← hleaf₂, ← h₃.leaf]
    exact exch_repointed _
  have h₅ : Swapped t₄ t₅ j k := ht₅ ▸ swapped_of_toggled hne
  have hson₅ : ∀ i, t₅.sonAt i = t₂.sonAt i := fun i => by rw [h₅.son, h₄.son, h₃.son]
  have hup₇ : ∀ z, t₇.upOf z = t₅.upOf z := fun z => by rw [ht₇, ht₆, upOf_setAt, upOf_setAt]
  have hleaf₇ : ∀ i, t₇.leafAt i = t₅.leafAt i := fun i => by
    rw [ht₇, ht₆, leafAt_setAt, leafAt_setAt]
  have hlists₂ : SameLists t t₂ := by
    rw [ht₂]
    exact sameLists_setAt.trans sameLists_setAt
  have hlists₇ : SameLists t₅ t₇ := by
    rw [ht₇, ht₆]
    exact sameLists_setAt.trans sameLists_setAt
  have hlists : SameLists t t₇ :=
    hlists₂.trans (h₃.lists.trans (h₄.lists.trans (h₅.lists.trans hlists₇)))
  have hson₇ : ∀ i, t₇.sonAt i =
      if i = k then ⟨(t.sonAt j).sp, (t.sonAt k).top, (t.sonAt k).count - 1⟩
      else if i = j then ⟨(t.sonAt k).sp, (t.sonAt j).top, (t.sonAt j).count + 1⟩
      else t.sonAt i := by
    intro i
    rw [ht₇, sonAt_setAt, ht₆, sonAt_setAt, sonAt_setAt, hson₅, hson₅, hson₅, ht₂]
    simp only [sonAt_setAt, hne, hne', if_true, if_false]
    split_ifs <;> rfl
  have hresult' : ∀ i, (exchanged t (j / 2) (side j) (k / 2) (side k) qt).sonAt i = t₇.sonAt i ∧
      (exchanged t (j / 2) (side j) (k / 2) (side k) qt).leafAt i = t₇.leafAt i := by
    intro i
    rw [hresult]
    split
    · exact ⟨rfl, rfl⟩
    · exact ⟨rfl, rfl⟩
  refine ⟨?_, ?_, fun i hj hk => ?_, ?_, ?_, fun i hj hk => ?_, fun z => ?_, ?_, ?_, ?_,
    fun c => ?_⟩
  · rw [(hresult' j).1, hson₇, if_neg hne, if_pos rfl]
  · rw [(hresult' k).1, hson₇, if_pos rfl]
  · rw [(hresult' i).1, hson₇, if_neg hk, if_neg hj]
  · rw [(hresult' j).2, hleaf₇, h₅.leafFirst, h₄.leaf, h₃.leaf, hleaf₂]
  · rw [(hresult' k).2, hleaf₇, h₅.leafLast, h₄.leaf, h₃.leaf, hleaf₂]
  · rw [(hresult' i).2, hleaf₇, h₅.leaf i hj hk, h₄.leaf, h₃.leaf, hleaf₂]
  · have hup : (exchanged t (j / 2) (side j) (k / 2) (side k) qt).upOf z = t₇.upOf z := by
      rw [hresult]
      split
      · cases z <;> rfl
      · rfl
    rw [hup, hup₇, h₅.up, h₄.up, h₃.up, ht₂, upOf_setAt, upOf_setAt]
  · rw [hresult]
    split
    · exact hlists.head
    · exact hlists.head
  · rw [hresult]
    split
    · exact hlists.flist
    · exact hlists.flist
  · rw [hresult]
    split
    · exact hlists.bottom
    · exact hlists.bottom
  · rw [hresult]
    by_cases hside : side j = true
    · rw [if_pos hside, dir_setDir, hlists.dir]
      simp only [hside, and_true]
    · rw [if_neg hside, hlists.dir, if_neg fun h => hside h.2]

/-- The variables of `uptree` where the inner loop stops at a place. -/
def stopAt (t : Tree) (rc : Int32) (k : Nat) (qc : Int32) (qt : Nat) : Stop where
  r := k / 2
  rs := side k
  s := (k + 1) / 2
  sc := if k + 1 = t.size then rc - 2 else (t.sonAt (k + 1)).count
  st := if k + 1 = t.size then none else (t.sonAt (k + 1)).top
  qc := qc
  qt := qt

section
variable {rc : Int32} {fuel qt : Nat}

theorem son_left (r : Nat) : (t.dict r).left = t.sonAt (2 * r) := by
  have hr : 2 * r / 2 = r := by omega
  have hs : side (2 * r) = false := by simp [side]
  rw [sonAt, hr, hs]
  rfl

theorem son_right (r : Nat) : (t.dict r).right = t.sonAt (2 * r + 1) := by
  have hr : (2 * r + 1) / 2 = r := by omega
  have hs : side (2 * r + 1) = true := by simp [side]
  rw [sonAt, hr, hs]
  rfl

theorem uptreeInner_first :
    uptreeInner rc (fuel + 1) t 0 false = some (t, t.stopAt rc 0 (rc + 1) t.head) := by
  have hsize : ¬ 1 = t.size := by rw [size]; omega
  rw [uptreeInner, if_pos ⟨by decide, rfl⟩, stopAt]
  simp only [Nat.zero_add, hsize, if_false, son_right]
  rfl

theorem uptreeInner_later (hk : 0 < k) (htop : (t.sonAt (k - 1)).top = some qt) :
    uptreeInner rc (fuel + 1) t (k / 2) (side k) =
      if rc ≤ (t.sonAt (k - 1)).count then
        some (t, t.stopAt rc k (t.sonAt (k - 1)).count qt)
      else
        uptreeInner rc fuel
          (exchanged t (t.dir qt).pt (decide (rc ≤ (t.sonAt (2 * (t.dir qt).pt)).count)) (k / 2)
            (side k) qt) (t.dir qt).pt (decide (rc ≤ (t.sonAt (2 * (t.dir qt).pt)).count)) := by
  rcases Nat.mod_two_eq_zero_or_one k with hmod | hmod
  · have hside : side k = false := by simp [side, hmod]
    obtain ⟨r, rfl⟩ : ∃ r, k = 2 * (r + 1) := ⟨k / 2 - 1, by omega⟩
    have hr : 2 * (r + 1) / 2 = r + 1 := by omega
    have hprev : 2 * (r + 1) - 1 = 2 * r + 1 := by omega
    have hsize : ¬ 2 * (r + 1) + 1 = t.size := by rw [size]; omega
    have hnext : (2 * (r + 1) + 1) / 2 = r + 1 := by omega
    rw [hprev] at htop ⊢
    rw [uptreeInner, stopAt, hside, hr, if_neg (by simp)]
    simp only [son_left, son_right, Bool.false_eq_true, if_false, Nat.add_sub_cancel, htop,
      Option.bind_eq_bind, Option.bind_some, hsize, hnext]
    rfl
  · have hside : side k = true := by simp [side, hmod]
    obtain ⟨r, rfl⟩ : ∃ r, k = 2 * r + 1 := ⟨k / 2, by omega⟩
    have hr : (2 * r + 1) / 2 = r := by omega
    rw [Nat.add_sub_cancel] at htop ⊢
    rw [uptreeInner, stopAt, hside, hr, if_neg (by simp)]
    have hbottom : (2 * r + 1 + 1 = t.size) = (r = t.bottom) := by rw [size]; simp; omega
    have hnext : (2 * r + 1 + 1) / 2 = r + 1 := by omega
    simp only [son_left, son_right, if_true, htop, Option.bind_eq_bind, Option.bind_some, hbottom,
      hnext]
    rfl

end

end Tree

end Bsdi.Compact
