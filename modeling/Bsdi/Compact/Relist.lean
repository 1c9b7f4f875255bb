import Bsdi.Compact.Wellformed

/-!
# The order lists after an exchange

`uptree` puts the place whose count has been raised into the right class: that of the place
before it, a new one, or its own if it is alone there.
-/

namespace Bsdi.Compact

namespace Tree

variable {t t' t'' : Tree} {cls : Nat → Nat} {free : List Nat} {j k : Nat}

/-- Only the classes differ. -/
structure Relisted (t t' : Tree) : Prop where
  item : ∀ i, t'.itemAt i = t.itemAt i
  count : ∀ i, (t'.sonAt i).count = (t.sonAt i).count
  up : ∀ z, t'.upOf z = t.upOf z
  bottom : t'.bottom = t.bottom
  head : t'.head = t.head

theorem Relisted.refl : Relisted t t := ⟨fun _ => rfl, fun _ => rfl, fun _ => rfl, rfl, rfl⟩

theorem Relisted.trans (h : Relisted t t') (h' : Relisted t' t'') : Relisted t t'' :=
  ⟨fun i => (h'.item i).trans (h.item i), fun i => (h'.count i).trans (h.count i),
    fun z => (h'.up z).trans (h.up z), h'.bottom.trans h.bottom, h'.head.trans h.head⟩

theorem relisted_setTop (p : Option Nat) :
    Relisted t (t.setAt j ⟨(t.sonAt j).sp, p, (t.sonAt j).count⟩) := by
  refine ⟨fun i => ?_, fun i => ?_, fun z => upOf_setAt, rfl, rfl⟩
  · by_cases hi : i = j <;> simp [itemAt, hi]
  · by_cases hi : i = j <;> simp [hi]

theorem relisted_setDir (c : Nat) (x : Index) : Relisted t (t.setDir c x) :=
  ⟨fun _ => rfl, fun _ => rfl, fun z => by cases z <;> rfl, rfl, rfl⟩

theorem relisted_flist (p : Option Nat) : Relisted t { t with flist := p } :=
  ⟨fun _ => rfl, fun _ => rfl, fun z => by cases z <;> rfl, rfl, rfl⟩

theorem Chain.congr {dir dir' : Nat → Index} {l : List Nat} {p : Option Nat} (h : Chain dir p l)
    (heq : ∀ c ∈ l, (dir' c).next = (dir c).next) : Chain dir' p l := by
  induction l generalizing p with
  | nil => exact h
  | cons i l ih =>
    refine ⟨h.1, ?_⟩
    rw [heq i List.mem_cons_self]
    exact ih h.2 fun c hc => heq c (List.mem_cons_of_mem _ hc)

def countBehind (t : Tree) (rc : Int32) (j : Nat) : Int32 :=
  if j + 1 = t.size then rc - 2 else (t.sonAt (j + 1)).count

section
variable {rc : Int32}

theorem eq_countBefore (hrc : rc.toInt = t.cnt j + 1) :
    rc = t.countBefore rc j ↔ 0 < j ∧ t.cnt (j - 1) = t.cnt j + 1 := by
  rw [countBefore]
  split_ifs with hzero
  · refine iff_of_false (fun h => ?_) (by omega)
    have hbits := congrArg Int32.toBitVec h
    rw [Int32.toBitVec_add] at hbits
    have hone : (1 : Int32).toBitVec = 1#32 := rfl
    rw [hone] at hbits
    bv_omega
  · rw [← Int32.toInt_inj, hrc]
    constructor
    · intro h
      exact ⟨by omega, h.symm⟩
    · exact fun h => h.2.symm

theorem toInt_countBehind (hrc : rc.toInt = t.cnt j + 1) (hpos : 0 ≤ t.cnt j)
    (hend : j + 1 = t.size) : (t.countBehind rc j + 1).toInt = t.cnt j := by
  have hle := rc.toInt_lt
  have htwo : (2 : Int32).toInt = 2 := rfl
  have hsub : (rc - 2).toInt = rc.toInt - 2 := by
    rw [Int32.toInt_sub, htwo]
    exact Int.bmod_eq_of_le (by omega) (by omega)
  rw [countBehind, if_pos hend, toInt_succ (by omega), hsub]
  omega

theorem toInt_countBehind_of_lt (hbound : t.cnt j < 2 ^ 31 - 1)
    (hle : t.cnt (j + 1) ≤ t.cnt j) (hend : j + 1 ≠ t.size) :
    (t.countBehind rc j + 1).toInt = t.cnt (j + 1) + 1 := by
  rw [countBehind, if_neg hend, toInt_succ]
  · rfl
  · exact lt_of_le_of_lt hle hbound

end

theorem Bumped.size_eq {q : Nat} (h : Bumped t t' j k q) : t'.size = t.size := by
  rw [size, size, h.bottom]

theorem Bumped.cnt_eq {q : Nat} (h : Bumped t t' j k q) (hbound : t.cnt j < 2 ^ 31 - 1) :
    t'.cnt = raised t.cnt j := by
  funext i
  rw [cnt, h.count, raised]
  split_ifs with hi
  · subst hi
    exact toInt_succ hbound
  · rfl

theorem Relisted.cnt_eq (h : Relisted t t') : t'.cnt = t.cnt := by
  funext i
  rw [cnt, h.count]
  rfl

theorem Relisted.size_eq (h : Relisted t t') : t'.size = t.size := by rw [size, size, h.bottom]

/-- What is known where the lists are put right. -/
structure Placed (t t' : Tree) (cls : Nat → Nat) (free : List Nat) (j k : Nat) : Prop where
  listed : Listed t cls free
  falling : Falling t.size t.cnt
  lt : k < t.size
  bound : t.cnt k < 2 ^ 31 - 1
  nonneg : 0 ≤ t.cnt k
  le : j ≤ k
  same : t.cnt j = t.cnt k
  first : IsFirst t.cnt j
  bumped : Bumped t t' j k (cls k)

def Relists (t' : Tree) (o : Option Tree) : Prop :=
  ∃ t'' cls' free', o = some t'' ∧ Relisted t' t'' ∧ Listed t'' cls' free'

section
variable {rc : Int32}

theorem Placed.cls_eq (h : Placed t t' cls free j k) : cls j = cls k :=
  (h.listed.classes.same (h.le.trans_lt h.lt) h.lt).mpr h.same

theorem Placed.cnt_eq (h : Placed t t' cls free j k) : t'.cnt = raised t.cnt j :=
  h.bumped.cnt_eq (h.same ▸ h.bound)

theorem Placed.chain (h : Placed t t' cls free j k) {dir : Nat → Index} {l : List Nat}
    {p : Option Nat} (hchain : Chain t.dir p l) (heq : ∀ c ∈ l, dir c = t'.dir c) :
    Chain dir p l :=
  hchain.congr fun c hc => by rw [heq c hc, h.bumped.next]

theorem Placed.absorb (h : Placed t t' cls free j k) (hpos : 0 < j)
    (hjoin : t.cnt (j - 1) = t.cnt j + 1)
    (hbehind : ∀ i, j < i → i < t.size → t.cnt i < t.cnt j) :
    let t₁ := t'.setAt j ⟨(t'.sonAt j).sp, some (cls (j - 1)), (t'.sonAt j).count⟩
    let t₂ := t₁.setDir (cls (j - 1)) { t₁.dir (cls (j - 1)) with
      next := if j + 1 = t'.size then none else some (cls (j + 1)) }
    let t₃ := t₂.setDir (cls j) { t₂.dir (cls j) with next := t₂.flist }
    Relists t' (some { t₃ with flist := some (cls j) }) := by
  intro t₁ t₂ t₃
  have hj : j < t.size := h.le.trans_lt h.lt
  have hkj : j = k := by
    by_contra hne
    have := hbehind k (by have := h.le; omega) h.lt
    have := h.same
    omega
  have hdir : t'.dir = t.dir := funext fun c => h.bumped.dir c (.inr hkj)
  have hprev : cls (j - 1) ≠ cls j := h.listed.classes.cls_ne (by omega) hj (by omega)
  have hdir₃ : ∀ c, c ≠ cls j → c ≠ cls (j - 1) → t₃.dir c = t.dir c := by
    intro c h1 h2
    simp only [t₃, t₂, t₁, dir_setDir, dir_setAt, h1, h2, if_false, hdir]
  have hqt : t₃.dir (cls (j - 1)) =
      ⟨(t.dir (cls (j - 1))).pt, if j + 1 = t.size then none else some (cls (j + 1))⟩ := by
    simp only [t₃, t₂, t₁, dir_setDir, dir_setAt, hprev, if_false, if_true, hdir,
      h.bumped.size_eq]
  have hrt : (t₃.dir (cls j)).next = t.flist := by
    simp only [t₃, t₂, t₁, dir_setDir, if_true, flist_setDir, flist_setAt, h.bumped.flist]
  have hrel : Relisted t' { t₃ with flist := some (cls j) } :=
    (relisted_setTop _).trans ((relisted_setDir _ _).trans ((relisted_setDir _ _).trans
      (relisted_flist _)))
  refine ⟨_, Function.update cls j (cls (j - 1)), cls j :: free, rfl, hrel, ⟨fun {i} hi => ?_, ?_,
    ⟨rfl, ?_⟩, List.nodup_cons.mpr ⟨h.listed.classes.unused hj, h.listed.nodup⟩⟩⟩
  · rw [hrel.size_eq, h.bumped.size_eq] at hi
    change (t₁.sonAt i).top = _
    by_cases hij : i = j
    · simp [t₁, hij]
    · simp only [t₁, sonAt_setAt, if_neg hij, Function.update_of_ne hij]
      rw [h.bumped.top]
      exact h.listed.top hi
  · rw [hrel.size_eq, hrel.cnt_eq, hrel.head, h.bumped.size_eq, h.bumped.head, h.cnt_eq]
    exact h.listed.classes.absorb h.falling hj hpos hjoin hbehind hdir₃ hqt
  · change Chain t₃.dir (t₃.dir (cls j)).next free
    rw [hrt]
    refine h.chain h.listed.chain fun c hc => ?_
    rw [hdir₃, hdir]
    · exact fun heq => h.listed.classes.unused hj (heq ▸ hc)
    · exact fun heq => h.listed.classes.unused (show j - 1 < t.size by omega) (heq ▸ hc)

theorem Placed.join (h : Placed t t' cls free j k) (hpos : 0 < j)
    (hjoin : t.cnt (j - 1) = t.cnt j + 1) (hj : j + 1 < t.size)
    (hmore : t.cnt (j + 1) = t.cnt j) :
    let t₁ := t'.setAt j ⟨(t'.sonAt j).sp, some (cls (j - 1)), (t'.sonAt j).count⟩
    Relists t' (some (t₁.setDir (cls (j + 1))
      { t₁.dir (cls (j + 1)) with pt := (j + 1) / 2 })) := by
  intro t₁
  have hcls : cls (j + 1) = cls j := (h.listed.classes.same hj (by omega)).mpr hmore
  rw [hcls]
  obtain ⟨t₂, ht₂⟩ : ∃ t₂, t₂ = t₁.setDir (cls j) { t₁.dir (cls j) with pt := (j + 1) / 2 } :=
    ⟨_, rfl⟩
  have hrel : Relisted t' t₂ := ht₂ ▸ (relisted_setTop _).trans (relisted_setDir _ _)
  have hdir : ∀ c, c ≠ cls j → t₂.dir c = t'.dir c := fun c hc => by
    rw [ht₂, dir_setDir, if_neg hc]
    rfl
  have hflist : t₂.flist = t.flist := by rw [ht₂, ← h.bumped.flist]; rfl
  rw [← ht₂]
  refine ⟨t₂, Function.update cls j (cls (j - 1)), free, rfl, hrel, ⟨fun {i} hi => ?_, ?_, ?_,
    h.listed.nodup⟩⟩
  · rw [hrel.size_eq, h.bumped.size_eq] at hi
    rw [ht₂, sonAt_setDir]
    by_cases hij : i = j
    · simp [t₁, hij]
    · simp only [t₁, sonAt_setAt, if_neg hij, Function.update_of_ne hij]
      rw [h.bumped.top]
      exact h.listed.top hi
  · rw [hrel.size_eq, hrel.cnt_eq, hrel.head, h.bumped.size_eq, h.bumped.head, h.cnt_eq]
    refine h.listed.classes.join h.falling hj hpos hjoin hmore (fun c hc => ?_) ?_
    · rw [hdir c hc, h.bumped.dir c (.inl (h.cls_eq ▸ hc))]
    · rw [ht₂, dir_setDir, if_pos rfl, ← h.bumped.next]
      rfl
  · rw [hflist]
    refine h.chain h.listed.chain fun c hc => hdir c fun heq => ?_
    exact h.listed.classes.unused (by omega) (heq ▸ hc)

theorem Placed.divide {new : Nat} {rest : List Nat} (h : Placed t t' cls (new :: rest) j k)
    (hbefore : ∀ i < j, t.cnt j + 1 < t.cnt i) (hj : j + 1 < t.size)
    (hmore : t.cnt (j + 1) = t.cnt j) :
    let t₁ : Tree := { t' with flist := (t'.dir new).next }
    let t₂ := t₁.setDir new ⟨j / 2, some (cls (j + 1))⟩
    let t₃ := t₂.setDir (t'.cellBefore cls j) { t₂.dir (t'.cellBefore cls j) with next := some new }
    let t₄ := t₃.setDir (cls (j + 1)) { t₃.dir (cls (j + 1)) with pt := (j + 1) / 2 }
    Relists t' (some (t₄.setAt j ⟨(t₄.sonAt j).sp, some new, (t₄.sonAt j).count⟩)) := by
  intro t₁ t₂ t₃ t₄
  have hclasses := h.listed.classes
  have hcls : cls (j + 1) = cls j := (hclasses.same hj (by omega)).mpr hmore
  have hbefore' : t'.cellBefore cls j = if j = 0 then t.head else cls (j - 1) := by
    rw [cellBefore, h.bumped.head]
  have hnew : cls j ≠ new := fun heq =>
    hclasses.unused (show j < t.size by omega) (heq ▸ List.mem_cons_self)
  have hqnew : t'.cellBefore cls j ≠ new := by
    rw [hbefore']
    split_ifs
    · exact fun heq => hclasses.unusedHead (heq ▸ List.mem_cons_self)
    · exact fun heq => hclasses.unused (show j - 1 < t.size by omega) (heq ▸ List.mem_cons_self)
  have hqcls : cls j ≠ t'.cellBefore cls j := by
    rw [hbefore']
    split_ifs with hzero
    · exact hclasses.apart (by omega)
    · have := hbefore (j - 1) (by omega)
      exact hclasses.cls_ne (by omega) (by omega) (by omega)
  have hrel : Relisted t' (t₄.setAt j ⟨(t₄.sonAt j).sp, some new, (t₄.sonAt j).count⟩) :=
    (relisted_flist _).trans ((relisted_setDir _ _).trans ((relisted_setDir _ _).trans
      ((relisted_setDir _ _).trans (relisted_setTop _))))
  have hdir : ∀ c, c ≠ cls j → c ≠ new → c ≠ t'.cellBefore cls j → t₄.dir c = t'.dir c := by
    intro c h1 h2 h3
    simp only [t₄, t₃, t₂, t₁, dir_setDir, hcls, h1, h2, h3, if_false]
  refine ⟨_, Function.update cls j new, rest, rfl, hrel, ⟨fun {i} hi => ?_, ?_, ?_,
    (List.nodup_cons.mp h.listed.nodup).2⟩⟩
  · rw [hrel.size_eq, h.bumped.size_eq] at hi
    by_cases hij : i = j
    · simp [hij]
    · simp only [sonAt_setAt, if_neg hij, Function.update_of_ne hij]
      change (t'.sonAt i).top = _
      rw [h.bumped.top]
      exact h.listed.top hi
  · rw [hrel.size_eq, hrel.cnt_eq, hrel.head, h.bumped.size_eq, h.bumped.head, h.cnt_eq]
    refine hclasses.divide h.falling hj hmore hbefore h.listed.nodup (fun c h1 h2 h3 => ?_) ?_ ?_ ?_
    · rw [← hbefore'] at h3
      rw [dir_setAt, hdir c h1 h2 h3, h.bumped.dir c (.inl (h.cls_eq ▸ h1))]
    · rw [← hbefore', dir_setAt]
      simp only [t₄, t₃, t₂, t₁, dir_setDir, hcls, hqcls.symm, hqnew, if_false, if_true]
      rw [h.bumped.dir _ (.inl (h.cls_eq ▸ hqcls.symm))]
    · rw [dir_setAt]
      simp only [t₄, t₃, t₂, t₁, dir_setDir, hcls, hnew.symm, hqnew.symm, if_false, if_true]
    · rw [dir_setAt]
      simp only [t₄, t₃, t₂, t₁, dir_setDir, hcls, hnew, hqcls, if_false, if_true,
        h.bumped.next]
  · have hflist : (t₄.setAt j ⟨(t₄.sonAt j).sp, some new, (t₄.sonAt j).count⟩).flist =
        (t.dir new).next := by
      rw [← h.bumped.next]
      rfl
    rw [hflist]
    refine h.chain h.listed.chain.2 fun c hc => ?_
    have hfree : c ∈ new :: rest := List.mem_cons_of_mem _ hc
    rw [dir_setAt]
    refine hdir c (fun heq => hclasses.unused (show j < t.size by omega) (heq ▸ hfree))
      (fun heq => (List.nodup_cons.mp h.listed.nodup).1 (heq ▸ hc)) fun heq => ?_
    rw [heq, hbefore'] at hfree
    split_ifs at hfree
    · exact hclasses.unusedHead hfree
    · exact hclasses.unused (show j - 1 < t.size by omega) hfree

theorem Placed.stay (h : Placed t t' cls free j k) (hbefore : ∀ i < j, t.cnt j + 1 < t.cnt i)
    (hbehind : ∀ i, j < i → i < t.size → t.cnt i < t.cnt j) : Relists t' (some t') := by
  have hkj : j = k := by
    by_contra hne
    have := hbehind k (by have := h.le; omega) h.lt
    have := h.same
    omega
  have hdir : t'.dir = t.dir := funext fun c => h.bumped.dir c (.inr hkj)
  refine ⟨t', cls, free, rfl, .refl, ⟨fun {i} hi => ?_, ?_, ?_, h.listed.nodup⟩⟩
  · rw [h.bumped.top]
    exact h.listed.top (h.bumped.size_eq ▸ hi)
  · rw [h.bumped.size_eq, h.bumped.head, h.cnt_eq]
    exact h.listed.classes.stay (h.le.trans_lt h.lt) hbefore hbehind hdir
  · rw [h.bumped.flist, hdir]
    exact h.listed.chain

theorem Placed.index (h : Placed t t' cls free j k) :
    Relists t' (uptreeIndex t' ((t.sonAt k).count + 1) (cls k)
      (t'.stopAt ((t.sonAt k).count + 1) j (t'.countBefore ((t.sonAt k).count + 1) j)
        (t'.cellBefore cls j))) ∨
    free = [] ∧ uptreeIndex t' ((t.sonAt k).count + 1) (cls k)
      (t'.stopAt ((t.sonAt k).count + 1) j (t'.countBefore ((t.sonAt k).count + 1) j)
        (t'.cellBefore cls j)) = none := by
  have hj : j < t.size := h.le.trans_lt h.lt
  have hbound : t.cnt j < 2 ^ 31 - 1 := h.same ▸ h.bound
  obtain ⟨rc, hrcdef⟩ : ∃ rc, rc = (t.sonAt k).count + 1 := ⟨_, rfl⟩
  have hrc : rc.toInt = t.cnt j + 1 := by
    rw [hrcdef, toInt_succ h.bound, h.same]
    rfl
  rw [← hrcdef]
  have hcount : ∀ i, i ≠ j → (t'.sonAt i).count = (t.sonAt i).count := fun i hi => by
    rw [h.bumped.count, if_neg hi]
  have hqc : t'.countBefore rc j = t.countBefore rc j := by
    rw [countBefore, countBefore]
    split_ifs
    · rfl
    · exact hcount _ (by omega)
  have hsc : (t'.stopAt rc j (t'.countBefore rc j) (t'.cellBefore cls j)).sc =
      t.countBehind rc j := by
    rw [stopAt, countBehind, h.bumped.size_eq, hcount _ (by omega)]
  have hst : (t'.stopAt rc j (t'.countBefore rc j) (t'.cellBefore cls j)).st =
      if j + 1 = t'.size then none else some (cls (j + 1)) := by
    rw [stopAt, h.bumped.size_eq]
    split_ifs
    · rfl
    · rw [h.bumped.top]
      exact h.listed.top (by omega)
  generalize hp : t'.stopAt rc j (t'.countBefore rc j) (t'.cellBefore cls j) = p at hsc hst ⊢
  have hr : p.r = j / 2 := by rw [← hp]; rfl
  have hrs : p.rs = side j := by rw [← hp]; rfl
  have hs : p.s = (j + 1) / 2 := by rw [← hp]; rfl
  have hqt : p.qt = t'.cellBefore cls j := by rw [← hp]; rfl
  have hqc' : p.qc = t.countBefore rc j := by rw [← hqc, ← hp]; rfl
  have hnonneg : 0 ≤ t.cnt j := h.same ▸ h.nonneg
  -- whether the class goes on behind the place
  have hmore : (j + 1 < t.size ∧ t.cnt (j + 1) = t.cnt j) ∧ rc = t.countBehind rc j + 1 ∨
      (∀ i, j < i → i < t.size → t.cnt i < t.cnt j) ∧ t.countBehind rc j + 1 < rc := by
    rw [← Int32.toInt_inj, Int32.lt_iff_toInt_lt, hrc]
    by_cases hend : j + 1 = t.size
    · rw [toInt_countBehind hrc hnonneg hend]
      exact .inr ⟨fun i _ _ => by omega, by omega⟩
    · have hle := h.falling j (j + 1) (by omega) (by omega)
      rw [toInt_countBehind_of_lt hbound hle hend]
      rcases hle.eq_or_lt with heq | hlt
      · exact .inl ⟨⟨by omega, heq⟩, by omega⟩
      · refine .inr ⟨fun i hji hi => ?_, by omega⟩
        have := h.falling (j + 1) i (by omega) hi
        omega
  have hout : ∀ {o : Option Tree}, o = uptreeIndex t' rc (cls k) p →
      (Relists t' o ∨ free = [] ∧ o = none) →
      Relists t' (uptreeIndex t' rc (cls k) p) ∨
        free = [] ∧ uptreeIndex t' rc (cls k) p = none := fun heq => heq ▸ id
  by_cases hjoin : 0 < j ∧ t.cnt (j - 1) = t.cnt j + 1
  · have hcell : t'.cellBefore cls j = cls (j - 1) := by rw [cellBefore, if_neg (by omega)]
    have hqc₁ : rc = p.qc := hqc'.symm ▸ (eq_countBefore hrc).mpr hjoin
    rcases hmore with ⟨⟨hj1, hmore⟩, hsplit⟩ | ⟨hbehind, hlt⟩
    · refine hout ?_ (.inl (h.join hjoin.1 hjoin.2 hj1 hmore))
      have hnlt : ¬ t.countBehind rc j + 1 < rc := by
        rw [← hsplit, Int32.lt_iff_toInt_lt]
        omega
      rw [uptreeIndex, if_pos hqc₁, hr, hrs, hsc, hst, hs, hqt, hcell, if_neg hnlt,
        if_neg (by rw [h.bumped.size_eq]; omega)]
      rfl
    · refine hout ?_ (.inl (h.absorb hjoin.1 hjoin.2 hbehind))
      rw [uptreeIndex, if_pos hqc₁, hr, hrs, hsc, hst, hqt, hcell, if_pos hlt, ← h.cls_eq]
      rfl
  · have hqc₁ : ¬ rc = p.qc := fun heq => hjoin ((eq_countBefore hrc).mp (heq.trans hqc'))
    have hbefore : ∀ i < j, t.cnt j + 1 < t.cnt i := by
      intro i hi
      have h1 := h.falling i (j - 1) (by omega) (by omega)
      have h2 := h.first (j - 1) (by omega)
      have h3 : t.cnt (j - 1) ≠ t.cnt j + 1 := fun heq => hjoin ⟨by omega, heq⟩
      omega
    rcases hmore with ⟨⟨hj1, hmore⟩, hsplit⟩ | ⟨hbehind, hlt⟩
    · have hchain := h.listed.chain
      rw [← h.bumped.flist] at hchain
      rcases hfree : free with _ | ⟨new, rest⟩
      · rw [hfree] at hchain
        have hnone : t'.flist = none := hchain
        refine .inr ⟨rfl, ?_⟩
        rw [uptreeIndex, if_neg hqc₁, hsc, if_pos hsplit, new, hnone]
        rfl
      · rw [hfree] at hchain h
        rw [← hfree]
        have hsome : t'.flist = some new := hchain.1
        refine hout ?_ (.inl (h.divide hbefore hj1 hmore))
        rw [uptreeIndex, if_neg hqc₁, hsc, if_pos hsplit, Tree.new, hsome, hst,
          if_neg (by rw [h.bumped.size_eq]; omega), hr, hrs, hqt, hs]
        rfl
    · refine hout ?_ (.inl (h.stay hbefore hbehind))
      rw [uptreeIndex, if_neg hqc₁, hsc, if_neg]
      intro heq
      rw [← heq, Int32.lt_iff_toInt_lt] at hlt
      omega

end

end Tree

end Bsdi.Compact
