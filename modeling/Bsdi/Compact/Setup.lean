import Bsdi.Compact.Grow
import Mathlib.Tactic.IntervalCases

/-!
# From file to file

`setup` plants the tree of three characters, and the first lines of `compact` put the cells of the
last tree back on `flist`. They clear the flags of the characters, but not those of `EF` and `NC`.
-/

namespace Bsdi.Compact

/-- The first lines of `compact`. -/
def reset (t : Tree) : Option Tree := do
  let inp := fun ch => if ch < 256 then ⟨(t.inp ch).fp, 0⟩ else t.inp ch
  let t := { t with inp := inp }
  let c ← (t.dict t.bottom).right.top
  let t := t.setDir c { t.dir c with next := t.flist }
  let t := t.setSon t.bottom true { (t.dict t.bottom).right with top := some t.dirp }
  pure { t with flist := t.dirq }

section
variable {N : Nat} {cnt : Nat → Int} {cls : Nat → Nat} {dir dir' : Nat → Index} {head : Nat}
  {free : List Nat}

theorem Classes.chain {p : Option Nat} (h : Classes N cnt cls dir head free) (hfall : Falling N cnt)
    (hdir : ∀ c, c ≠ cls (N - 1) → (dir' c).next = (dir c).next)
    (hlast : (dir' (cls (N - 1))).next = p) (hchain : Tree.Chain dir' p free) {n k : Nat}
    (hk : k + n + 1 = N) :
    ∃ l, Tree.Chain dir' (some (cls k)) (l ++ free) ∧ l.Nodup ∧
      ∀ c, c ∈ l ↔ ∃ i, k ≤ i ∧ i < N ∧ cls i = c := by
  induction n generalizing k with
  | zero =>
    have hk' : N - 1 = k := by omega
    rw [hk'] at hlast
    refine ⟨[cls k], ⟨rfl, hlast ▸ hchain⟩, List.nodup_singleton _, fun c => ?_⟩
    rw [List.mem_singleton]
    constructor
    · rintro rfl
      exact ⟨k, le_rfl, by omega, rfl⟩
    · rintro ⟨i, hi, hiN, rfl⟩
      rw [show i = k by omega]
  | succ n ih =>
    obtain ⟨l, hl, hnodup, hmem⟩ := ih (k := k + 1) (by omega)
    by_cases hsame : cnt (k + 1) = cnt k
    · have hcls : cls (k + 1) = cls k := (h.same (by omega) (by omega)).mpr hsame
      refine ⟨l, hcls ▸ hl, hnodup, fun c => (hmem c).trans ⟨?_, ?_⟩⟩
      · rintro ⟨i, hi, hiN, rfl⟩
        exact ⟨i, by omega, hiN, rfl⟩
      · rintro ⟨i, hi, hiN, rfl⟩
        rcases eq_or_ne i k with rfl | hne
        · exact ⟨i + 1, le_rfl, by omega, hcls⟩
        · exact ⟨i, by omega, hiN, rfl⟩
    · have hapart : ∀ i, k < i → i < N → cls k ≠ cls i := by
        intro i hi hiN heq
        have h1 := h.between hfall (m := k + 1) (by omega) (by omega) hiN heq
        have h2 := (h.same (by omega) hiN).mp heq
        exact hsame (h1.trans h2.symm)
      refine ⟨cls k :: l, ⟨rfl, ?_⟩, List.nodup_cons.mpr ⟨fun hin => ?_, hnodup⟩, fun c => ?_⟩
      · rw [hdir _ (hapart (N - 1) (by omega) (by omega)), h.next (by omega) hsame]
        exact hl
      · obtain ⟨i, hi, hiN, heq⟩ := (hmem _).mp hin
        exact hapart i (by omega) hiN heq.symm
      · rw [List.mem_cons, hmem]
        constructor
        · rintro (rfl | ⟨i, hi, hiN, rfl⟩)
          · exact ⟨k, le_rfl, by omega, rfl⟩
          · exact ⟨i, by omega, hiN, rfl⟩
        · rintro ⟨i, hi, hiN, rfl⟩
          rcases eq_or_ne i k with rfl | hne
          · exact .inl rfl
          · exact .inr ⟨i, by omega, hiN, rfl⟩

end

namespace Tree

variable {t t' : Tree} {S : Finset Nat} {w : Nat → Int} {cls : Nat → Nat} {free : List Nat}

/-- The tables as `setup` expects them. -/
structure Ready (t : Tree) : Prop where
  start : (t.dir t.head).next = some t.dirp
  pt : (t.dir t.dirp).pt = 0
  apart : t.dirp ≠ t.head
  first : (t.dict 0).left.top = some t.dirp
  last : (t.dict t.bottom).right.top = some t.dirp
  dirq : t.dirq = t.flist
  free : ∃ free, Chain t.dir t.flist free ∧ free.Nodup ∧ t.dirp ∉ free ∧ t.head ∉ free ∧
    free.length + 1 = cells
  unseen : ∀ ch < 256, (t.inp ch).flags = 0

theorem chain_tables (n i : Nat) (hi : 2 ≤ i) (hn : i + n = 513) :
    Chain tables.dir (some i) (List.range' i (n + 1)) := by
  induction n generalizing i with
  | zero =>
    have hnext : (tables.dir i).next = none := if_pos (.inr (by omega))
    exact ⟨rfl, hnext⟩
  | succ n ih =>
    have hnext : (tables.dir i).next = some (i + 1) := if_neg (by omega)
    rw [List.range'_succ]
    refine ⟨rfl, ?_⟩
    rw [hnext]
    exact ih (i + 1) (by omega) (by omega)

theorem ready_tables : Ready tables := by
  have hnotin : ∀ i < 2, i ∉ List.range' 2 512 := by
    intro i hi hmem
    have := (List.mem_range'_1.mp hmem).1
    omega
  refine ⟨rfl, rfl, by decide, rfl, rfl, rfl, ⟨List.range' 2 512, chain_tables 511 2 le_rfl rfl,
    List.nodup_range', hnotin 1 (by omega), hnotin 0 (by omega), ?_⟩, fun ch hch => ?_⟩
  · rw [List.length_range', cells]
  · have hne : ch ≠ ef := by
      rw [ef]
      omega
    exact if_neg hne

@[simp] theorem inp_setNode {r : Nat} {n : Node} : (t.setNode r n).inp = t.inp := rfl
@[simp] theorem dir_setNode {r : Nat} {n : Node} : (t.setNode r n).dir = t.dir := rfl

section
variable {ch q : Nat}

/-- What `setup` makes of the tables. -/
structure Planted (t t' : Tree) (ch q : Nat) : Prop where
  bottom : t'.bottom = 1
  son₀ : t'.sonAt 0 = ⟨1, some t.dirp, 2⟩
  son₁ : t'.sonAt 1 = ⟨ch, some q, 1⟩
  son₂ : t'.sonAt 2 = ⟨nc, some q, 1⟩
  son₃ : t'.sonAt 3 = ⟨ef, some q, 1⟩
  fath₀ : (t'.dict 0).fath = ⟨none, rleaf⟩
  fath₁ : (t'.dict 1).fath = ⟨some 0, lleaf ||| rleaf⟩
  inp : ∀ x, t'.inp x = if x = ch then ⟨some 0, fbit ||| seen⟩ else
    if x = ef then ⟨some 1, (t.inp ef).flags⟩ else if x = nc then ⟨some 1, seen⟩ else t.inp x
  dir : ∀ c, t'.dir c = if c = q then ⟨0, none⟩ else
    if c = t.dirp then ⟨(t.dir t.dirp).pt, some q⟩ else t.dir c
  head : t'.head = t.head
  flist : t'.flist = (t.dir q).next
  dirp : t'.dirp = t.dirp
  dirq : t'.dirq = some q

theorem plant_planted (hflist : t.flist = some q) (hfirst : (t.dict 0).left.top = some t.dirp) :
    ∃ t', plant t ch = some t' ∧ Planted t t' ch q := by
  rw [plant, Tree.new, hflist]
  simp only [Option.bind_eq_bind, Option.bind_some, Option.pure_def]
  refine ⟨_, rfl, rfl, ?_, rfl, rfl, rfl, rfl, rfl, fun x => ?_, fun c => ?_, rfl, rfl, rfl, rfl⟩
  · change (⟨1, (t.dict 0).left.top, 2⟩ : Son) = _
    rw [hfirst]
  · simp [show ef ≠ nc by decide]
  · simp

theorem Planted.size_eq (h : Planted t t' ch q) : t'.size = 4 := by rw [size, h.bottom]

theorem Planted.item (h : Planted t t' ch q) : t'.itemAt 0 = .node 1 ∧ t'.itemAt 1 = .chr ch ∧
    t'.itemAt 2 = .chr nc ∧ t'.itemAt 3 = .chr ef := by
  have h₀ : t'.leafAt 0 = false := by
    change hasLeaf (t'.dict 0).fath.flags false = false
    rw [h.fath₀]
    decide
  have h₁ : t'.leafAt 1 = true := by
    change hasLeaf (t'.dict 0).fath.flags true = true
    rw [h.fath₀]
    decide
  have h₂ : t'.leafAt 2 = true := by
    change hasLeaf (t'.dict 1).fath.flags false = true
    rw [h.fath₁]
    decide
  have h₃ : t'.leafAt 3 = true := by
    change hasLeaf (t'.dict 1).fath.flags true = true
    rw [h.fath₁]
    decide
  simp [itemAt, h₀, h₁, h₂, h₃, h.son₀, h.son₁, h.son₂, h.son₃]

theorem Planted.linked (h : Planted t t' ch q) (hch : ch < 256)
    (hef : (t.inp ef).flags % 2 = 1) : Linked t' {ch, nc, ef} := by
  have hsize := h.size_eq
  obtain ⟨i₀, i₁, i₂, i₃⟩ := h.item
  have hchnc : nc ≠ ch := by
    rw [nc]
    omega
  have hchef : ef ≠ ch := by
    rw [ef]
    omega
  refine ⟨fun {k} hk => ?_, fun {k c} hk hitem => ?_, fun {k x} hk hitem => ?_,
    fun {c} h0 hc => ?_, fun {x} hx => ?_, ?_⟩
  · rw [hsize] at hk
    interval_cases k
    · rw [i₀, upOf, h.fath₁]
      rfl
    · rw [i₁, upOf, h.inp, if_pos rfl]
      rfl
    · rw [i₂, upOf, h.inp, if_neg hchnc, if_neg (by decide), if_pos rfl]
      rfl
    · rw [i₃, upOf, h.inp, if_neg hchef, if_pos rfl, hef]
      rfl
  · rw [hsize] at hk
    rw [h.bottom]
    interval_cases k
    · obtain rfl := Item.node.inj (i₀.symm.trans hitem)
      omega
    · exact absurd (i₁.symm.trans hitem) (by simp)
    · exact absurd (i₂.symm.trans hitem) (by simp)
    · exact absurd (i₃.symm.trans hitem) (by simp)
  · rw [hsize] at hk
    simp only [Finset.mem_insert, Finset.mem_singleton]
    interval_cases k
    · exact absurd (i₀.symm.trans hitem) (by simp)
    · exact .inl (Item.chr.inj (i₁.symm.trans hitem)).symm
    · exact .inr (.inl (Item.chr.inj (i₂.symm.trans hitem)).symm)
    · exact .inr (.inr (Item.chr.inj (i₃.symm.trans hitem)).symm)
  · rw [h.bottom] at hc
    obtain rfl : c = 1 := by omega
    exact ⟨0, by omega, i₀⟩
  · simp only [Finset.mem_insert, Finset.mem_singleton] at hx
    rcases hx with rfl | rfl | rfl
    · exact ⟨1, by omega, i₁⟩
    · exact ⟨2, by omega, i₂⟩
    · exact ⟨3, by omega, i₃⟩
  · rw [h.fath₀]

theorem Planted.cnt_eq (h : Planted t t' ch q) :
    t'.cnt 0 = 2 ∧ t'.cnt 1 = 1 ∧ t'.cnt 2 = 1 ∧ t'.cnt 3 = 1 := by
  simp only [cnt, h.son₀, h.son₁, h.son₂, h.son₃]
  decide

theorem Planted.weighed (h : Planted t t' ch q) : Weighed t' (fun _ => 1) none := by
  have hsize := h.size_eq
  obtain ⟨i₀, i₁, i₂, i₃⟩ := h.item
  obtain ⟨c₀, c₁, c₂, c₃⟩ := h.cnt_eq
  have hcnt : ∀ k < t'.size, t'.cnt k = if k = 0 then 2 else 1 := by
    intro k hk
    rw [hsize] at hk
    interval_cases k
    · exact c₀
    · exact c₁
    · exact c₂
    · exact c₃
  refine ⟨fun {k} hk => ?_, fun i k hik hk => ?_, fun {k} hk _ => ?_, fun {k} hk => ?_⟩
  · rw [if_neg (Option.some_ne_none k), Int.add_zero]
    rw [hsize] at hk
    interval_cases k
    · rw [i₀, weight, c₀, c₂, c₃]
      rfl
    · rw [i₁, weight, c₁]
    · rw [i₂, weight, c₂]
    · rw [i₃, weight, c₃]
  · rw [hcnt k hk, hcnt i (by omega)]
    split_ifs <;> omega
  · rw [hcnt k hk]
    split_ifs <;> omega
  · rw [hcnt k hk]
    split_ifs <;> omega

theorem Planted.listed {rest : List Nat} (h : Planted t t' ch q) (hready : Ready t)
    (hchain : Chain t.dir t.flist (q :: rest)) (hnodup : (q :: rest).Nodup)
    (hdirp : t.dirp ∉ q :: rest) (hhead : t.head ∉ q :: rest)
    (hlength : (q :: rest).length + 1 = cells) : ∃ cls, Listed t' cls rest := by
  have hsize := h.size_eq
  obtain ⟨c₀, c₁, c₂, c₃⟩ := h.cnt_eq
  obtain ⟨hqrest, hrest⟩ := List.nodup_cons.mp hnodup
  have hpq : t.dirp ≠ q := fun heq => hdirp (heq ▸ List.mem_cons_self)
  have hhq : t.head ≠ q := fun heq => hhead (heq ▸ List.mem_cons_self)
  have hdirP : t'.dir t.dirp = ⟨0, some q⟩ := by rw [h.dir, if_neg hpq, if_pos rfl, hready.pt]
  have hdirQ : t'.dir q = ⟨0, none⟩ := by rw [h.dir, if_pos rfl]
  have hcnt : ∀ k < 4, t'.cnt k = if k = 0 then 2 else 1 := by
    intro k hk
    interval_cases k
    · exact c₀
    · exact c₁
    · exact c₂
    · exact c₃
  obtain ⟨cls, hcls⟩ : ∃ cls : Nat → Nat, ∀ k, cls k = if k = 0 then t.dirp else q :=
    ⟨_, fun _ => rfl⟩
  have hcls₀ : cls 0 = t.dirp := by rw [hcls, if_pos rfl]
  have hclsPos : ∀ k, 0 < k → cls k = q := fun k hk => by rw [hcls, if_neg (by omega)]
  refine ⟨cls, fun {k} hk => ?_, ?_, ?_, hrest⟩
  · rw [hsize] at hk
    interval_cases k
    · rw [h.son₀, hcls₀]
    · rw [h.son₁, hclsPos 1 (by omega)]
    · rw [h.son₂, hclsPos 2 (by omega)]
    · rw [h.son₃, hclsPos 3 (by omega)]
  · rw [hsize]
    refine ⟨fun {i k} hi hk => ?_, fun {k} hk hfirst => ?_, fun {k} hk hne => ?_, fun {k} hk => ?_,
      ?_, fun {k} hk => ?_, fun {k} hk => ?_, ?_, ?_⟩
    · rw [hcls, hcls, hcnt i hi, hcnt k hk]
      split_ifs
      · exact iff_of_true rfl rfl
      · exact iff_of_false hpq (by decide)
      · exact iff_of_false hpq.symm (by decide)
      · exact iff_of_true rfl rfl
    · rcases Nat.lt_or_ge k 2 with hlt | hge
      · rw [show k / 2 = 0 by omega]
        rcases Nat.eq_zero_or_pos k with rfl | hpos
        · rw [hcls₀, hdirP]
        · rw [hclsPos k hpos, hdirQ]
      · refine absurd ?_ (hfirst (k - 1) (by omega))
        rw [hcnt _ (by omega), hcnt k hk, if_neg (by omega), if_neg (by omega)]
    · have hk0 : k = 0 := by
        by_contra hk0
        refine hne ?_
        rw [hcnt _ hk, hcnt k (by omega), if_neg (by omega), if_neg hk0]
      rw [hk0, hcls₀, hdirP, hclsPos 1 (by omega)]
    · rw [hclsPos k (by omega), hdirQ]
    · rw [h.head, hcls₀, h.dir, if_neg hhq, if_neg hready.apart.symm]
      exact hready.start
    · rw [h.head, hcls]
      split_ifs
      · exact hready.apart
      · exact hhq.symm
    · rw [hcls]
      split_ifs
      · exact fun hmem => hdirp (List.mem_cons_of_mem _ hmem)
      · exact hqrest
    · rw [h.head]
      exact fun hmem => hhead (List.mem_cons_of_mem _ hmem)
    · have himage : (Finset.range 4).image cls = {t.dirp, q} := by
        ext c
        simp only [Finset.mem_image, Finset.mem_range, Finset.mem_insert, Finset.mem_singleton]
        constructor
        · rintro ⟨k, -, rfl⟩
          rw [hcls]
          split_ifs
          · exact .inl rfl
          · exact .inr rfl
        · rintro (rfl | rfl)
          · exact ⟨0, by omega, hcls₀⟩
          · exact ⟨1, by omega, hclsPos 1 (by omega)⟩
      rw [himage, Finset.card_pair hpq]
      rw [List.length_cons] at hlength
      omega
  · rw [h.flist]
    refine Chain.congr hchain.2 fun c hc => ?_
    have hc1 : c ≠ q := fun heq => hqrest (heq ▸ hc)
    have hc2 : c ≠ t.dirp := fun heq => hdirp (heq ▸ List.mem_cons_of_mem _ hc)
    rw [h.dir, if_neg hc1, if_neg hc2]

theorem Ready.plant (h : Ready t) (hch : ch < 256) :
    ∃ t', Compact.plant t ch = some t' ∧ t'.bottom = 1 ∧ Ends t' ∧
      Marked t' {ch, nc, ef} ∧
      ((t.inp ef).flags % 2 = 1 → Kept t' {ch, nc, ef} (fun _ => 1) none) := by
  obtain ⟨free, hchain, hnodup, hdirp, hhead, hlength⟩ := h.free
  match free, hchain, hnodup, hdirp, hhead, hlength with
  | q :: rest, hchain, hnodup, hdirp, hhead, hlength =>
    obtain ⟨t', heq, hplanted⟩ : ∃ t', Compact.plant t ch = some t' ∧ Planted t t' ch q :=
      plant_planted hchain.1 h.first
    have hpq : t.dirp ≠ q := fun heq => hdirp (heq ▸ List.mem_cons_self)
    have hhq : t.head ≠ q := fun heq => hhead (heq ▸ List.mem_cons_self)
    refine ⟨t', heq, hplanted.bottom, ⟨t.dirp, ?_, hplanted.dirp, ?_⟩, fun x hx => ?_, fun hef =>
      ⟨hplanted.linked hch hef, hplanted.weighed,
        (hplanted.listed h hchain hnodup hdirp hhead hlength).imp fun cls hcls => ⟨rest, hcls⟩⟩⟩
    · rw [hplanted.head, hplanted.dir, if_neg hhq, if_neg h.apart.symm]
      exact h.start
    · rw [hplanted.dirq, hplanted.dir, if_neg hpq, if_pos rfl]
    · have hxef : x ≠ ef := by
        rw [ef]
        omega
      have hxnc : x ≠ nc := by
        rw [nc]
        omega
      rw [hplanted.inp, if_neg hxef, if_neg hxnc, Finset.mem_insert, Finset.mem_insert,
        Finset.mem_singleton]
      split_ifs with hxch
      · exact iff_of_true (by decide) (.inl hxch)
      · rw [h.unseen x hx, Nat.zero_and]
        exact iff_of_false (by simp) (by simp [hxch, hxnc, hxef])

end

theorem Kept.two_classes (h : Kept t S w none) (hbottom : 1 ≤ t.bottom) :
    t.cnt (t.size - 1) < t.cnt 0 := by
  have hsize : t.size = 2 * (t.bottom + 1) := rfl
  obtain ⟨k, hk, hitem⟩ := h.linked.node Nat.one_pos hbottom
  have hsum := h.weighed.sum hk
  rw [if_neg (Option.some_ne_none k), Int.add_zero, hitem, weight] at hsum
  have h1 := h.weighed.pos (k := 2 * 1) (by omega) (Option.some_ne_none _)
  have h2 := h.weighed.falling (2 * 1 + 1) (t.size - 1) (by omega) (by omega)
  have h3 := h.weighed.falling 0 k (Nat.zero_le _) hk
  omega

/-- What the first lines of `compact` do, where the last class has the cell `c`. -/
structure Cleared (t t' : Tree) (c : Nat) : Prop where
  bottom : t'.bottom = t.bottom
  first : (t'.dict 0).left.top = (t.dict 0).left.top
  last : (t'.dict t.bottom).right.top = some t.dirp
  inp : ∀ x, t'.inp x = if x < 256 then ⟨(t.inp x).fp, 0⟩ else t.inp x
  dir : ∀ i, t'.dir i = if i = c then ⟨(t.dir c).pt, t.flist⟩ else t.dir i
  head : t'.head = t.head
  flist : t'.flist = t.dirq
  dirp : t'.dirp = t.dirp
  dirq : t'.dirq = t.dirq

theorem reset_cleared {c : Nat} (hc : (t.dict t.bottom).right.top = some c) :
    ∃ t', Compact.reset t = some t' ∧ Cleared t t' c := by
  rw [Compact.reset]
  simp only [hc, Option.bind_eq_bind, Option.bind_some, Option.pure_def, setSon_right]
  refine ⟨_, rfl, rfl, ?_, ?_, fun x => rfl, fun i => ?_, rfl, rfl, rfl, rfl⟩
  · have hne : (2 * 0 : Nat) ≠ 2 * t.bottom + 1 := by omega
    rw [son_left, son_left]
    exact congrArg Son.top (sonAt_setAt.trans (if_neg hne))
  · rw [son_right]
    exact congrArg Son.top (sonAt_setAt.trans (if_pos rfl))
  · exact dir_setDir

theorem Kept.reset (h : Kept t S w none) (hends : Ends t) (hbottom : 1 ≤ t.bottom) :
    ∃ t', Compact.reset t = some t' ∧ Ready t' ∧ t'.inp ef = t.inp ef := by
  have hsize : t.size = 2 * (t.bottom + 1) := rfl
  obtain ⟨cls, free, hlisted⟩ := h.listed
  obtain ⟨dirp, hstart, hdirp, hdirq⟩ := hends
  have hfall := h.weighed.falling
  obtain rfl : cls 0 = dirp := Option.some.inj (hlisted.classes.start.symm.trans hstart)
  have htwo := h.two_classes hbottom
  have hends : cls 0 ≠ cls (t.size - 1) :=
    hlisted.classes.cls_ne (by omega) (by omega) (by omega)
  have hlast : (t.dict t.bottom).right.top = some (cls (t.size - 1)) := by
    rw [son_right]
    exact hlisted.top (by omega)
  obtain ⟨t', heq, hcleared⟩ := reset_cleared hlast
  have hdir : ∀ c, c ≠ cls (t.size - 1) → t'.dir c = t.dir c := fun c hc => by
    rw [hcleared.dir, if_neg hc]
  have hchain : Chain t'.dir t.flist free := by
    refine Chain.congr hlisted.chain fun c hc => ?_
    rw [hdir c fun heq => hlisted.classes.unused (k := t.size - 1) (by omega) (heq ▸ hc)]
  have hnext : (t'.dir (cls (t.size - 1))).next = t.flist := by rw [hcleared.dir, if_pos rfl]
  obtain ⟨l, hl, hnodup, hmem⟩ := hlisted.classes.chain hfall (fun c hc => by rw [hdir c hc]) hnext
    hchain (n := t.size - 1) (k := 0) (by omega)
  -- the first class keeps its cell, and those of the others are free
  match l, hl, hnodup, hmem with
  | [], hl, hnodup, hmem => exact absurd ((hmem (cls 0)).mpr ⟨0, le_rfl, by omega, rfl⟩) (by simp)
  | c :: l, hl, hnodup, hmem =>
    obtain rfl : cls 0 = c := Option.some.inj hl.1
    obtain ⟨hnotin, hnodup⟩ := List.nodup_cons.mp hnodup
    have hused : ∀ c ∈ l, ∃ i < t.size, cls i = c := fun c hc => by
      obtain ⟨i, -, hi, hic⟩ := (hmem c).mp (List.mem_cons_of_mem _ hc)
      exact ⟨i, hi, hic⟩
    have hapart : t.head ∉ l := fun hin => by
      obtain ⟨i, hi, hih⟩ := hused _ hin
      exact hlisted.classes.apart hi hih
    have hcard : ((Finset.range t.size).image cls).card = l.length + 1 := by
      have himage : (Finset.range t.size).image cls = (cls 0 :: l).toFinset := by
        ext c
        rw [List.mem_toFinset, hmem, Finset.mem_image]
        simp
      rw [himage, List.toFinset_card_of_nodup (List.nodup_cons.mpr ⟨hnotin, hnodup⟩),
        List.length_cons]
    have hdirp' : t'.dirp = cls 0 := hcleared.dirp.trans hdirp
    refine ⟨t', heq, ⟨?_, ?_, ?_, ?_, ?_, ?_, ⟨l ++ free, ?_, ?_, ?_, ?_, ?_⟩,
      fun ch hch => ?_⟩, ?_⟩
    · rw [hcleared.head, hdir _ (hlisted.classes.apart (by omega)).symm, hdirp', hstart]
    · rw [hdirp', hdir _ hends]
      exact hlisted.classes.pt (by omega) (by omega)
    · rw [hdirp', hcleared.head]
      exact hlisted.classes.apart (by omega)
    · rw [hcleared.first, hdirp', son_left]
      exact hlisted.top (by omega)
    · rw [hcleared.bottom, hcleared.last, hcleared.dirp]
    · rw [hcleared.dirq, hcleared.flist]
    · rw [hcleared.flist, hdirq, ← hdir _ hends]
      exact hl.2
    · exact hnodup.append hlisted.nodup fun c hc hfree => by
        obtain ⟨i, hi, hic⟩ := hused c hc
        exact hlisted.classes.unused hi (hic ▸ hfree)
    · rw [hdirp', List.mem_append, not_or]
      exact ⟨hnotin, hlisted.classes.unused (by omega)⟩
    · rw [hcleared.head, List.mem_append, not_or]
      exact ⟨hapart, hlisted.classes.unusedHead⟩
    · have := hlisted.classes.count
      rw [List.length_append]
      omega
    · rw [hcleared.inp, if_pos hch]
    · rw [hcleared.inp, if_neg (by decide)]

theorem Ready.reset (h : Ready t) :
    ∃ t', Compact.reset t = some t' ∧ Ready t' ∧ t'.inp ef = t.inp ef := by
  obtain ⟨t', heq, hcleared⟩ := reset_cleared h.last
  obtain ⟨free, hchain, hnodup, hdirp, hhead, hlength⟩ := h.free
  refine ⟨t', heq, ⟨?_, ?_, ?_, ?_, ?_, ?_, ⟨free, ?_, hnodup, ?_, ?_, hlength⟩,
    fun ch hch => ?_⟩, ?_⟩
  · rw [hcleared.head, hcleared.dir, if_neg h.apart.symm, hcleared.dirp, h.start]
  · rw [hcleared.dirp, hcleared.dir, if_pos rfl, h.pt]
  · rw [hcleared.dirp, hcleared.head]
    exact h.apart
  · rw [hcleared.first, hcleared.dirp, h.first]
  · rw [hcleared.bottom, hcleared.last, hcleared.dirp]
  · rw [hcleared.dirq, hcleared.flist]
  · rw [hcleared.flist, h.dirq]
    refine Chain.congr hchain fun c hc => ?_
    rw [hcleared.dir, if_neg fun hcd : c = t.dirp => hdirp (hcd ▸ hc)]
  · rw [hcleared.dirp]
    exact hdirp
  · rw [hcleared.head]
    exact hhead
  · rw [hcleared.inp, if_pos hch]
  · rw [hcleared.inp, if_neg (by decide)]

end Tree

end Bsdi.Compact
