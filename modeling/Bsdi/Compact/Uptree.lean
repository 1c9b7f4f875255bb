import Bsdi.Compact.Relist

/-!
# `uptree`

One turn of the outer loop raises the count of a place, after what it holds has moved to the
first place of its class; the place above it is then behind by one.
-/

namespace Bsdi.Compact

namespace Tree

variable {t t' t'' : Tree} {S : Finset Nat} {w : Nat → Int} {cls : Nat → Nat} {free : List Nat}
  {i j k q : Nat}

theorem linkTo_inj (h : linkTo i = linkTo k) : i = k := by
  have h1 := Option.some.inj (congrArg Prod.fst h)
  have h2 := congrArg Prod.snd h
  simp only [linkTo] at h1 h2
  omega

theorem Linked.item_inj (h : Linked t S) (hi : i < t.size) (hk : k < t.size)
    (heq : t.itemAt i = t.itemAt k) : i = k :=
  linkTo_inj (by rw [← h.up hi, ← h.up hk, heq])

theorem Weighed.below {c : Nat} (h : Weighed t w (some k)) (hlinked : Linked t S)
    (hk : k < t.size) (hjk : j < k) (hcnt : t.cnt j = t.cnt k) (hitem : t.itemAt j = .node c) :
    k / 2 < c := by
  have hsize : t.size = 2 * (t.bottom + 1) := rfl
  have hc := (hlinked.node_bounds (by omega) hitem).2
  have hsum := h.sum (k := j) (by omega)
  rw [if_neg fun heq => hjk.ne (Option.some.inj heq), hitem, weight] at hsum
  have hnot : ∀ i, i < t.size → i ≠ k → 1 ≤ t.cnt i := fun i hi hne =>
    h.pos hi fun heq => hne (Option.some.inj heq)
  by_contra hle
  have hfall := h.falling (2 * c) k (by omega) hk
  by_cases hk1 : k = 2 * c + 1
  · have h1 := hnot (2 * c) (by omega) (by omega)
    rw [← hk1] at hsum
    omega
  · have h1 := hnot (2 * c + 1) (by omega) (by omega)
    omega

theorem Bumped.linked (h : Bumped t t' j k q) (hlinked : Linked t S) (hk : k < t.size)
    (hjk : j ≤ k) (hbelow : ∀ c, j < k → t.itemAt j = .node c → k / 2 < c) : Linked t' S := by
  have hj : j < t.size := by omega
  have hswap : ∀ {i}, i < t.size → Equiv.swap j k i < t.size := by
    intro i hi
    rw [Equiv.swap_apply_def]
    split_ifs <;> omega
  have hzero : ∀ i, i < t.size → Item.node 0 ≠ t.itemAt i := fun i hi heq => by
    have := (hlinked.node_bounds hi heq.symm).1
    omega
  rw [show t.size = t'.size from h.size_eq.symm] at hk hj hswap
  have hsize : t'.size = t.size := h.size_eq
  refine ⟨fun {i} hi => ?_, fun {i c} hi heq => ?_, fun {i ch} hi heq => ?_, fun {c} h0 hc => ?_,
    fun {ch} hch => ?_, ?_⟩
  · rw [h.item, h.up]
    rcases eq_or_ne i j with rfl | hij
    · rw [Equiv.swap_apply_left, if_pos rfl]
    rcases eq_or_ne i k with rfl | hik
    · rw [Equiv.swap_apply_right, if_neg, if_pos rfl]
      exact fun heq => hij (hlinked.item_inj (by omega) (by omega) heq).symm
    · rw [Equiv.swap_apply_of_ne_of_ne hij hik, if_neg, if_neg, hlinked.up (by omega)]
      · exact fun heq => hij (hlinked.item_inj (by omega) (by omega) heq)
      · exact fun heq => hik (hlinked.item_inj (by omega) (by omega) heq)
  · rw [h.item] at heq
    rw [h.bottom]
    have hbounds := hlinked.node_bounds (hsize ▸ hswap hi) heq
    rcases eq_or_ne i j with rfl | hij
    · rw [Equiv.swap_apply_left] at hbounds
      exact ⟨by omega, hbounds.2⟩
    rcases eq_or_ne i k with rfl | hik
    · rw [Equiv.swap_apply_right] at heq
      exact ⟨hbelow c (by omega) heq, hbounds.2⟩
    · rw [Equiv.swap_apply_of_ne_of_ne hij hik] at hbounds
      exact hbounds
  · rw [h.item] at heq
    exact hlinked.chr_mem (hsize ▸ hswap hi) heq
  · rw [h.bottom] at hc
    obtain ⟨i, hi, heq⟩ := hlinked.node h0 hc
    exact ⟨_, hswap (hsize ▸ hi), by rw [h.item, Equiv.swap_apply_self, heq]⟩
  · obtain ⟨i, hi, heq⟩ := hlinked.chr hch
    exact ⟨_, hswap (hsize ▸ hi), by rw [h.item, Equiv.swap_apply_self, heq]⟩
  · have hup := h.up (.node 0)
    rw [if_neg (hzero k (by omega)), if_neg (hzero j (by omega))] at hup
    exact (congrArg Prod.fst hup).trans hlinked.root

theorem Relisted.linked (h : Relisted t t') (hlinked : Linked t S) : Linked t' S := by
  have hsize := h.size_eq
  refine ⟨fun {i} hi => ?_, fun {i c} hi heq => ?_, fun {i ch} hi heq => ?_, fun {c} h0 hc => ?_,
    fun {ch} hch => ?_, ?_⟩
  · rw [h.item, h.up]
    exact hlinked.up (hsize ▸ hi)
  · rw [h.item] at heq
    rw [h.bottom]
    exact hlinked.node_bounds (hsize ▸ hi) heq
  · rw [h.item] at heq
    exact hlinked.chr_mem (hsize ▸ hi) heq
  · obtain ⟨i, hi, heq⟩ := hlinked.node h0 (h.bottom ▸ hc)
    exact ⟨i, hsize.symm ▸ hi, by rw [h.item, heq]⟩
  · obtain ⟨i, hi, heq⟩ := hlinked.chr hch
    exact ⟨i, hsize.symm ▸ hi, by rw [h.item, heq]⟩
  · exact (congrArg Prod.fst (h.up (.node 0))).trans hlinked.root

theorem Relisted.weight_eq (h : Relisted t t') (x : Item) : t'.weight w x = t.weight w x := by
  cases x with
  | node c => rw [weight, weight, h.cnt_eq]
  | chr ch => rfl

theorem Relisted.weighed {pend : Option Nat} (h : Relisted t t') (hweighed : Weighed t w pend) :
    Weighed t' w pend := by
  have hsize := h.size_eq
  refine ⟨fun {i} hi => ?_, ?_, fun {i} hi => ?_, fun {i} hi => ?_⟩
  · rw [h.cnt_eq, h.item, h.weight_eq]
    exact hweighed.sum (hsize ▸ hi)
  · rw [hsize, h.cnt_eq]
    exact hweighed.falling
  · rw [h.cnt_eq]
    exact hweighed.pos (hsize ▸ hi)
  · rw [h.cnt_eq]
    exact hweighed.nonneg (hsize ▸ hi)

theorem Bumped.weighed {pend : Option Nat} (h : Bumped t t' j k q) (hlinked : Linked t S)
    (hweighed : Weighed t w (some k)) (hk : k < t.size) (hjk : j ≤ k) (hcnt : t.cnt j = t.cnt k)
    (hfirst : IsFirst t.cnt j) (hbound : t.cnt k < 2 ^ 31 - 1)
    (hpend : ∀ i < t.size, some i = pend ↔ t'.itemAt i = .node (j / 2)) :
    Weighed t' w pend := by
  have hsize : t'.size = t.size := h.size_eq
  have hcnt' : t'.cnt = raised t.cnt j := h.cnt_eq (hcnt ▸ hbound)
  have hbelow : ∀ c, j < k → t.itemAt j = .node c → k / 2 < c := fun c hlt =>
    hweighed.below hlinked hk hlt hcnt
  have hweight : ∀ x, t'.weight w x =
      t.weight w x + if x = .node (j / 2) then 1 else 0 := by
    intro x
    cases x with
    | chr ch => simp [weight]
    | node c =>
      simp only [weight, hcnt', raised, Item.node.injEq]
      split_ifs <;> omega
  refine ⟨fun {i} hi => ?_, ?_, fun {i} hi hne => ?_, fun {i} hi => ?_⟩
  · rw [hsize] at hi
    have hflag : (if some i = pend then (1 : Int) else 0) =
        if t'.itemAt i = .node (j / 2) then 1 else 0 := if_congr (hpend i hi) rfl rfl
    rw [hflag, hweight, hcnt']
    have hgoal : raised t.cnt j i = t.weight w (t'.itemAt i) := by
      rw [h.item]
      rcases eq_or_ne i j with rfl | hij
      · have hsum := hweighed.sum hk
        rw [if_pos rfl] at hsum
        rw [Equiv.swap_apply_left, raised_self, hcnt, hsum]
      rcases eq_or_ne i k with rfl | hik
      · have hsum := hweighed.sum (k := j) (by omega)
        rw [if_neg fun heq => hij (Option.some.inj heq).symm] at hsum
        rw [Equiv.swap_apply_right, raised_of_ne hij, ← hcnt, ← hsum, Int.add_zero]
      · have hsum := hweighed.sum hi
        rw [if_neg fun heq => hik (Option.some.inj heq)] at hsum
        rw [Equiv.swap_apply_of_ne_of_ne hij hik, raised_of_ne hij, ← hsum, Int.add_zero]
    rw [hgoal]
  · rw [hsize, hcnt']
    exact hweighed.falling.raised hfirst
  · rw [hsize] at hi
    rw [hcnt', raised]
    split_ifs with hij
    · have := hweighed.nonneg hi
      omega
    · rcases eq_or_ne i k with rfl | hik
      · have := hweighed.pos (k := j) (by omega) fun heq => hij (Option.some.inj heq).symm
        omega
      · exact hweighed.pos hi fun heq => hik (Option.some.inj heq)
  · rw [hsize] at hi
    rw [hcnt', raised]
    have := hweighed.nonneg hi
    split_ifs <;> omega

/-- A tree between two steps of `uptree`, or with `pend` none after it. -/
structure Kept (t : Tree) (S : Finset Nat) (w : Nat → Int) (pend : Option Nat) : Prop where
  linked : Linked t S
  weighed : Weighed t w pend
  listed : ∃ cls free, Listed t cls free

/-- The second and the third cell of the list, where `uptree` leaves them. -/
def Ends (t : Tree) : Prop := ∃ dirp, (t.dir t.head).next = some dirp ∧ t.dirp = dirp ∧
  t.dirq = (t.dir dirp).next

theorem Listed.full (h : Listed t cls []) : 256 ≤ t.bottom := by
  have hcount := h.classes.count
  have hle : ((Finset.range t.size).image cls).card ≤ t.size := by
    simpa using Finset.card_image_le (s := Finset.range t.size) (f := cls)
  have hsize : t.size = 2 * (t.bottom + 1) := rfl
  simp only [List.length_nil, cells] at hcount
  omega

theorem Kept.turn (h : Kept t S w (some k)) (hk : k < t.size) (hbound : t.cnt 0 < 2 ^ 31 - 1) :
    (∃ j t₁ t₂ p, j ≤ k ∧ p.r = j / 2 ∧
        uptreeInner ((t.sonAt k).count + 1) (2 * nf) (t.counted k) (k / 2) (side k) =
          some (t₁, p) ∧
        (∃ c, (t.sonAt k).top = some c ∧
          uptreeIndex t₁ ((t.sonAt k).count + 1) c p = some t₂) ∧
        t₂.bottom = t.bottom ∧ t₂.cnt = raised t.cnt j ∧ Linked t₂ S ∧
        ∀ pend, (∀ i < t.size, some i = pend ↔ t₂.itemAt i = .node (j / 2)) →
          Kept t₂ S w pend) ∨
    256 ≤ t.bottom ∧ ∃ c t₁ p, (t.sonAt k).top = some c ∧
      uptreeInner ((t.sonAt k).count + 1) (2 * nf) (t.counted k) (k / 2) (side k) =
        some (t₁, p) ∧ uptreeIndex t₁ ((t.sonAt k).count + 1) c p = none := by
  obtain ⟨cls, free, hlisted⟩ := h.listed
  have hfall := h.weighed.falling
  have hkb : t.cnt k < 2 ^ 31 - 1 := lt_of_le_of_lt (hfall 0 k (Nat.zero_le _) hk) hbound
  obtain ⟨j, hjk, hcnt, hfirst⟩ := exists_first hfall hk
  obtain ⟨t₁, hinner, hbumped⟩ : ∃ t₁, uptreeInner ((t.sonAt k).count + 1) (514 + 2) (t.counted k)
      (k / 2) (side k) = some (t₁, t₁.stopAt ((t.sonAt k).count + 1) j
        (t₁.countBefore ((t.sonAt k).count + 1) j) (t₁.cellBefore cls j)) ∧
      Bumped t t₁ j k (cls k) :=
    inner_spec h.linked hfall hlisted hk hkb hjk hcnt hfirst
  have hplaced : Placed t t₁ cls free j k :=
    ⟨hlisted, hfall, hk, hkb, h.weighed.nonneg hk, hjk, hcnt, hfirst, hbumped⟩
  have htop := hlisted.top hk
  rcases hplaced.index with ⟨t₂, cls', free', hindex, hrel, hlisted'⟩ | ⟨rfl, hnone⟩
  · have hlinked : Linked t₂ S := hrel.linked <|
      hbumped.linked h.linked hk hjk fun c hlt => h.weighed.below h.linked hk hlt hcnt
    refine .inl ⟨j, t₁, t₂, _, hjk, rfl, hinner, ⟨cls k, htop, hindex⟩,
      hrel.bottom.trans hbumped.bottom, hrel.cnt_eq.trans (hbumped.cnt_eq (hcnt ▸ hkb)), hlinked,
      fun pend hpend => ⟨hlinked, hrel.weighed ?_, cls', free', hlisted'⟩⟩
    refine hbumped.weighed h.linked h.weighed hk hjk hcnt hfirst hkb fun i hi => ?_
    rw [← hrel.item]
    exact hpend i hi
  · exact .inr ⟨hlisted.full, cls k, t₁, _, htop, hinner, hnone⟩

section
variable {fuel c : Nat} {p : Stop}

theorem outer_none (htop : (t.sonAt k).top = some c)
    (hinner : uptreeInner ((t.sonAt k).count + 1) (2 * nf) (t.counted k) (k / 2) (side k) =
      some (t', p))
    (hindex : uptreeIndex t' ((t.sonAt k).count + 1) c p = none) :
    uptreeOuter (fuel + 1) t (k / 2) (side k) = none := by
  rw [counted, htop] at hinner
  simp only [uptreeOuter, son_place, setSon_place, htop, hinner, hindex, Option.bind_eq_bind,
    Option.bind_some, Option.bind_none]

theorem outer_root {dirp : Nat} (htop : (t.sonAt k).top = some c)
    (hinner : uptreeInner ((t.sonAt k).count + 1) (2 * nf) (t.counted k) (k / 2) (side k) =
      some (t', p))
    (hindex : uptreeIndex t' ((t.sonAt k).count + 1) c p = some t'')
    (hfp : (t''.dict p.r).fath.fp = none) (hdirp : (t''.dir t''.head).next = some dirp) :
    uptreeOuter (fuel + 1) t (k / 2) (side k) =
      some { t'' with dirp := dirp, dirq := (t''.dir dirp).next } := by
  rw [counted, htop] at hinner
  simp only [uptreeOuter, son_place, setSon_place, htop, hinner, hindex, hfp, hdirp,
    Option.bind_eq_bind, Option.bind_some, Option.pure_def]

theorem outer_up {r : Nat} (htop : (t.sonAt k).top = some c)
    (hinner : uptreeInner ((t.sonAt k).count + 1) (2 * nf) (t.counted k) (k / 2) (side k) =
      some (t', p))
    (hindex : uptreeIndex t' ((t.sonAt k).count + 1) c p = some t'')
    (hfp : (t''.dict p.r).fath.fp = some r) :
    uptreeOuter (fuel + 1) t (k / 2) (side k) =
      uptreeOuter fuel t'' r (decide ((t''.dict p.r).fath.flags % 2 = 1)) := by
  rw [counted, htop] at hinner
  rw [uptreeOuter]
  simp only [son_place, setSon_place, htop, hinner, hindex, hfp, Option.bind_eq_bind,
    Option.bind_some]

end

theorem Kept.ends (h : Kept t S w none) {dirp : Nat} (hdirp : (t.dir t.head).next = some dirp) :
    Kept { t with dirp := dirp, dirq := (t.dir dirp).next } S w none ∧
      Ends { t with dirp := dirp, dirq := (t.dir dirp).next } := by
  have hrel : Relisted t { t with dirp := dirp, dirq := (t.dir dirp).next } :=
    ⟨fun _ => rfl, fun _ => rfl, fun z => by cases z <;> rfl, rfl, rfl⟩
  obtain ⟨cls, free, hlisted⟩ := h.listed
  exact ⟨⟨hrel.linked h.linked, hrel.weighed h.weighed, cls, free, hlisted.top, hlisted.classes,
    hlisted.chain, hlisted.nodup⟩, dirp, hdirp, rfl, rfl⟩

theorem Kept.outer {fuel : Nat} (h : Kept t S w (some k)) (hk : k < t.size)
    (hbound : t.cnt 0 < 2 ^ 31 - 1) (hfuel : k / 2 < fuel) :
    (∃ t', uptreeOuter fuel t (k / 2) (side k) = some t' ∧ Kept t' S w none ∧ Ends t' ∧
      t'.bottom = t.bottom) ∨
    256 ≤ t.bottom ∧ uptreeOuter fuel t (k / 2) (side k) = none := by
  induction fuel generalizing t k with
  | zero => omega
  | succ fuel ih =>
    rcases h.turn hk hbound with
      ⟨j, t₁, t₂, p, hjk, hr, hinner, ⟨c, htop, hindex⟩, hbottom, hcnt, hlinked, hkept⟩ |
        ⟨hfull, c, t₁, p, htop, hinner, hindex⟩
    swap
    · exact .inr ⟨hfull, outer_none htop hinner hindex⟩
    have hsize : t₂.size = t.size := by rw [size, size, hbottom]
    rcases Nat.eq_zero_or_pos (j / 2) with hzero | hpos
    · -- the root has been reached
      have hdone : Kept t₂ S w none := by
        refine hkept none fun i hi => iff_of_false (Option.some_ne_none i) fun heq => ?_
        have := (hlinked.node_bounds (hsize ▸ hi) heq).1
        omega
      obtain ⟨cls, free, hlisted⟩ := hdone.listed
      have hfp : (t₂.dict p.r).fath.fp = none := by
        rw [hr, hzero]
        exact hlinked.root
      obtain ⟨hkept', hends⟩ := hdone.ends hlisted.classes.start
      exact .inl ⟨_, outer_root htop hinner hindex hfp hlisted.classes.start, hkept', hends,
        hbottom⟩
    · have hjb : j / 2 ≤ t₂.bottom := by
        have h1 : t.size = 2 * (t.bottom + 1) := rfl
        omega
      obtain ⟨i, hi, hitem⟩ := hlinked.node hpos hjb
      have hlt := (hlinked.node_bounds hi hitem).1
      have hup := hlinked.up hi
      rw [hitem] at hup
      have hfp : (t₂.dict p.r).fath.fp = some (i / 2) := by
        rw [hr]
        exact congrArg Prod.fst hup
      have hflags : decide ((t₂.dict p.r).fath.flags % 2 = 1) = side i := by
        have hmod : (t₂.dict (j / 2)).fath.flags % 2 = i % 2 := congrArg Prod.snd hup
        rw [hr, hmod]
      have hnext : Kept t₂ S w (some i) := by
        refine hkept (some i) fun m hm => ⟨fun heq => ?_, fun heq => ?_⟩
        · rw [Option.some.inj heq, hitem]
        · rw [hlinked.item_inj (hsize ▸ hm) hi (heq.trans hitem.symm)]
      have hbound' : t₂.cnt 0 < 2 ^ 31 - 1 := by
        rw [hcnt, raised_of_ne (by omega)]
        exact hbound
      rw [outer_up htop hinner hindex hfp, hflags, ← hbottom]
      exact ih hnext hi hbound' (by omega)

theorem Kept.count {ch : Nat} (h : Kept t S w none) (hk : k < t.size)
    (hitem : t.itemAt k = .chr ch) :
    Kept t S (Function.update w ch (w ch + 1)) (some k) := by
  refine ⟨h.linked, ⟨fun {i} hi => ?_, h.weighed.falling, fun hi _ =>
    h.weighed.pos hi (Option.some_ne_none _), h.weighed.nonneg⟩, h.listed⟩
  have hsum := h.weighed.sum hi
  rw [if_neg (Option.some_ne_none i), Int.add_zero] at hsum
  rw [hsum]
  by_cases hik : i = k
  · subst hik
    rw [if_pos rfl, hitem]
    simp [weight]
  · rw [if_neg fun heq => hik (Option.some.inj heq), Int.add_zero]
    cases hi' : t.itemAt i with
    | node c => rfl
    | chr ch' =>
      have hne : ch' ≠ ch := fun heq => hik (h.linked.item_inj hi hk (by rw [hi', hitem, heq]))
      simp [weight, Function.update_of_ne hne]

theorem Kept.uptree {ch : Nat} (h : Kept t S w (some k)) (hk : k < t.size)
    (hitem : t.itemAt k = .chr ch) (hbound : t.cnt 0 < 2 ^ 31 - 1) (hsmall : t.bottom < nf) :
    (∃ t', Compact.uptree t ch = some t' ∧ Kept t' S w none ∧ Ends t' ∧ t'.bottom = t.bottom) ∨
      256 ≤ t.bottom ∧ Compact.uptree t ch = none := by
  have hup := h.linked.up hk
  rw [hitem] at hup
  have hfp : (t.inp ch).fp = some (k / 2) := congrArg Prod.fst hup
  have hmod : (t.inp ch).flags % 2 = k % 2 := congrArg Prod.snd hup
  have hstart : Compact.uptree t ch = uptreeOuter nf t (k / 2) (side k) := by
    rw [Compact.uptree, hfp, hmod]
    rfl
  rw [hstart]
  have hsize : t.size = 2 * (t.bottom + 1) := rfl
  exact h.outer hk hbound (by omega)

end Tree

end Bsdi.Compact
