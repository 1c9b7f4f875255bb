import Bsdi.Compact.Uptree
import Bsdi.Compact.Seen

/-!
# `insert`

A new character goes to the end of the list order: the last character moves down to a new node,
and the new one with the count 0 beside it, in a class of its own.
-/

namespace Bsdi.Compact

section
variable {N : Nat} {cnt cnt' : Nat → Int} {cls cls' : Nat → Nat} {dir dir' : Nat → Index}
  {head new : Nat} {free : List Nat}

theorem Classes.grow (h : Classes N cnt cls dir head (new :: free)) (hfall : Falling N cnt)
    (hN : 0 < N) (hpos : ∀ i < N, 1 ≤ cnt i) (hnodup : (new :: free).Nodup)
    (hold : ∀ i < N, cnt' i = cnt i) (hlast : cnt' N = cnt (N - 1)) (hzero : cnt' (N + 1) = 0)
    (hcls : ∀ i < N, cls' i = cls i) (hclsN : cls' N = cls (N - 1)) (hclsNew : cls' (N + 1) = new)
    (hdir : ∀ c, c ≠ cls (N - 1) → c ≠ new → dir' c = dir c)
    (hcell : dir' (cls (N - 1)) = ⟨(dir (cls (N - 1))).pt, some new⟩)
    (hnew : dir' new = ⟨(N + 1) / 2, none⟩) :
    Classes (N + 2) cnt' cls' dir' head free := by
  have hunused : ∀ k, k < N → cls k ≠ new := fun k hk heq =>
    h.unused hk (heq ▸ List.mem_cons_self)
  -- a place but the last one is like a place that was there before
  have hlike : ∀ i, i < N + 1 → ∃ m < N, cls' i = cls m ∧ cnt' i = cnt m := by
    intro i hi
    by_cases hiN : i = N
    · exact ⟨N - 1, by omega, hiN ▸ hclsN, hiN ▸ hlast⟩
    · exact ⟨i, by omega, hcls i (by omega), hold i (by omega)⟩
  refine ⟨fun {i k} hi hk => ?_, fun {k} hk hfirst => ?_, fun {k} hk hne => ?_, fun {k} hk => ?_,
    ?_, fun {k} hk => ?_, fun {k} hk => ?_, fun hmem => h.unusedHead (List.mem_cons_of_mem _ hmem),
    ?_⟩
  · rcases Nat.lt_or_ge i (N + 1) with hi1 | hi1
    · obtain ⟨m, hm, hm1, hm2⟩ := hlike i hi1
      rcases Nat.lt_or_ge k (N + 1) with hk1 | hk1
      · obtain ⟨l, hl, hl1, hl2⟩ := hlike k hk1
        rw [hm1, hm2, hl1, hl2]
        exact h.same hm hl
      · obtain rfl : k = N + 1 := by omega
        have := hpos m hm
        rw [hm1, hm2, hclsNew, hzero]
        exact iff_of_false (hunused m hm) (by omega)
    · obtain rfl : i = N + 1 := by omega
      rcases Nat.lt_or_ge k (N + 1) with hk1 | hk1
      · obtain ⟨l, hl, hl1, hl2⟩ := hlike k hk1
        have := hpos l hl
        rw [hl1, hl2, hclsNew, hzero]
        exact iff_of_false (hunused l hl).symm (by omega)
      · obtain rfl : k = N + 1 := by omega
        simp
  · rcases Nat.lt_trichotomy k N with hkN | rfl | hkN
    · have hpt : (dir' (cls k)).pt = (dir (cls k)).pt := by
        by_cases hcell' : cls k = cls (N - 1)
        · rw [hcell', hcell]
        · rw [hdir _ hcell' (hunused k hkN)]
      rw [hcls k hkN, hpt]
      refine h.pt hkN fun i hi => ?_
      rw [← hold i (by omega), ← hold k hkN]
      exact hfirst i hi
    · refine absurd ?_ (hfirst (k - 1) (by omega))
      rw [hold (k - 1) (by omega), hlast]
    · obtain rfl : k = N + 1 := by omega
      rw [hclsNew, hnew]
  · rcases Nat.lt_trichotomy (k + 1) N with hkN | hkN | hkN
    · rw [hold k (by omega), hold (k + 1) hkN] at hne
      rw [hcls k (by omega), hcls (k + 1) hkN, hdir _ ?_ (hunused k (by omega))]
      · exact h.next hkN hne
      · intro heq
        have h1 := h.between hfall (m := k + 1) (by omega) (by omega) (by omega) heq
        have h2 := (h.same (by omega) (by omega)).mp heq
        exact hne (h1.trans h2.symm)
    · refine absurd ?_ hne
      have hk' : k = N - 1 := by omega
      rw [hold k (by omega), hkN, hlast, hk']
    · obtain rfl : k = N := by omega
      rw [hclsN, hclsNew, hcell]
  · obtain rfl : k = N + 1 := by omega
    rw [hclsNew, hnew]
  · rw [hcls 0 hN, hdir head (h.apart (by omega)).symm
      (fun heq => h.unusedHead (heq ▸ List.mem_cons_self))]
    exact h.start
  · rcases Nat.lt_or_ge k (N + 1) with hk1 | hk1
    · obtain ⟨m, hm, hm1, -⟩ := hlike k hk1
      exact hm1 ▸ h.apart hm
    · obtain rfl : k = N + 1 := by omega
      rw [hclsNew]
      exact fun heq => h.unusedHead (heq ▸ List.mem_cons_self)
  · rcases Nat.lt_or_ge k (N + 1) with hk1 | hk1
    · obtain ⟨m, hm, hm1, -⟩ := hlike k hk1
      exact hm1 ▸ fun hmem => h.unused hm (List.mem_cons_of_mem _ hmem)
    · obtain rfl : k = N + 1 := by omega
      exact hclsNew ▸ (List.nodup_cons.mp hnodup).1
  · have himage : (Finset.range (N + 2)).image cls' =
        Insert.insert new ((Finset.range N).image cls) := by
      ext c
      simp only [Finset.mem_insert, Finset.mem_image, Finset.mem_range]
      constructor
      · rintro ⟨k, hk, rfl⟩
        rcases Nat.lt_or_ge k (N + 1) with hk1 | hk1
        · obtain ⟨m, hm, hm1, -⟩ := hlike k hk1
          exact .inr ⟨m, hm, hm1.symm⟩
        · obtain rfl : k = N + 1 := by omega
          exact .inl hclsNew
      · rintro (rfl | ⟨k, hk, rfl⟩)
        · exact ⟨N + 1, by omega, hclsNew⟩
        · exact ⟨k, by omega, hcls k hk⟩
    have hnotin : new ∉ (Finset.range N).image cls := by
      simp only [Finset.mem_image, Finset.mem_range, not_exists, not_and]
      exact hunused
    have hcount := h.count
    rw [himage, Finset.card_insert_of_notMem hnotin]
    rw [List.length_cons] at hcount
    omega

end

theorem clear_rleaf (f : Nat) :
    hasLeaf (f - (f &&& rleaf)) false = hasLeaf f false ∧
      hasLeaf (f - (f &&& rleaf)) true = false ∧ (f - (f &&& rleaf)) % 2 = f % 2 := by
  have hand : f &&& rleaf = (f.testBit 2).toNat * 4 := Nat.and_two_pow f 2
  have hbit : f.testBit 2 = decide (f / 4 % 2 = 1) := Nat.testBit_eq_decide_div_mod_eq
  have hfour : f &&& rleaf = if f / 4 % 2 = 1 then 4 else 0 := by
    rw [hand, hbit]
    split_ifs with h <;> simp [h]
  simp only [hasLeaf, Bool.false_eq_true, if_true, if_false, Nat.testBit_eq_decide_div_mod_eq,
    hfour, decide_eq_decide, decide_eq_false_iff_not, Nat.reducePow]
  split_ifs <;> omega

namespace Tree

variable {t t' : Tree} {S : Finset Nat} {w : Nat → Int} {cls : Nat → Nat} {free : List Nat}

theorem setSon_left (r : Nat) (s : Son) : t.setSon r false s = t.setAt (2 * r) s := by
  rw [setAt, side, show 2 * r / 2 = r by omega, decide_eq_false (by omega)]

theorem setSon_right (r : Nat) (s : Son) : t.setSon r true s = t.setAt (2 * r + 1) s := by
  rw [setAt, side, show (2 * r + 1) / 2 = r by omega, decide_eq_true (by omega)]

/-- What `insert` does to the nodes and the lists. The last character `d` moves down, and the
cells of its class and of the new one are `ptop` and `wt`. -/
structure Grown (t t' : Tree) (ch d wt ptop : Nat) : Prop where
  bottom : t'.bottom = t.bottom + 1
  son : ∀ i, i + 1 < t.size → t'.sonAt i = t.sonAt i
  item : ∀ i, i + 1 < t.size → t'.itemAt i = t.itemAt i
  above : t'.sonAt (t.size - 1) = ⟨t.bottom + 1, some ptop, (t.sonAt (t.size - 1)).count⟩
  aboveItem : t'.itemAt (t.size - 1) = .node (t.bottom + 1)
  left : t'.sonAt t.size = ⟨d, some ptop, (t.sonAt (t.size - 1)).count⟩
  leftItem : t'.itemAt t.size = .chr d
  right : t'.sonAt (t.size + 1) = ⟨ch, some wt, 0⟩
  rightItem : t'.itemAt (t.size + 1) = .chr ch
  up : ∀ x, t'.upOf x = if x = .node (t.bottom + 1) then linkTo (t.size - 1)
    else if x = .chr d then linkTo t.size else if x = .chr ch then linkTo (t.size + 1)
    else t.upOf x
  flags : ∀ x, (t'.inp x).flags = if x = d then seen else if x = ch then seen ||| fbit
    else (t.inp x).flags
  head : t'.head = t.head
  flist : t'.flist = (t.dir wt).next
  dir : ∀ c, t'.dir c = if c = ptop then ⟨(t.dir ptop).pt, some wt⟩
    else if c = wt then ⟨t.bottom + 1, none⟩ else t.dir c

/-- `insert` but for the last three assignments to `fath` and `dir`. -/
def grownSons (t : Tree) (ch d wt ptop : Nat) : Tree :=
  let t₁ := ({ t with flist := (t.dir wt).next, bottom := t.bottom + 1 }.setFath (t.bottom + 1)
    ⟨some t.bottom, lleaf ||| rleaf ||| fbit⟩).setIn ch ⟨some (t.bottom + 1), seen ||| fbit⟩
  let t₂ := (t₁.setIn d ⟨some (t.bottom + 1), seen⟩).setAt t.size
    ⟨d, some ptop, (t.sonAt (t.size - 1)).count⟩
  (t₂.setAt (t.size + 1) ⟨ch, some wt, 0⟩).setAt (t.size - 1)
    ⟨t.bottom + 1, some ptop, (t.sonAt (t.size - 1)).count⟩

theorem insert_eq {ch wt ptop : Nat} (hflist : t.flist = some wt)
    (htop : (t.sonAt (t.size - 1)).top = some ptop) (hcell : ptop ≠ wt) :
    insert t ch = some ((((t.grownSons ch (t.sonAt (t.size - 1)).sp wt ptop).setFath t.bottom
      ⟨(t.dict t.bottom).fath.fp, (t.dict t.bottom).fath.flags -
        ((t.dict t.bottom).fath.flags &&& rleaf)⟩).setDir wt ⟨t.bottom + 1, none⟩).setDir ptop
      ⟨(t.dir ptop).pt, some wt⟩) := by
  have hpson : (t.dict t.bottom).right = t.sonAt (t.size - 1) := son_right _
  have hfath : ((t.grownSons ch (t.sonAt (t.size - 1)).sp wt ptop).dict t.bottom).fath =
      (t.dict t.bottom).fath := by
    simp [grownSons]
  rw [insert, Tree.new, hflist]
  simp only [Option.bind_eq_bind, Option.bind_some, Option.pure_def, hpson, htop, setSon_left,
    setSon_right]
  rw [← hfath]
  simp only [grownSons, dir_setDir, dir_setFath, dir_setAt, dir_setIn, if_neg hcell]
  rfl

section
variable {ch d wt ptop : Nat}

theorem sonAt_grownSons (i : Nat) : (t.grownSons ch d wt ptop).sonAt i =
    if i = t.size - 1 then ⟨t.bottom + 1, some ptop, (t.sonAt (t.size - 1)).count⟩
    else if i = t.size + 1 then ⟨ch, some wt, 0⟩
    else if i = t.size then ⟨d, some ptop, (t.sonAt (t.size - 1)).count⟩ else t.sonAt i := by
  simp only [grownSons, sonAt_setAt, sonAt_setIn, sonAt_setFath]
  rfl

theorem fath_grownSons (c : Nat) : ((t.grownSons ch d wt ptop).dict c).fath =
    if c = t.bottom + 1 then ⟨some t.bottom, lleaf ||| rleaf ||| fbit⟩ else (t.dict c).fath := by
  simp only [grownSons, fath_setAt, dict_setIn, fath_setFath]

theorem inp_grownSons (c : Nat) : (t.grownSons ch d wt ptop).inp c =
    if c = d then ⟨some (t.bottom + 1), seen⟩
    else if c = ch then ⟨some (t.bottom + 1), seen ||| fbit⟩ else t.inp c := by
  simp only [grownSons, inp_setAt, inp_setIn, inp_setFath]

end

theorem insert_grown {ch wt ptop : Nat} (hflist : t.flist = some wt)
    (htop : (t.sonAt (t.size - 1)).top = some ptop)
    (hne : (t.sonAt (t.size - 1)).sp ≠ ch) (hcell : ptop ≠ wt) :
    ∃ t', insert t ch = some t' ∧ Grown t t' ch (t.sonAt (t.size - 1)).sp wt ptop := by
  refine ⟨_, insert_eq hflist htop hcell, ?_⟩
  generalize (t.sonAt (t.size - 1)).sp = d at hne
  have hsize : t.size = 2 * (t.bottom + 1) := rfl
  have hcleared := clear_rleaf (t.dict t.bottom).fath.flags
  obtain ⟨s, hs⟩ : ∃ s, s = t.grownSons ch d wt ptop := ⟨_, rfl⟩
  have hson : ∀ i, s.sonAt i =
      if i = t.size - 1 then ⟨t.bottom + 1, some ptop, (t.sonAt (t.size - 1)).count⟩
      else if i = t.size + 1 then ⟨ch, some wt, 0⟩
      else if i = t.size then ⟨d, some ptop, (t.sonAt (t.size - 1)).count⟩ else t.sonAt i :=
    fun i => hs ▸ sonAt_grownSons i
  have hfath : ∀ c, (s.dict c).fath =
      if c = t.bottom + 1 then ⟨some t.bottom, lleaf ||| rleaf ||| fbit⟩ else (t.dict c).fath :=
    fun c => hs ▸ fath_grownSons c
  have hinp : ∀ c, s.inp c = if c = d then ⟨some (t.bottom + 1), seen⟩
      else if c = ch then ⟨some (t.bottom + 1), seen ||| fbit⟩ else t.inp c :=
    fun c => hs ▸ inp_grownSons c
  have hdir : s.dir = t.dir := hs ▸ rfl
  have hhead : s.head = t.head := hs ▸ rfl
  have hfl : s.flist = (t.dir wt).next := hs ▸ rfl
  have hbottom : s.bottom = t.bottom + 1 := hs ▸ rfl
  rw [← hs]
  clear hs
  obtain ⟨t', ht'⟩ : ∃ t', t' = ((s.setFath t.bottom ⟨(t.dict t.bottom).fath.fp,
    (t.dict t.bottom).fath.flags - ((t.dict t.bottom).fath.flags &&& rleaf)⟩).setDir wt
      ⟨t.bottom + 1, none⟩).setDir ptop ⟨(t.dir ptop).pt, some wt⟩ := ⟨_, rfl⟩
  rw [← ht']
  have hson' : ∀ i, t'.sonAt i = s.sonAt i := fun i => by
    rw [ht', sonAt_setDir, sonAt_setDir, sonAt_setFath]
  have hfath' : ∀ c, (t'.dict c).fath = if c = t.bottom then ⟨(t.dict t.bottom).fath.fp,
      (t.dict t.bottom).fath.flags - ((t.dict t.bottom).fath.flags &&& rleaf)⟩
      else (s.dict c).fath := fun c => by
    rw [ht', dict_setDir, dict_setDir, fath_setFath]
  have hinp' : t'.inp = s.inp := by rw [ht', inp_setDir, inp_setDir, inp_setFath]
  -- which places hold characters now
  have hleafNew : ∀ i, i / 2 = t.bottom + 1 → t'.leafAt i = true := by
    intro i hi
    rw [leafAt, hi, hfath', if_neg (by omega), hfath, if_pos rfl]
    change hasLeaf (lleaf ||| rleaf ||| fbit) (side i) = true
    cases side i <;> decide
  have hleafAbove : t'.leafAt (t.size - 1) = false := by
    rw [leafAt, show (t.size - 1) / 2 = t.bottom by omega, hfath', if_pos rfl, side,
      decide_eq_true (by omega)]
    exact hcleared.2.1
  have hleafOld : ∀ i, i + 1 < t.size → t'.leafAt i = t.leafAt i := by
    intro i hi
    rw [leafAt, leafAt, hfath']
    by_cases hib : i / 2 = t.bottom
    · rw [if_pos hib, hib, side, decide_eq_false (by omega)]
      exact hcleared.1
    · rw [if_neg hib, hfath, if_neg (by omega)]
  have hold : ∀ i, i + 1 < t.size → t'.sonAt i = t.sonAt i := by
    intro i hi
    rw [hson', hson, if_neg (by omega), if_neg (by omega), if_neg (by omega)]
  have habove : t'.sonAt (t.size - 1) =
      ⟨t.bottom + 1, some ptop, (t.sonAt (t.size - 1)).count⟩ := by
    rw [hson', hson, if_pos rfl]
  have hleft : t'.sonAt t.size = ⟨d, some ptop, (t.sonAt (t.size - 1)).count⟩ := by
    rw [hson', hson, if_neg (by omega), if_neg (by omega), if_pos rfl]
  have hright : t'.sonAt (t.size + 1) = ⟨ch, some wt, 0⟩ := by
    rw [hson', hson, if_neg (by omega), if_pos rfl]
  refine ⟨?_, hold, fun i hi => ?_, habove, ?_, hleft, ?_, hright, ?_, fun x => ?_,
    fun x => ?_, ?_, ?_, fun c => ?_⟩
  · rw [ht', bottom_setDir, bottom_setDir, bottom_setFath, hbottom]
  · rw [itemAt, hleafOld i hi, hold i hi, itemAt]
  · rw [itemAt, hleafAbove, habove, if_neg Bool.false_ne_true]
  · rw [itemAt, hleafNew _ (by omega), hleft, if_pos rfl]
  · rw [itemAt, hleafNew _ (by omega), hright, if_pos rfl]
  · have habove' : linkTo (t.size - 1) = (some t.bottom, 1) := by
      rw [linkTo, show (t.size - 1) / 2 = t.bottom by omega, show (t.size - 1) % 2 = 1 by omega]
    have hleft' : linkTo t.size = (some (t.bottom + 1), 0) := by
      rw [linkTo, show t.size / 2 = t.bottom + 1 by omega, show t.size % 2 = 0 by omega]
    have hright' : linkTo (t.size + 1) = (some (t.bottom + 1), 1) := by
      rw [linkTo, show (t.size + 1) / 2 = t.bottom + 1 by omega,
        show (t.size + 1) % 2 = 1 by omega]
    cases x with
    | node c =>
      rw [habove', upOf, hfath', hfath]
      by_cases hc : c = t.bottom
      · simp [hc, upOf, hcleared.2.2]
      · by_cases hc' : c = t.bottom + 1
        · simp [hc', lleaf, rleaf, fbit]
        · simp [hc, hc', upOf]
    | chr x =>
      rw [hleft', hright', upOf, hinp', hinp]
      by_cases hx : x = d
      · simp [hx, seen]
      · by_cases hx' : x = ch
        · simp [hx', hne.symm, seen, fbit]
        · simp [hx, hx', upOf]
  · rw [hinp', hinp]
    split_ifs <;> rfl
  · rw [ht', head_setDir, head_setDir, head_setFath, hhead]
  · rw [ht', flist_setDir, flist_setDir, flist_setFath, hfl]
  · rw [ht', dir_setDir, dir_setDir, dir_setFath, hdir]

section
variable {ch d wt ptop : Nat}

theorem Grown.size_eq (h : Grown t t' ch d wt ptop) : t'.size = t.size + 2 := by
  rw [size, size, h.bottom]
  omega

theorem Grown.cnt_old {i : Nat} (h : Grown t t' ch d wt ptop) (hi : i < t.size) :
    t'.cnt i = t.cnt i := by
  rcases eq_or_ne (i + 1) t.size with heq | hne
  · have hi' : i = t.size - 1 := by omega
    rw [cnt, hi', h.above]
    rfl
  · rw [cnt, h.son i (by omega)]
    rfl

theorem Grown.cnt_left (h : Grown t t' ch d wt ptop) : t'.cnt t.size = t.cnt (t.size - 1) := by
  rw [cnt, h.left]
  rfl

theorem Grown.cnt_right (h : Grown t t' ch d wt ptop) : t'.cnt (t.size + 1) = 0 := by
  rw [cnt, h.right]
  rfl

theorem Grown.linked (h : Grown t t' ch d wt ptop) (hlinked : Linked t S) (hch : ch ∉ S)
    (hlast : t.itemAt (t.size - 1) = .chr d) : Linked t' (Insert.insert ch S) := by
  have hsize : t.size = 2 * (t.bottom + 1) := rfl
  have hd : d ∈ S := hlinked.chr_mem (by omega) hlast
  have hne : ch ≠ d := fun heq => hch (heq ▸ hd)
  -- the old places but the last one, and the three others
  have hcases : ∀ k < t'.size, k + 1 < t.size ∨ k = t.size - 1 ∨ k = t.size ∨ k = t.size + 1 := by
    intro k hk
    rw [h.size_eq] at hk
    omega
  have hold : ∀ k, k < t.size → t.itemAt k ≠ .chr d → k + 1 < t.size := by
    intro k hk hitem
    rcases eq_or_ne (k + 1) t.size with heq | hne
    · rw [show k = t.size - 1 by omega] at hitem
      exact absurd hlast hitem
    · omega
  refine ⟨fun {k} hk => ?_, fun {k c} hk hitem => ?_, fun {k x} hk hitem => ?_,
    fun {c} h0 hc => ?_, fun {x} hx => ?_, ?_⟩
  · rw [h.up]
    rcases hcases k hk with hlt | rfl | rfl | rfl
    · rw [h.item k hlt, if_neg, if_neg, if_neg]
      · exact hlinked.up (by omega)
      · exact fun heq => hch (hlinked.chr_mem (by omega) heq)
      · intro heq
        have := hlinked.item_inj (by omega) (by omega) (heq.trans hlast.symm)
        omega
      · intro heq
        have := (hlinked.node_bounds (by omega) heq).2
        omega
    · rw [h.aboveItem, if_pos rfl]
    · rw [h.leftItem, if_neg (by simp), if_pos rfl]
    · rw [h.rightItem, if_neg (by simp), if_neg (by simpa using hne), if_pos rfl]
  · rw [h.bottom]
    rcases hcases k hk with hlt | rfl | rfl | rfl
    · rw [h.item k hlt] at hitem
      have := hlinked.node_bounds (by omega) hitem
      omega
    · rw [h.aboveItem] at hitem
      obtain rfl := Item.node.inj hitem
      omega
    · exact absurd (h.leftItem.symm.trans hitem) (by simp)
    · exact absurd (h.rightItem.symm.trans hitem) (by simp)
  · rcases hcases k hk with hlt | rfl | rfl | rfl
    · rw [h.item k hlt] at hitem
      exact Finset.mem_insert_of_mem (hlinked.chr_mem (by omega) hitem)
    · exact absurd (h.aboveItem.symm.trans hitem) (by simp)
    · obtain rfl := Item.chr.inj (h.leftItem.symm.trans hitem)
      exact Finset.mem_insert_of_mem hd
    · obtain rfl := Item.chr.inj (h.rightItem.symm.trans hitem)
      exact Finset.mem_insert_self _ _
  · rw [h.bottom] at hc
    rw [h.size_eq]
    rcases eq_or_ne c (t.bottom + 1) with rfl | hcb
    · exact ⟨t.size - 1, by omega, h.aboveItem⟩
    · obtain ⟨k, hk, hitem⟩ := hlinked.node h0 (by omega)
      have hlt := hold k hk (by simp [hitem])
      exact ⟨k, by omega, by rw [h.item k hlt, hitem]⟩
  · rw [h.size_eq]
    rcases Finset.mem_insert.mp hx with rfl | hx
    · exact ⟨t.size + 1, by omega, h.rightItem⟩
    rcases eq_or_ne x d with rfl | hxd
    · exact ⟨t.size, by omega, h.leftItem⟩
    · obtain ⟨k, hk, hitem⟩ := hlinked.chr hx
      have hlt := hold k hk (by simpa [hitem] using hxd)
      exact ⟨k, by omega, by rw [h.item k hlt, hitem]⟩
  · have hup := h.up (.node 0)
    rw [if_neg (by simp), if_neg (by simp), if_neg (by simp)] at hup
    exact (congrArg Prod.fst hup).trans hlinked.root

theorem Grown.weighed (h : Grown t t' ch d wt ptop) (hlinked : Linked t S) (hch : ch ∉ S)
    (hlast : t.itemAt (t.size - 1) = .chr d) (hweighed : Weighed t w none) :
    Weighed t' (Function.update w ch 1) (some (t.size + 1)) := by
  have hsize : t.size = 2 * (t.bottom + 1) := rfl
  have hd : d ∈ S := hlinked.chr_mem (by omega) hlast
  have hne : d ≠ ch := fun heq => hch (heq ▸ hd)
  have hsum : ∀ k < t.size, t.cnt k = t.weight w (t.itemAt k) := by
    intro k hk
    have := hweighed.sum hk
    rwa [if_neg (Option.some_ne_none k), Int.add_zero] at this
  have hnonneg : ∀ k < t'.size, 0 ≤ t'.cnt k := by
    intro k hk
    rw [h.size_eq] at hk
    rcases Nat.lt_or_ge k t.size with hlt | hge
    · rw [h.cnt_old hlt]
      exact hweighed.nonneg hlt
    rcases eq_or_ne k t.size with rfl | hks
    · rw [h.cnt_left]
      exact hweighed.nonneg (by omega)
    · rw [show k = t.size + 1 by omega, h.cnt_right]
  refine ⟨fun {k} hk => ?_, fun i k hik hk => ?_, fun {k} hk hpend => ?_,
    fun {k} hk => hnonneg k hk⟩
  · rw [h.size_eq] at hk
    rcases Nat.lt_or_ge (k + 1) t.size with hlt | hge
    · rw [if_neg (fun heq => by have := Option.some.inj heq; omega), Int.add_zero, h.item k hlt,
        h.cnt_old (by omega), hsum k (by omega)]
      cases hitem : t.itemAt k with
      | node c =>
        have := (hlinked.node_bounds (by omega) hitem).2
        rw [weight, weight, h.cnt_old (by omega), h.cnt_old (by omega)]
      | chr x =>
        have hx : x ≠ ch := fun heq => hch (heq ▸ hlinked.chr_mem (by omega) hitem)
        rw [weight, weight, Function.update_of_ne hx]
    rcases eq_or_ne (k + 1) t.size with heq | hks
    · obtain rfl : k = t.size - 1 := by omega
      rw [if_neg (fun heq => by have := Option.some.inj heq; omega), Int.add_zero, h.aboveItem,
        weight, ← hsize, h.cnt_left, h.cnt_right, Int.add_zero, h.cnt_old (by omega)]
    rcases eq_or_ne k t.size with rfl | hks'
    · rw [if_neg (fun heq => by have := Option.some.inj heq; omega), Int.add_zero, h.leftItem,
        weight, Function.update_of_ne hne, h.cnt_left, hsum _ (by omega), hlast, weight]
    · obtain rfl : k = t.size + 1 := by omega
      rw [if_pos rfl, h.rightItem, weight, Function.update_self, h.cnt_right, Int.zero_add]
  · rcases eq_or_ne k (t.size + 1) with rfl | hkr
    · rw [h.cnt_right]
      exact hnonneg i (by omega)
    rw [h.size_eq] at hk
    rcases eq_or_ne k t.size with rfl | hks
    · rcases eq_or_ne i t.size with rfl | his
      · exact le_rfl
      · rw [h.cnt_left, h.cnt_old (by omega)]
        exact hweighed.falling i _ (by omega) (by omega)
    · rw [h.cnt_old (by omega), h.cnt_old (by omega)]
      exact hweighed.falling i k hik (by omega)
  · rw [h.size_eq] at hk
    have hkr : k ≠ t.size + 1 := fun heq => hpend (heq ▸ rfl)
    rcases eq_or_ne k t.size with rfl | hks
    · rw [h.cnt_left]
      exact hweighed.pos (by omega) (Option.some_ne_none _)
    · rw [h.cnt_old (by omega)]
      exact hweighed.pos (by omega) (Option.some_ne_none _)

theorem Grown.listed (h : Grown t t' ch d wt ptop) (hlisted : Listed t cls (wt :: free))
    (hweighed : Weighed t w none) (hptop : ptop = cls (t.size - 1)) :
    ∃ cls', Listed t' cls' free := by
  have hsize : t.size = 2 * (t.bottom + 1) := rfl
  obtain ⟨cls', hcls'⟩ : ∃ cls' : Nat → Nat, ∀ i, cls' i =
      if i < t.size then cls i else if i = t.size then ptop else wt := ⟨_, fun _ => rfl⟩
  have hcell : ptop ≠ wt := fun heq =>
    hlisted.classes.unused (k := t.size - 1) (by omega) (hptop ▸ heq ▸ List.mem_cons_self)
  have hold : ∀ i < t.size, cls' i = cls i := fun i hi => by rw [hcls', if_pos hi]
  have hleft : cls' t.size = ptop := by rw [hcls', if_neg (by omega), if_pos rfl]
  have hright : cls' (t.size + 1) = wt := by rw [hcls', if_neg (by omega), if_neg (by omega)]
  refine ⟨cls', fun {k} hk => ?_, ?_, ?_, (List.nodup_cons.mp hlisted.nodup).2⟩
  · rw [h.size_eq] at hk
    rcases Nat.lt_or_ge (k + 1) t.size with hlt | hge
    · rw [h.son k hlt, hold k (by omega)]
      exact hlisted.top (by omega)
    rcases eq_or_ne (k + 1) t.size with heq | hks
    · obtain rfl : k = t.size - 1 := by omega
      rw [h.above, hold _ (by omega), hptop]
    rcases eq_or_ne k t.size with rfl | hks'
    · rw [h.left, hleft]
    · obtain rfl : k = t.size + 1 := by omega
      rw [h.right, hright]
  · rw [h.size_eq, h.head]
    refine hlisted.classes.grow hweighed.falling (by omega)
      (fun i hi => hweighed.pos hi (Option.some_ne_none _)) hlisted.nodup
      (fun i hi => h.cnt_old hi) h.cnt_left h.cnt_right hold (hleft.trans hptop) hright
      (fun c hc1 hc2 => ?_) ?_ ?_
    · rw [h.dir, if_neg (hptop ▸ hc1), if_neg hc2]
    · rw [h.dir, if_pos hptop.symm, hptop]
    · rw [h.dir, if_neg hcell.symm, if_pos rfl, show (t.size + 1) / 2 = t.bottom + 1 by omega]
  · rw [h.flist]
    refine Chain.congr hlisted.chain.2 fun c hc => ?_
    have hc1 : c ≠ ptop := fun heq => hlisted.classes.unused (k := t.size - 1) (by omega)
      (hptop ▸ heq ▸ List.mem_cons_of_mem _ hc)
    have hc2 : c ≠ wt := fun heq => (List.nodup_cons.mp hlisted.nodup).1 (heq ▸ hc)
    rw [h.dir, if_neg hc1, if_neg hc2]

theorem Grown.marked (h : Grown t t' ch d wt ptop) (hmarked : Marked t S) (hd : d ∈ S) :
    Marked t' (Insert.insert ch S) := by
  intro x hx
  rw [h.flags, Finset.mem_insert]
  split_ifs with hxd hxch
  · exact iff_of_true (by decide) (.inr (hxd ▸ hd))
  · exact iff_of_true (by decide) (.inl hxch)
  · rw [hmarked x hx]
    exact (or_iff_right hxch).symm

end

theorem Linked.last (h : Linked t S) :
    t.itemAt (t.size - 1) = .chr (t.sonAt (t.size - 1)).sp := by
  have hsize : t.size = 2 * (t.bottom + 1) := rfl
  rw [itemAt]
  split_ifs with hleaf
  · rfl
  · have hitem : t.itemAt (t.size - 1) = .node (t.sonAt (t.size - 1)).sp := by
      rw [itemAt, if_neg hleaf]
    have := h.node_bounds (by omega) hitem
    omega

theorem Kept.insert {ch : Nat} (h : Kept t S w none) (hmarked : Marked t S) (hch : ch ∉ S) :
    (∃ t', Compact.insert t ch = some t' ∧ t'.bottom = t.bottom + 1 ∧
      t'.itemAt (t.size + 1) = .chr ch ∧ Marked t' (Insert.insert ch S) ∧
      Kept t' (Insert.insert ch S) (Function.update w ch 1) (some (t.size + 1))) ∨
    256 ≤ t.bottom ∧ Compact.insert t ch = none := by
  have hsize : t.size = 2 * (t.bottom + 1) := rfl
  obtain ⟨cls, free, hlisted⟩ := h.listed
  match free, hlisted with
  | [], hlisted =>
    refine .inr ⟨hlisted.full, ?_⟩
    have hflist : t.flist = none := hlisted.chain
    rw [Compact.insert, Tree.new, hflist]
    rfl
  | wt :: free, hlisted =>
    have hlast := h.linked.last
    have hne : (t.sonAt (t.size - 1)).sp ≠ ch := fun heq =>
      hch (heq ▸ h.linked.chr_mem (by omega) hlast)
    have hcell : cls (t.size - 1) ≠ wt := fun heq =>
      hlisted.classes.unused (k := t.size - 1) (by omega) (heq ▸ List.mem_cons_self)
    obtain ⟨t', heq, hgrown⟩ := insert_grown hlisted.chain.1 (hlisted.top (by omega)) hne hcell
    obtain ⟨cls', hlisted'⟩ := hgrown.listed hlisted h.weighed rfl
    exact .inl ⟨t', heq, hgrown.bottom, hgrown.rightItem,
      hgrown.marked hmarked (h.linked.chr_mem (by omega) hlast),
      hgrown.linked h.linked hch hlast, hgrown.weighed h.linked hch hlast h.weighed, cls', free,
      hlisted'⟩

end Tree

end Bsdi.Compact
