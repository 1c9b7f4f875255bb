import Bsdi.Compact.Places
import Mathlib.Data.Finset.Card

/-!
# The classes of places

The places of one count follow each other.
-/

namespace Bsdi.Compact

/-- The cells `1` to `513` that `main` links, for the classes. -/
def cells : Nat := 513

def Falling (N : Nat) (cnt : Nat → Int) : Prop := ∀ i k, i ≤ k → k < N → cnt k ≤ cnt i

/-- The places below `N` with counts `cnt` have their cells `cls` in `dir`. -/
structure Classes (N : Nat) (cnt : Nat → Int) (cls : Nat → Nat) (dir : Nat → Index) (head : Nat)
    (free : List Nat) : Prop where
  same : ∀ {i k}, i < N → k < N → (cls i = cls k ↔ cnt i = cnt k)
  pt : ∀ {k}, k < N → (∀ i, i + 1 = k → cnt i ≠ cnt k) → (dir (cls k)).pt = k / 2
  next : ∀ {k}, k + 1 < N → cnt (k + 1) ≠ cnt k → (dir (cls k)).next = some (cls (k + 1))
  last : ∀ {k}, k + 1 = N → (dir (cls k)).next = none
  start : (dir head).next = some (cls 0)
  apart : ∀ {k}, k < N → cls k ≠ head
  unused : ∀ {k}, k < N → cls k ∉ free
  unusedHead : head ∉ free
  count : free.length + ((Finset.range N).image cls).card = cells

def raised (cnt : Nat → Int) (j i : Nat) : Int := if i = j then cnt i + 1 else cnt i

@[simp] theorem raised_self {cnt : Nat → Int} {j : Nat} : raised cnt j j = cnt j + 1 := if_pos rfl

theorem raised_of_ne {cnt : Nat → Int} {i j : Nat} (h : i ≠ j) : raised cnt j i = cnt i := if_neg h

def IsFirst (cnt : Nat → Int) (j : Nat) : Prop := ∀ i < j, cnt j < cnt i

theorem Falling.raised {N : Nat} {cnt : Nat → Int} {j : Nat} (h : Falling N cnt)
    (hfirst : IsFirst cnt j) : Falling N (raised cnt j) := by
  intro i k hik hk
  have hle := h i k hik hk
  rw [Compact.raised, Compact.raised]
  split_ifs with h1 h2 h2
  · omega
  · subst h1
    have hlt := hfirst i (by omega)
    omega
  · omega
  · exact hle

section
variable {N j : Nat} {cnt : Nat → Int} {cls : Nat → Nat} {dir dir' : Nat → Index} {head : Nat}
  {free : List Nat}

theorem Classes.stay (h : Classes N cnt cls dir head free) (hj : j < N)
    (hbefore : ∀ i < j, cnt j + 1 < cnt i) (hbehind : ∀ i, j < i → i < N → cnt i < cnt j)
    (hdir : dir' = dir) : Classes N (raised cnt j) cls dir' head free := by
  subst hdir
  have hother : ∀ i, i < N → i ≠ j → cnt i ≠ cnt j ∧ cnt i ≠ cnt j + 1 := by
    intro i hi hne
    rcases Nat.lt_or_ge i j with hlt | hge
    · have := hbefore i hlt
      omega
    · have := hbehind i (by omega) hi
      omega
  have hiff : ∀ {i k}, i < N → k < N → (raised cnt j i = raised cnt j k ↔ cnt i = cnt k) := by
    intro i k hi hk
    rw [raised, raised]
    split_ifs with h1 h2 h2
    · simp [h1, h2]
    · subst h1
      have := hother k hk h2
      omega
    · subst h2
      have := hother i hi h1
      omega
    · rfl
  refine ⟨fun hi hk => (h.same hi hk).trans (hiff hi hk).symm, fun hk hfirst => ?_,
    fun hk hne => ?_, h.last, h.start, h.apart, h.unused, h.unusedHead, h.count⟩
  · refine h.pt hk fun i hi heq => hfirst i hi ?_
    exact (hiff (by omega) hk).mpr heq
  · exact h.next hk fun heq => hne ((hiff hk (by omega)).mpr heq)

theorem Classes.cls_ne {i k : Nat} (h : Classes N cnt cls dir head free) (hi : i < N) (hk : k < N)
    (hne : cnt i ≠ cnt k) : cls i ≠ cls k := fun heq => hne ((h.same hi hk).mp heq)

theorem Classes.between {i k m : Nat} (h : Classes N cnt cls dir head free) (hfall : Falling N cnt)
    (hi : i ≤ m) (hm : m ≤ k) (hk : k < N) (heq : cls i = cls k) : cnt m = cnt k := by
  have h1 := (h.same (by omega) hk).mp heq
  have h2 := hfall i m hi (by omega)
  have h3 := hfall m k hm hk
  omega

theorem Classes.same_join {i k : Nat} (h : Classes N cnt cls dir head free) (hj : j < N)
    (hpos : 0 < j) (hjoin : cnt (j - 1) = cnt j + 1) (hi : i < N) (hk : k < N) :
    Function.update cls j (cls (j - 1)) i = Function.update cls j (cls (j - 1)) k ↔
      raised cnt j i = raised cnt j k := by
  rw [Function.update_apply, Function.update_apply, raised, raised]
  split_ifs with h1 h2 h2
  · simp [h1, h2]
  · rw [h.same (by omega) hk, hjoin, h1]
  · rw [h.same hi (by omega), hjoin, h2]
  · exact h.same hi hk

theorem Classes.join (h : Classes N cnt cls dir head free) (hfall : Falling N cnt) (hj : j + 1 < N)
    (hpos : 0 < j) (hjoin : cnt (j - 1) = cnt j + 1) (hmore : cnt (j + 1) = cnt j)
    (hdir : ∀ c, c ≠ cls j → dir' c = dir c)
    (hcell : dir' (cls j) = ⟨(j + 1) / 2, (dir (cls j)).next⟩) :
    Classes N (raised cnt j) (Function.update cls j (cls (j - 1))) dir' head free := by
  have hcls : cls (j + 1) = cls j := (h.same hj (by omega)).mpr hmore
  have hprev : cls (j - 1) ≠ cls j := h.cls_ne (by omega) (by omega) (by omega)
  have hnext : ∀ c, (dir' c).next = (dir c).next := by
    intro c
    by_cases hc : c = cls j
    · rw [hc, hcell]
    · rw [hdir c hc]
  refine ⟨fun hi hk => h.same_join (by omega) hpos hjoin hi hk, fun {k} hk hfirst => ?_,
    fun {k} hk hne => ?_, fun {k} hk => ?_, ?_, fun {k} hk => ?_, fun {k} hk => ?_,
    h.unusedHead, ?_⟩
  · rcases Nat.lt_trichotomy k j with hlt | rfl | hgt
    · rw [Function.update_of_ne (by omega), hdir]
      · refine h.pt hk fun i hi heq => hfirst i hi ?_
        rwa [raised_of_ne (by omega), raised_of_ne (by omega)]
      · have := hfall k (j - 1) (by omega) (by omega)
        exact h.cls_ne hk (by omega) (by omega)
    · refine absurd ?_ (hfirst (k - 1) (by omega))
      rw [raised_of_ne (by omega), raised_self, hjoin]
    · rw [Function.update_of_ne (by omega)]
      by_cases hk1 : k = j + 1
      · rw [hk1, hcls, hcell]
      · rw [hdir]
        · refine h.pt hk fun i hi heq => hfirst i hi ?_
          rwa [raised_of_ne (by omega), raised_of_ne (by omega)]
        · intro heq
          refine hfirst (k - 1) (by omega) ?_
          rw [raised_of_ne (by omega), raised_of_ne (by omega)]
          exact h.between hfall (by omega) (by omega) hk heq.symm
  · rw [hnext]
    rcases eq_or_ne k j with rfl | hkj
    · rw [Function.update_self, Function.update_of_ne (by omega), hcls]
      have := h.next (k := k - 1) (by omega) (by rw [Nat.sub_add_cancel hpos]; omega)
      rwa [Nat.sub_add_cancel hpos] at this
    · by_cases hk1 : k + 1 = j
      · refine absurd ?_ hne
        have hk' : k = j - 1 := by omega
        rw [hk1, raised_self, raised_of_ne (by omega), hk', hjoin]
      · rw [Function.update_of_ne hkj, Function.update_of_ne hk1]
        rw [raised_of_ne hk1, raised_of_ne hkj] at hne
        exact h.next hk hne
  · rw [Function.update_of_ne (by omega), hnext]
    exact h.last hk
  · rw [hnext, Function.update_of_ne (by omega)]
    exact h.start
  · rw [Function.update_apply]
    split_ifs
    · exact h.apart (by omega)
    · exact h.apart hk
  · rw [Function.update_apply]
    split_ifs
    · exact h.unused (by omega)
    · exact h.unused hk
  · have himage : (Finset.range N).image (Function.update cls j (cls (j - 1))) =
        (Finset.range N).image cls := by
      ext c
      simp only [Finset.mem_image, Finset.mem_range]
      constructor
      · rintro ⟨k, hk, rfl⟩
        rw [Function.update_apply]
        split_ifs
        · exact ⟨j - 1, by omega, rfl⟩
        · exact ⟨k, hk, rfl⟩
      · rintro ⟨k, hk, rfl⟩
        by_cases hkj : k = j
        · exact ⟨j + 1, hj, by rw [Function.update_of_ne (by omega), hcls, hkj]⟩
        · exact ⟨k, hk, Function.update_of_ne hkj _ _⟩
    rw [himage]
    exact h.count

theorem Classes.absorb (h : Classes N cnt cls dir head free) (hfall : Falling N cnt) (hj : j < N)
    (hpos : 0 < j) (hjoin : cnt (j - 1) = cnt j + 1)
    (hbehind : ∀ i, j < i → i < N → cnt i < cnt j)
    (hdir : ∀ c, c ≠ cls j → c ≠ cls (j - 1) → dir' c = dir c)
    (hcell : dir' (cls (j - 1)) =
      ⟨(dir (cls (j - 1))).pt, if j + 1 = N then none else some (cls (j + 1))⟩) :
    Classes N (raised cnt j) (Function.update cls j (cls (j - 1))) dir' head (cls j :: free) := by
  have hprev : cls (j - 1) ≠ cls j := h.cls_ne (by omega) (by omega) (by omega)
  -- no other place has the cell that becomes free
  have halone : ∀ k, k < N → k ≠ j → cls k ≠ cls j := by
    intro k hk hkj
    rcases Nat.lt_or_ge k j with hlt | hge
    · have := hfall k (j - 1) (by omega) (by omega)
      exact h.cls_ne hk hj (by omega)
    · have := hbehind k (by omega) hk
      exact h.cls_ne hk hj (by omega)
  have hpt : ∀ k, k < N → k ≠ j → (dir' (cls k)).pt = (dir (cls k)).pt := by
    intro k hk hkj
    by_cases hcls : cls k = cls (j - 1)
    · rw [hcls, hcell]
    · rw [hdir _ (halone k hk hkj) hcls]
  have hbelow : ∀ k, j < k → k < N → dir' (cls k) = dir (cls k) := by
    intro k hjk hk
    have := hbehind k hjk hk
    exact hdir _ (halone k hk (by omega)) (h.cls_ne hk (by omega) (by omega))
  refine ⟨fun hi hk => h.same_join hj hpos hjoin hi hk, fun {k} hk hfirst => ?_,
    fun {k} hk hne => ?_, fun {k} hk => ?_, ?_, fun {k} hk => ?_, fun {k} hk => ?_, ?_, ?_⟩
  · by_cases hkj : k = j
    · subst hkj
      refine absurd ?_ (hfirst (k - 1) (by omega))
      rw [raised_of_ne (by omega), raised_self, hjoin]
    · rw [Function.update_of_ne hkj, hpt k hk hkj]
      refine h.pt hk fun i hi heq => ?_
      by_cases hij : i = j
      · have := hbehind k (by omega) hk
        rw [hij] at heq
        omega
      · refine hfirst i hi ?_
        rwa [raised_of_ne hij, raised_of_ne hkj]
  · by_cases hkj : k = j
    · subst hkj
      rw [Function.update_self, Function.update_of_ne (by omega), hcell, if_neg (by omega)]
    · by_cases hk1 : k + 1 = j
      · refine absurd ?_ hne
        have hk' : k = j - 1 := by omega
        rw [hk1, raised_self, raised_of_ne hkj, hk', hjoin]
      · rw [raised_of_ne hk1, raised_of_ne hkj] at hne
        rw [Function.update_of_ne hkj, Function.update_of_ne hk1]
        rcases Nat.lt_or_ge k j with hlt | hge
        · rw [hdir _ (halone k (by omega) hkj)]
          · exact h.next hk hne
          · intro heq
            have h1 := h.between hfall (m := k + 1) (by omega) (by omega) (by omega) heq
            have h2 := (h.same (by omega) (by omega)).mp heq
            omega
        · rw [hbelow k (by omega) (by omega)]
          exact h.next hk hne
  · by_cases hkj : k = j
    · subst hkj
      rw [Function.update_self, hcell, if_pos hk]
    · rw [Function.update_of_ne hkj, hbelow k (by omega) (by omega)]
      exact h.last hk
  · rw [Function.update_of_ne (by omega), hdir _ (h.apart hj).symm (h.apart (by omega)).symm]
    exact h.start
  · rw [Function.update_apply]
    split_ifs
    · exact h.apart (by omega)
    · exact h.apart hk
  · rw [Function.update_apply, List.mem_cons, not_or]
    split_ifs with hkj
    · exact ⟨hprev, h.unused (by omega)⟩
    · exact ⟨halone k hk hkj, h.unused hk⟩
  · rw [List.mem_cons, not_or]
    exact ⟨(h.apart hj).symm, h.unusedHead⟩
  · have himage : (Finset.range N).image cls =
        Insert.insert (cls j) ((Finset.range N).image (Function.update cls j (cls (j - 1)))) := by
      ext c
      simp only [Finset.mem_insert, Finset.mem_image, Finset.mem_range]
      constructor
      · rintro ⟨k, hk, rfl⟩
        by_cases hkj : k = j
        · exact .inl (by rw [hkj])
        · exact .inr ⟨k, hk, Function.update_of_ne hkj _ _⟩
      · rintro (rfl | ⟨k, hk, rfl⟩)
        · exact ⟨j, hj, rfl⟩
        · rw [Function.update_apply]
          split_ifs
          · exact ⟨j - 1, by omega, rfl⟩
          · exact ⟨k, hk, rfl⟩
    have hnotin : cls j ∉ (Finset.range N).image (Function.update cls j (cls (j - 1))) := by
      simp only [Finset.mem_image, Finset.mem_range, not_exists, not_and]
      intro k hk
      rw [Function.update_apply]
      split_ifs with hkj
      · exact hprev
      · exact halone k hk hkj
    have hcount := h.count
    rw [himage, Finset.card_insert_of_notMem hnotin] at hcount
    rw [List.length_cons]
    omega

theorem Classes.divide {new : Nat} (h : Classes N cnt cls dir head (new :: free))
    (hfall : Falling N cnt) (hj : j + 1 < N) (hmore : cnt (j + 1) = cnt j)
    (hbefore : ∀ i < j, cnt j + 1 < cnt i) (hnodup : (new :: free).Nodup)
    (hdir : ∀ c, c ≠ cls j → c ≠ new → c ≠ (if j = 0 then head else cls (j - 1)) → dir' c = dir c)
    (hprev : dir' (if j = 0 then head else cls (j - 1)) =
      ⟨(dir (if j = 0 then head else cls (j - 1))).pt, some new⟩)
    (hnew : dir' new = ⟨j / 2, some (cls j)⟩)
    (hcell : dir' (cls j) = ⟨(j + 1) / 2, (dir (cls j)).next⟩) :
    Classes N (raised cnt j) (Function.update cls j new) dir' head free := by
  have hunused : ∀ k, k < N → cls k ≠ new := fun k hk heq =>
    h.unused hk (heq ▸ List.mem_cons_self)
  have hcls : cls (j + 1) = cls j := (h.same hj (by omega)).mpr hmore
  have hother : ∀ i, i < N → i ≠ j → raised cnt j i ≠ cnt j + 1 := by
    intro i hi hne
    rw [raised_of_ne hne]
    rcases Nat.lt_or_ge i j with hlt | hge
    · have := hbefore i hlt
      omega
    · have := hfall j i (by omega) hi
      omega
  have hpt : ∀ k, k < N → cls k ≠ cls j → (dir' (cls k)).pt = (dir (cls k)).pt := by
    intro k hk hne
    by_cases hkq : cls k = (if j = 0 then head else cls (j - 1))
    · rw [hkq, hprev]
    · rw [hdir _ hne (hunused k hk) hkq]
  have hapart : ∀ k, k < N → k + 1 ≠ j → cnt (k + 1) ≠ cnt k ∨ j < k →
      cls k ≠ (if j = 0 then head else cls (j - 1)) := by
    intro k hk hk1 hne
    split_ifs with hzero
    · exact h.apart hk
    · intro heq
      have hlt := hbefore (j - 1) (by omega)
      have hsame := (h.same hk (by omega)).mp heq
      rcases Nat.lt_or_ge k j with hkj | hkj
      · have := h.between hfall (m := k + 1) (by omega) (by omega) (by omega) heq
        omega
      · have := hfall j k hkj hk
        omega
  have hnext : ∀ k, k < N → k + 1 ≠ j → cnt (k + 1) ≠ cnt k ∨ j < k →
      (dir' (cls k)).next = (dir (cls k)).next := by
    intro k hk hk1 hne
    by_cases hkc : cls k = cls j
    · rw [hkc, hcell]
    · rw [hdir _ hkc (hunused k hk) (hapart k hk hk1 hne)]
  refine ⟨fun {i k} hi hk => ?_, fun {k} hk hfirst => ?_, fun {k} hk hne => ?_, fun {k} hk => ?_,
    ?_, fun {k} hk => ?_, fun {k} hk => ?_, fun hmem => h.unusedHead (List.mem_cons_of_mem _ hmem),
    ?_⟩
  · rw [Function.update_apply, Function.update_apply]
    split_ifs with h1 h2 h2
    · simp [h1, h2]
    · rw [h1, raised_self]
      exact iff_of_false (hunused k hk).symm (hother k hk h2).symm
    · rw [h2, raised_self]
      exact iff_of_false (hunused i hi) (hother i hi h1)
    · rw [raised_of_ne h1, raised_of_ne h2]
      exact h.same hi hk
  · by_cases hkj : k = j
    · rw [hkj, Function.update_self, hnew]
    rw [Function.update_of_ne hkj]
    by_cases hk1 : k = j + 1
    · rw [hk1, hcls, hcell]
    have hfirst' : ∀ i, i + 1 = k → cnt i ≠ cnt k := by
      intro i hi heq
      refine hfirst i hi ?_
      rwa [raised_of_ne (by omega), raised_of_ne hkj]
    rw [hpt k hk, h.pt hk hfirst']
    intro heq
    rcases Nat.lt_or_ge k j with hlt | hge
    · have h1 := hbefore k hlt
      have h2 := (h.same hk (by omega)).mp heq
      omega
    · exact hfirst' (k - 1) (by omega) (h.between hfall (by omega) (by omega) hk heq.symm)
  · by_cases hkj : k = j
    · rw [hkj, Function.update_self, Function.update_of_ne (by omega), hnew, hcls]
    rw [Function.update_of_ne hkj]
    by_cases hk1 : k + 1 = j
    · have hk' : k = j - 1 := by omega
      rw [if_neg (by omega)] at hprev
      rw [hk1, Function.update_self, hk', hprev]
    · rw [raised_of_ne hk1, raised_of_ne hkj] at hne
      rw [Function.update_of_ne hk1, hnext k (by omega) hk1 (.inl hne)]
      exact h.next hk hne
  · rw [Function.update_of_ne (by omega), hnext k (by omega) (by omega) (.inr (by omega))]
    exact h.last hk
  · by_cases hzero : j = 0
    · rw [if_pos hzero] at hprev
      rw [hprev, hzero, Function.update_self]
    · rw [if_neg hzero] at hdir
      rw [Function.update_of_ne (Ne.symm hzero), hdir head (h.apart (by omega)).symm
        (fun heq => h.unusedHead (heq ▸ List.mem_cons_self)) (h.apart (by omega)).symm]
      exact h.start
  · rw [Function.update_apply]
    split_ifs
    · exact fun heq => h.unusedHead (heq ▸ List.mem_cons_self)
    · exact h.apart hk
  · rw [Function.update_apply]
    split_ifs
    · exact (List.nodup_cons.mp hnodup).1
    · exact fun hmem => h.unused hk (List.mem_cons_of_mem _ hmem)
  · have himage : (Finset.range N).image (Function.update cls j new) =
        Insert.insert new ((Finset.range N).image cls) := by
      ext c
      simp only [Finset.mem_insert, Finset.mem_image, Finset.mem_range]
      constructor
      · rintro ⟨k, hk, rfl⟩
        rw [Function.update_apply]
        split_ifs
        · exact .inl rfl
        · exact .inr ⟨k, hk, rfl⟩
      · rintro (rfl | ⟨k, hk, rfl⟩)
        · exact ⟨j, by omega, Function.update_self _ _ _⟩
        · by_cases hkj : k = j
          · exact ⟨j + 1, hj, by rw [Function.update_of_ne (by omega), hcls, hkj]⟩
          · exact ⟨k, hk, Function.update_of_ne hkj _ _⟩
    have hnotin : new ∉ (Finset.range N).image cls := by
      simp only [Finset.mem_image, Finset.mem_range, not_exists, not_and]
      exact hunused
    have hcount := h.count
    rw [himage, Finset.card_insert_of_notMem hnotin]
    rw [List.length_cons] at hcount
    omega

end

end Bsdi.Compact
