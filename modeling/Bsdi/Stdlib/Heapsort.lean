import Bsdi.Lib.Heap
import Bsdi.Mergesort.Insertion

/-!
# Heap sort

`heapsort.c`, on the memory of `Bsdi.Mergesort`. The block `k` that is allocated lies apart from the
array and is kept as the bytes of one element.
-/

namespace Bsdi.Stdlib

open Bsdi.Lib Bsdi.Mergesort Function

/-- Why `heapsort` returns -1. -/
inductive Errno
  | einval
  /-- `malloc` failed. -/
  | enomem

section

variable (cmp : Elem → Elem → ℤ) (size vbase : ℕ)

/-- `base + i * size`, where `base` is one element below the array. -/
def slot (i : ℕ) : ℕ := vbase + i * size - size

def item (mem : Mem) (i : ℕ) : Elem := elt size mem (slot size vbase i)

def greater (nmemb child : ℕ) (mem : Mem) : ℕ :=
  if child < nmemb ∧ cmp (item size vbase mem child) (item size vbase mem (child + 1)) < 0 then
    child + 1
  else child

/-- `COPY` to the element with a number. -/
def copyTo (i : ℕ) (x : Elem) (mem : Mem) : Mem := mem.put (slot size vbase i) x

/-- `CREATE`. Every turn at least doubles the place. -/
def create (nmemb : ℕ) : ℕ → ℕ → Mem → Option Mem
  | 0, _, _ => none
  | fuel + 1, par, mem =>
    if par * 2 ≤ nmemb then
      let child := greater cmp size vbase nmemb (par * 2) mem
      if cmp (item size vbase mem child) (item size vbase mem par) ≤ 0 then some mem
      else
        create nmemb fuel child (swapBytes size (slot size vbase par) (slot size vbase child) mem)
    else some mem

/-- The loop of `heapsort` that builds the heap, from place `l` down. -/
def build (nmemb : ℕ) : ℕ → Mem → Option Mem
  | 0, mem => some mem
  | l + 1, mem => (create cmp size vbase nmemb (nmemb + 1) (l + 1) mem).bind (build nmemb l)

/-- The first loop of `SELECT`: the hole goes to the bottom. -/
def selectDown (nmemb : ℕ) : ℕ → ℕ → Mem → Option (ℕ × Mem)
  | 0, _, _ => none
  | fuel + 1, par, mem =>
    if par * 2 ≤ nmemb then
      let child := greater cmp size vbase nmemb (par * 2) mem
      selectDown nmemb fuel child (copyTo size vbase par (item size vbase mem child) mem)
    else some (par, mem)

/-- The second loop of `SELECT`: the place of `k` is looked for from the bottom. -/
def selectUp (k : Elem) : ℕ → ℕ → Mem → Option Mem
  | 0, _, _ => none
  | fuel + 1, child, mem =>
    if child = 1 ∨ cmp k (item size vbase mem (child / 2)) < 0 then
      some (copyTo size vbase child k mem)
    else selectUp k fuel (child / 2) (copyTo size vbase child (item size vbase mem (child / 2)) mem)

def select (nmemb : ℕ) (k : Elem) (mem : Mem) : Option Mem :=
  (selectDown cmp size vbase nmemb (nmemb + 1) 1 mem).bind fun r =>
    selectUp cmp size vbase k (nmemb + 1) r.1 r.2

/-- The second loop of `heapsort`. -/
def sortLoop : ℕ → Mem → Option Mem
  | 0, mem => some mem
  | 1, mem => some mem
  | nmemb + 2, mem =>
    let k := item size vbase mem (nmemb + 2)
    let mem := copyTo size vbase (nmemb + 2) (item size vbase mem 1) mem
    (select cmp size vbase (nmemb + 1) k mem).bind (sortLoop (nmemb + 1))

/-- `heapsort`. `malloc` tells whether there was memory for `k`. -/
def heapsort (malloc : Bool) (nmemb : ℕ) (mem : Mem) : Option (Except Errno Mem) :=
  if nmemb ≤ 1 then some (.ok mem)
  else if size = 0 then some (.error .einval)
  else if malloc = false then some (.error .enomem)
  else
    ((build cmp size vbase nmemb (nmemb / 2) mem).bind (sortLoop cmp size vbase nmemb)).map .ok

end

variable {cmp : Elem → Elem → ℤ} {size vbase i j n : ℕ} {mem : Mem} {x : Elem}

def items (size vbase : ℕ) (mem : Mem) : ℕ → Elem
  | 0 => []
  | i + 1 => elt size mem (cell size vbase i)

theorem slot_succ : slot size vbase (i + 1) = cell size vbase i := by
  rw [slot, cell, Nat.add_one_mul, ← Nat.add_assoc, Nat.add_sub_cancel]

theorem item_eq (hi : 1 ≤ i) : item size vbase mem i = items size vbase mem i := by
  obtain ⟨i, rfl⟩ := Nat.exists_eq_add_of_le' hi
  rw [item, slot_succ]
  rfl

theorem length_items (hi : 1 ≤ i) : (items size vbase mem i).length = size := by
  obtain ⟨i, rfl⟩ := Nat.exists_eq_add_of_le' hi
  exact length_slice

theorem contents_items : contents (items size vbase mem) n = elts size mem vbase 0 n := by
  rw [contents, elts, slice, List.range'_eq_map_range, List.map_map]
  refine List.map_congr_left fun k _ => ?_
  rw [comp_apply, Nat.add_comm 1 k, Nat.zero_add]
  rfl

theorem items_copyTo (vbase : ℕ) (mem : Mem) (hi : 1 ≤ i) (hx : x.length = size) :
    items size vbase (copyTo size vbase i x mem) = update (items size vbase mem) i x := by
  obtain ⟨i, rfl⟩ := Nat.exists_eq_add_of_le' hi
  funext k
  cases k with
  | zero => rw [update_of_ne (by omega)]; rfl
  | succ k =>
    rw [copyTo, slot_succ]
    by_cases hk : k = i
    · rw [hk, update_self, items, elt, ← hx]
      exact slice_store
    · rw [update_of_ne (by omega)]
      refine elt_congr fun y h₁ h₂ => put_outside ?_
      rw [hx]
      rcases Nat.lt_or_gt_of_ne hk with hlt | hlt
      · exact Or.inl (h₂.trans_le (cell_succ_le hlt))
      · exact Or.inr ((cell_succ_le hlt).trans h₁)

theorem within_copyTo (vbase : ℕ) (mem : Mem) (hi : 1 ≤ i) (hin : i ≤ n) (hx : x.length = size) :
    Within size vbase 0 n mem (copyTo size vbase i x mem) := by
  obtain ⟨i, rfl⟩ := Nat.exists_eq_add_of_le' hi
  intro y hy
  rw [copyTo, slot_succ]
  have hlo : cell size vbase 0 ≤ cell size vbase i := cell_le (Nat.zero_le i)
  have hhi : cell size vbase i + size ≤ cell size vbase n := cell_succ_le hin
  refine put_outside ?_
  rw [hx]
  omega

theorem items_swap (size vbase : ℕ) (mem : Mem) (hi : 1 ≤ i) (hij : i < j) :
    items size vbase (swapBytes size (slot size vbase i) (slot size vbase j) mem) =
      items size vbase mem ∘ Equiv.swap i j := by
  obtain ⟨i, rfl⟩ := Nat.exists_eq_add_of_le' hi
  obtain ⟨j, rfl⟩ := Nat.exists_eq_add_of_le' (hi.trans hij.le)
  obtain ⟨hfirst, hsecond, hrest⟩ := @swap_spec size vbase i j mem
    (Nat.lt_of_succ_lt_succ hij)
  rw [slot_succ, slot_succ]
  funext k
  rw [comp_apply]
  by_cases hki : k = i + 1
  · rw [hki, Equiv.swap_apply_left]
    exact hfirst
  by_cases hkj : k = j + 1
  · rw [hkj, Equiv.swap_apply_right]
    exact hsecond
  rw [Equiv.swap_apply_of_ne_of_ne hki hkj]
  cases k with
  | zero => rfl
  | succ k =>
    have hout : ∀ i, k ≠ i → ∀ y, cell size vbase k ≤ y → y < cell size vbase k + size →
        y < cell size vbase i ∨ cell size vbase (i + 1) ≤ y := by
      intro i hne y h₁ h₂
      rcases Nat.lt_or_gt_of_ne hne with hlt | hlt
      · exact Or.inl (h₂.trans_le (cell_succ_le hlt))
      · exact Or.inr ((cell_le hlt).trans h₁)
    exact elt_congr fun y h₁ h₂ =>
      hrest y (hout i (by omega) y h₁ h₂) (hout j (by omega) y h₁ h₂)

theorem within_swap (hi : 1 ≤ i) (hij : i < j) (hjn : j ≤ n) :
    Within size vbase 0 n mem (swapBytes size (slot size vbase i) (slot size vbase j) mem) := by
  obtain ⟨i, rfl⟩ := Nat.exists_eq_add_of_le' hi
  obtain ⟨j, rfl⟩ := Nat.exists_eq_add_of_le' (hi.trans hij.le)
  obtain ⟨-, -, hrest⟩ := @swap_spec size vbase i j mem (Nat.lt_of_succ_lt_succ hij)
  intro y hy
  rw [slot_succ, slot_succ]
  have h₁ : cell size vbase 0 ≤ cell size vbase i := cell_le (Nat.zero_le i)
  have h₂ : cell size vbase 0 ≤ cell size vbase j := cell_le (Nat.zero_le j)
  have h₃ : cell size vbase (i + 1) ≤ cell size vbase n := cell_le (by omega)
  have h₄ : cell size vbase (j + 1) ≤ cell size vbase n := cell_le hjn
  exact hrest y (by omega) (by omega)

section

variable (h : Comparison cmp)

include h

theorem maxChild_greater (size vbase : ℕ) (mem : Mem) {p : ℕ} (hp : 1 ≤ p) (hn : p * 2 ≤ n) :
    MaxChild cmp (items size vbase mem) n p (greater cmp size vbase n (p * 2) mem) := by
  rw [greater, item_eq (by omega), item_eq (by omega)]
  exact maxChild_ite h hn

theorem create_sift (fuel : ℕ) {lo p : ℕ} (hlo : 1 ≤ lo) (hp : lo ≤ p) (hpn : p ≤ n)
    (hfuel : n < p + fuel) (hsift : SiftAt cmp (items size vbase mem) lo n p) :
    ∃ mem', create cmp size vbase n fuel p mem = some mem' ∧
      HeapFrom cmp (items size vbase mem') lo n ∧
      (contents (items size vbase mem') n).Perm (contents (items size vbase mem) n) ∧
      Within size vbase 0 n mem mem' := by
  induction fuel generalizing p mem with
  | zero => omega
  | succ fuel ih =>
    rw [create]
    by_cases hchild : p * 2 ≤ n
    · rw [if_pos hchild]
      have hc := maxChild_greater h size vbase mem (by omega) hchild
      dsimp only
      generalize greater cmp size vbase n (p * 2) mem = c at hc ⊢
      have hpc : p < c := by
        have := hc.parent
        omega
      rw [item_eq (by omega), item_eq (by omega)]
      by_cases hle : cmp (items size vbase mem c) (items size vbase mem p) ≤ 0
      · rw [if_pos hle]
        exact ⟨mem, rfl, hsift.done h hc hle, List.Perm.refl _, Within.refl⟩
      · rw [if_neg hle]
        have hswap := items_swap size vbase mem (by omega) hpc
        have hnext := hsift.swap h hc hlo hp (not_le.1 hle)
        rw [← hswap] at hnext
        obtain ⟨mem', hcreate, hheap, hperm, hwithin⟩ := ih (by omega) hc.le (by omega) hnext
        refine ⟨mem', hcreate, hheap, hperm.trans ?_, (within_swap (by omega) hpc hc.le).trans
          hwithin⟩
        rw [hswap]
        exact contents_swap (by omega) hpn (by omega) hc.le
    · rw [if_neg hchild]
      exact ⟨mem, rfl, hsift.leaf (by omega), List.Perm.refl _, Within.refl⟩

theorem build_spec (size vbase : ℕ) (mem : Mem) {l : ℕ} (hl : l ≤ n)
    (hheap : HeapFrom cmp (items size vbase mem) (l + 1) n) :
    ∃ mem', build cmp size vbase n l mem = some mem' ∧
      HeapFrom cmp (items size vbase mem') 1 n ∧
      (contents (items size vbase mem') n).Perm (contents (items size vbase mem) n) ∧
      Within size vbase 0 n mem mem' := by
  induction l generalizing mem with
  | zero => exact ⟨mem, rfl, hheap, List.Perm.refl _, Within.refl⟩
  | succ l ih =>
    obtain ⟨mem₁, hcreate, hheap₁, hperm₁, hwithin₁⟩ := create_sift h (n + 1)
      (Nat.succ_pos l) (Nat.le_refl _) hl (by omega) (hheap.siftAt (Nat.succ_pos l))
    obtain ⟨mem', hbuild, hheap', hperm, hwithin⟩ := ih mem₁ (by omega) hheap₁
    refine ⟨mem', ?_, hheap', hperm.trans hperm₁, hwithin₁.trans hwithin⟩
    rw [build, hcreate]
    exact hbuild

theorem selectDown_spec (fuel : ℕ) (k : Elem) {p : ℕ} (hp : 1 ≤ p) (hpn : p ≤ n)
    (hfuel : n < p + fuel)
    (hheap : HeapFrom cmp (items size vbase mem) 1 n) :
    ∃ q mem', selectDown cmp size vbase n fuel p mem = some (q, mem') ∧ 1 ≤ q ∧ q ≤ n ∧ n < q * 2 ∧
      HeapFrom cmp (items size vbase mem') 1 n ∧
      (contents (update (items size vbase mem') q k) n).Perm
        (contents (update (items size vbase mem) p k) n) ∧
      Within size vbase 0 n mem mem' := by
  induction fuel generalizing p mem with
  | zero => omega
  | succ fuel ih =>
    rw [selectDown]
    by_cases hchild : p * 2 ≤ n
    · rw [if_pos hchild]
      have hc := maxChild_greater h size vbase mem hp hchild
      dsimp only
      generalize greater cmp size vbase n (p * 2) mem = c at hc ⊢
      have hpc : p < c := by
        have := hc.parent
        omega
      have hcopy : items size vbase (copyTo size vbase p (item size vbase mem c) mem) =
          update (items size vbase mem) p (items size vbase mem c) := by
        rw [item_eq (by omega)]
        exact items_copyTo vbase mem hp (length_items (by omega))
      have hnext := hheap.down h hc hp
      rw [← hcopy] at hnext
      obtain ⟨q, mem', hdown, hq, hqn, hleaf, hheap', hperm, hwithin⟩ :=
        ih (by omega) hc.le (by omega) hnext
      refine ⟨q, mem', hdown, hq, hqn, hleaf, hheap', hperm.trans ?_, Within.trans ?_ hwithin⟩
      · rw [hcopy]
        exact contents_hole hp hpn (by omega) hc.le hpc.ne
      · rw [item_eq (by omega)]
        exact within_copyTo vbase mem hp hpn (length_items (by omega))
    · rw [if_neg hchild]
      exact ⟨p, mem, rfl, hp, hpn, by omega, hheap, List.Perm.refl _, Within.refl⟩

theorem selectUp_spec (fuel : ℕ) {p : ℕ} {k : Elem} (hp : 1 ≤ p) (hpn : p ≤ n) (hfuel : p ≤ fuel)
    (hk : k.length = size) (hheap : HeapFrom cmp (items size vbase mem) 1 n)
    (hkids : ∀ i, i ≤ n → i / 2 = p → cmp (items size vbase mem i) k ≤ 0) :
    ∃ mem', selectUp cmp size vbase k fuel p mem = some mem' ∧
      HeapFrom cmp (items size vbase mem') 1 n ∧
      (contents (items size vbase mem') n).Perm (contents (update (items size vbase mem) p k) n) ∧
      Within size vbase 0 n mem mem' := by
  induction fuel generalizing p mem with
  | zero => omega
  | succ fuel ih =>
    rw [selectUp]
    by_cases hplace : p = 1 ∨ cmp k (item size vbase mem (p / 2)) < 0
    · rw [if_pos hplace]
      have hcopy := items_copyTo vbase mem hp hk
      refine ⟨_, rfl, ?_, ?_, within_copyTo vbase mem hp hpn hk⟩
      · rw [hcopy]
        refine hheap.place hp hkids ?_
        rcases Nat.eq_or_lt_of_le hp with hone | hlt
        · exact Or.inl hone.symm
        · rw [item_eq (by omega)] at hplace
          exact hplace.imp_right le_of_lt
      · rw [hcopy]
    · rw [if_neg hplace]
      rw [not_or, item_eq (by omega), not_lt] at hplace
      obtain ⟨hne, hle⟩ := hplace
      have hcopy : items size vbase
          (copyTo size vbase p (item size vbase mem (p / 2)) mem) =
          update (items size vbase mem) p (items size vbase mem (p / 2)) := by
        rw [item_eq (by omega)]
        exact items_copyTo vbase mem hp (length_items (by omega))
      have hnext := hheap.up h (by omega) hpn
      rw [← hcopy] at hnext
      -- the elements below the new hole are not above its old element
      have hkids' : ∀ i, i ≤ n → i / 2 = p / 2 →
          cmp (items size vbase (copyTo size vbase p (item size vbase mem (p / 2)) mem) i) k ≤ 0 :=
            by
        intro i hi hparent
        refine h.trans _ _ _ (hnext i hi (by omega)) ?_
        rw [hparent, hcopy, update_of_ne (by omega)]
        exact (h.sign _ _).2 hle
      obtain ⟨mem', hup, hheap', hperm, hwithin⟩ := ih (by omega) (by omega) (by omega) hnext hkids'
      refine ⟨mem', hup, hheap', hperm.trans ?_, Within.trans ?_ hwithin⟩
      · rw [hcopy]
        exact contents_hole hp hpn (by omega) (by omega) (by omega)
      · rw [item_eq (by omega)]
        exact within_copyTo vbase mem hp hpn (length_items (by omega))

theorem select_spec {k : Elem} (hn : 1 ≤ n) (hk : k.length = size)
    (hheap : HeapFrom cmp (items size vbase mem) 1 n) :
    ∃ mem', select cmp size vbase n k mem = some mem' ∧
      HeapFrom cmp (items size vbase mem') 1 n ∧
      (contents (items size vbase mem') n).Perm (contents (update (items size vbase mem) 1 k) n) ∧
      Within size vbase 0 n mem mem' := by
  obtain ⟨q, mem₁, hdown, hq, hqn, hleaf, hheap₁, hperm₁, hwithin₁⟩ :=
    selectDown_spec h (n + 1) k (Nat.le_refl 1) hn (by omega) hheap
  obtain ⟨mem', hup, hheap', hperm, hwithin⟩ :=
    selectUp_spec h (n + 1) hq hqn (by omega) hk hheap₁ fun i hi hp => by omega
  refine ⟨mem', ?_, hheap', hperm.trans hperm₁, hwithin₁.trans hwithin⟩
  rw [select, hdown]
  exact hup

theorem sortLoop_spec (hheap : HeapFrom cmp (items size vbase mem) 1 n) :
    ∃ mem', sortLoop cmp size vbase n mem = some mem' ∧
      Sorted cmp (contents (items size vbase mem') n) ∧
      (contents (items size vbase mem') n).Perm (contents (items size vbase mem) n) ∧
      Within size vbase 0 n mem mem' := by
  induction n using Nat.strong_induction_on generalizing mem with
  | _ n ih =>
    match n with
    | 0 => exact ⟨mem, rfl, List.Pairwise.nil, List.Perm.refl _, Within.refl⟩
    | 1 => exact ⟨mem, rfl, List.pairwise_singleton _ _, List.Perm.refl _, Within.refl⟩
    | n + 2 =>
      have hlen : ∀ i, 1 ≤ i → (items size vbase mem i).length = size := fun i => length_items
      have hcopy := items_copyTo vbase mem (i := n + 2) (by omega)
        (hlen 1 (Nat.le_refl 1))
      have hcopied := within_copyTo vbase mem (i := n + 2) (by omega)
        (Nat.le_refl _) (hlen 1 (Nat.le_refl 1))
      set mem₁ := copyTo size vbase (n + 2) (items size vbase mem 1) mem
      have hsame : ∀ i, 1 ≤ i → i ≤ n + 1 → items size vbase mem₁ i = items size vbase mem i :=
        fun i _ hi => by rw [hcopy, update_of_ne (by omega)]
      -- the root is still in the heap, and is overwritten at last
      have hheap₁ : HeapFrom cmp (items size vbase mem₁) 1 (n + 1) := fun i hi hp => by
        rw [hsame i (by omega) hi, hsame (i / 2) hp (by omega)]
        exact hheap i (by omega) hp
      obtain ⟨mem₂, hselect, hheap₂, hperm₂, hwithin₂⟩ := select_spec
        (k := items size vbase mem (n + 2)) h (Nat.succ_pos n) (hlen _ (by omega)) hheap₁
      obtain ⟨mem', hloop, hsorted, hperm, hwithin⟩ := ih (n + 1) (Nat.lt_succ_self _) hheap₂
      have hrest : contents (update (items size vbase mem₁) 1 (items size vbase mem (n + 2)))
        (n + 1) =
          contents (update (items size vbase mem) 1 (items size vbase mem (n + 2))) (n + 1) := by
        refine contents_congr fun i hi hin => ?_
        by_cases hone : i = 1
        · rw [hone, update_self, update_self]
        · rw [update_of_ne hone, update_of_ne hone, hsame i hi hin]
      rw [hrest] at hperm₂
      have hlast : items size vbase mem' (n + 2) = items size vbase mem 1 := by
        have hbehind : Same mem₁ mem' (cell size vbase (n + 1)) (cell size vbase (n + 1) + size) :=
          (hwithin₂.trans hwithin).same_behind (Nat.le_refl _)
        refine (elt_congr hbehind).trans ?_
        exact (congrFun hcopy (n + 2)).trans (update_self _ _ _)
      have hall : (contents (items size vbase mem') (n + 2)).Perm
          (contents (items size vbase mem) (n + 2)) := by
        rw [contents_succ, hlast]
        exact ((hperm.trans hperm₂).append_right _).trans contents_last
      refine ⟨mem', ?_, ?_, hall, hcopied.trans
        ((hwithin₂.trans hwithin).mono (Nat.le_refl 0) (Nat.le_succ _))⟩
      · rw [sortLoop, item_eq (by omega), item_eq (Nat.le_refl 1), hselect]
        exact hloop
      · rw [contents_succ, Sorted, List.pairwise_append]
        refine ⟨hsorted, List.pairwise_singleton _ _, fun x hx y hy => ?_⟩
        rw [List.mem_singleton.1 hy, hlast]
        have hmem : x ∈ contents (items size vbase mem) (n + 2) :=
          hall.subset (by rw [contents_succ]; exact List.mem_append_left _ hx)
        obtain ⟨i, hi, hin, rfl⟩ := mem_contents.1 hmem
        exact hheap.le_root h hi hin

end

/-- What a rearrangement of the array leaves: the same elements, and the memory around them. -/
structure Rearranged (size vbase n : ℕ) (mem mem' : Mem) : Prop where
  perm : (elts size mem' vbase 0 n).Perm (elts size mem vbase 0 n)
  within : Within size vbase 0 n mem mem'

/-- `heapsort` sorts the array, if there is memory for an element. The first loop builds a heap, and
`SELECT` restores the heap with `k` for the element at the root. -/
theorem heapsort_sorted (h : Comparison cmp) (hsize : 1 ≤ size) (vbase nmemb : ℕ) (mem : Mem) :
    (∃ mem', heapsort cmp size vbase true nmemb mem = some (.ok mem') ∧
      Sorted cmp (elts size mem' vbase 0 nmemb) ∧ Rearranged size vbase nmemb mem mem') ∧
    (∃ mem', build cmp size vbase nmemb (nmemb / 2) mem = some mem' ∧
      HeapFrom cmp (items size vbase mem') 1 nmemb ∧ Rearranged size vbase nmemb mem mem') ∧
    ∀ n k mem, 1 ≤ n → k.length = size → HeapFrom cmp (items size vbase mem) 1 n →
      ∃ mem', select cmp size vbase n k mem = some mem' ∧
        HeapFrom cmp (items size vbase mem') 1 n ∧
        (elts size mem' vbase 0 n).Perm (k :: (elts size mem vbase 0 n).tail) ∧
        Within size vbase 0 n mem mem' := by
  obtain ⟨mem₁, hbuild, hheap, hperm₁, hwithin₁⟩ := build_spec h size vbase mem
    (Nat.div_le_self nmemb 2) (HeapFrom.leaves (by omega))
  rw [contents_items, contents_items] at hperm₁
  refine ⟨?_, ⟨mem₁, hbuild, hheap, hperm₁, hwithin₁⟩, fun n k mem hn hk hheap => ?_⟩
  · obtain ⟨mem', hloop, hsorted, hperm, hwithin⟩ := sortLoop_spec h hheap
    rw [contents_items, contents_items] at hperm
    rw [contents_items] at hsorted
    by_cases hone : nmemb ≤ 1
    · refine ⟨mem, if_pos hone, ?_, List.Perm.refl _, Within.refl⟩
      rcases Nat.le_one_iff_eq_zero_or_eq_one.1 hone with rfl | rfl
      · exact List.Pairwise.nil
      · exact List.pairwise_singleton _ _
    · refine ⟨mem', ?_, hsorted, hperm.trans hperm₁, hwithin₁.trans hwithin⟩
      rw [heapsort, if_neg hone, if_neg (by omega), if_neg (by decide), hbuild, Option.bind_some,
        hloop]
      rfl
  · obtain ⟨mem', hselect, hheap', hperm, hwithin⟩ := select_spec h hn hk hheap
    refine ⟨mem', hselect, hheap', ?_, hwithin⟩
    rw [← contents_items, ← contents_items]
    exact hperm.trans (List.Perm.of_eq (contents_update_one hn))

theorem heapsort_sorted_four :
    ∃ mem', heapsort (fun x y => (x.headD 0).toNat - (y.headD 0).toNat) 2 1000 true 4
        (Mem.put ⟨fun _ => 0⟩ 1000 [2, 1, 1, 2, 4, 3, 3, 9]) = some (.ok mem') ∧
      Sorted (fun x y => (x.headD 0).toNat - (y.headD 0).toNat) (elts 2 mem' 1000 0 4) ∧
      Rearranged 2 1000 4 (Mem.put ⟨fun _ => 0⟩ 1000 [2, 1, 1, 2, 4, 3, 3, 9]) mem' :=
  (heapsort_sorted ⟨fun x y => by omega, fun x y z hxy hyz => by omega⟩ (by decide) 1000 4 _).1

end Bsdi.Stdlib
