import Bsdi.Stdlib.Qsort
import Bsdi.Lib.Ranges

/-!
# Exchanges of elements

The exchanges of `qsort.c`, by units of a `long` or a `char`, as exchanges of the elements of the
array, and what they leave as it is.
-/

namespace Bsdi.Stdlib

open Bsdi.Lib Bsdi.Mergesort Function

variable {es lo a b w q i j k l n N t : ℕ} {mem mem' : Mem}

theorem exchange_spec (mem : Mem) (h : a + w ≤ b ∨ b + w ≤ a) :
    (∀ x < w, (exchange w a b mem).byte (a + x) = mem.byte (b + x)) ∧
      (∀ x < w, (exchange w a b mem).byte (b + x) = mem.byte (a + x)) ∧
      ∀ x, (x < a ∨ a + w ≤ x) → (x < b ∨ b + w ≤ x) →
        (exchange w a b mem).byte x = mem.byte x := by
  have hlen : ∀ p, (slice mem.byte p w).length = w := fun p => length_slice
  have hget : ∀ p x (hx : x < (slice mem.byte p w).length),
      (slice mem.byte p w)[x] = mem.byte (p + x) := fun p x hx => by simp [slice]
  refine ⟨fun x hx => ?_, fun x hx => ?_, fun x ha hb => ?_⟩
  · rw [exchange, put_outside (by rw [hlen]; omega), put_inside (by rw [hlen]; exact hx), hget]
  · rw [exchange, put_inside (by rw [hlen]; exact hx), hget]
  · rw [exchange, put_outside (by rw [hlen]; exact hb), put_outside (by rw [hlen]; exact ha)]

theorem exchange_self (mem : Mem) : exchange w a a mem = mem := by
  have hput : mem.put a (slice mem.byte a w) = mem := by
    have hbyte : ∀ x, (mem.put a (slice mem.byte a w)).byte x = mem.byte x := by
      intro x
      by_cases hx : x < a ∨ a + w ≤ x
      · exact put_outside (by rw [length_slice]; exact hx)
      · obtain ⟨y, rfl⟩ := Nat.exists_eq_add_of_le (Nat.le_of_not_lt fun h => hx (Or.inl h))
        rw [put_inside (by rw [length_slice]; omega)]
        simp [slice]
    exact congrArg Mem.mk (funext hbyte)
  rw [exchange, hput, hput]

theorem swapLoop_self (mem : Mem) : swapLoop w n a a mem = mem := by
  induction n generalizing a mem with
  | zero => rfl
  | succ n ih => rw [swapLoop, exchange_self, ih]

theorem swapLoop_add (m : ℕ) (mem : Mem) :
    swapLoop w (m + n) a b mem = swapLoop w n (a + m * w) (b + m * w) (swapLoop w m a b mem) := by
  induction m generalizing a b mem with
  | zero => rw [Nat.zero_add, Nat.zero_mul, Nat.add_zero, Nat.add_zero, swapLoop]
  | succ m ih =>
    rw [Nat.succ_add, swapLoop, swapLoop, ih, Nat.succ_mul, Nat.add_comm (m * w) w, Nat.add_assoc,
      Nat.add_assoc]

theorem swapLoop_spec (mem : Mem) (h : a + n * w ≤ b ∨ b + n * w ≤ a) :
    (∀ x < n * w, (swapLoop w n a b mem).byte (a + x) = mem.byte (b + x)) ∧
      (∀ x < n * w, (swapLoop w n a b mem).byte (b + x) = mem.byte (a + x)) ∧
      ∀ x, (x < a ∨ a + n * w ≤ x) → (x < b ∨ b + n * w ≤ x) →
        (swapLoop w n a b mem).byte x = mem.byte x := by
  induction n generalizing a b mem with
  | zero =>
    rw [Nat.zero_mul]
    exact ⟨fun x hx => absurd hx (Nat.not_lt_zero x), fun x hx => absurd hx (Nat.not_lt_zero x),
      fun x _ _ => rfl⟩
  | succ n ih =>
    rw [Nat.succ_mul] at h ⊢
    obtain ⟨hfirst, hsecond, hrest⟩ := exchange_spec (a := a) (b := b) (w := w) mem (by omega)
    obtain ⟨ihfirst, ihsecond, ihrest⟩ :=
      ih (a := a + w) (b := b + w) (exchange w a b mem) (by omega)
    rw [swapLoop]
    refine ⟨fun x hx => ?_, fun x hx => ?_, fun x ha hb => ?_⟩
    · by_cases hw : x < w
      · rw [ihrest _ (by omega) (by omega), hfirst x hw]
      · obtain ⟨y, rfl⟩ := Nat.exists_eq_add_of_le (Nat.le_of_not_lt hw)
        rw [← Nat.add_assoc, ← Nat.add_assoc, ihfirst y (by omega),
          hrest _ (by omega) (by omega)]
    · by_cases hw : x < w
      · rw [ihrest _ (by omega) (by omega), hsecond x hw]
      · obtain ⟨y, rfl⟩ := Nat.exists_eq_add_of_le (Nat.le_of_not_lt hw)
        rw [← Nat.add_assoc, ← Nat.add_assoc, ihsecond y (by omega),
          hrest _ (by omega) (by omega)]
    · rw [ihrest x (by omega) (by omega), hrest x (by omega) (by omega)]

/-- Element `k` of the array. -/
def val (es lo : ℕ) (mem : Mem) (k : ℕ) : Elem := elt es mem (cell es lo k)

theorem val_within (h : Within es lo i j mem mem') (hk : k < i ∨ j ≤ k) :
    val es lo mem' k = val es lo mem k := by
  refine elt_congr fun x h₁ h₂ => h x ?_
  rcases hk with hk | hk
  · exact Or.inl (h₂.trans_le (cell_succ_le hk))
  · exact Or.inr ((cell_le hk).trans h₁)

theorem val_swapLoop (lo : ℕ) (mem : Mem) (hes : q * w = es) (k l : ℕ) :
    val es lo (swapLoop w q (cell es lo k) (cell es lo l) mem) =
        val es lo mem ∘ Equiv.swap k l ∧
      ∀ i j, i ≤ k → k < j → i ≤ l → l < j →
        Within es lo i j mem (swapLoop w q (cell es lo k) (cell es lo l) mem) := by
  by_cases hkl : k = l
  · rw [hkl, swapLoop_self, Equiv.swap_self]
    exact ⟨rfl, fun _ _ _ _ _ _ => Within.refl⟩
  have happart : cell es lo k + q * w ≤ cell es lo l ∨ cell es lo l + q * w ≤ cell es lo k := by
    rw [hes]
    exact (Nat.lt_or_gt_of_ne hkl).imp cell_succ_le cell_succ_le
  obtain ⟨hfirst, hsecond, hrest⟩ := swapLoop_spec mem happart
  rw [hes] at hfirst hsecond hrest
  constructor
  · funext x
    rw [comp_apply]
    by_cases hxk : x = k
    · rw [hxk, Equiv.swap_apply_left]
      exact List.map_congr_left fun y hy => hfirst y (List.mem_range.1 hy)
    by_cases hxl : x = l
    · rw [hxl, Equiv.swap_apply_right]
      exact List.map_congr_left fun y hy => hsecond y (List.mem_range.1 hy)
    rw [Equiv.swap_apply_of_ne_of_ne hxk hxl]
    have hout : ∀ m, x ≠ m → ∀ y, cell es lo x ≤ y → y < cell es lo x + es →
        y < cell es lo m ∨ cell es lo m + es ≤ y := by
      intro m hne y h₁ h₂
      rcases Nat.lt_or_gt_of_ne hne with hlt | hlt
      · exact Or.inl (h₂.trans_le (cell_succ_le hlt))
      · exact Or.inr ((cell_succ_le hlt).trans h₁)
    exact elt_congr fun y h₁ h₂ => hrest y (hout k hxk y h₁ h₂) (hout l hxl y h₁ h₂)
  · intro i j hik hkj hil hlj x hx
    have h₁ : cell es lo i ≤ cell es lo k := cell_le hik
    have h₂ : cell es lo i ≤ cell es lo l := cell_le hil
    have h₃ : cell es lo k + es ≤ cell es lo j := cell_succ_le hkj
    have h₄ : cell es lo l + es ≤ cell es lo j := cell_succ_le hlj
    exact hrest x (by omega) (by omega)

/-- The elements from `i` up to `j` are rearranged, and the other memory is as before. -/
structure Moved (es lo i j : ℕ) (mem mem' : Mem) : Prop where
  perm : (vals (val es lo mem') i j).Perm (vals (val es lo mem) i j)
  within : Within es lo i j mem mem'

theorem Moved.refl : Moved es lo i j mem mem := ⟨List.Perm.refl _, Within.refl⟩

theorem Moved.trans {mem₁ mem₂ : Mem} (h : Moved es lo i j mem mem₁)
    (h' : Moved es lo i j mem₁ mem₂) : Moved es lo i j mem mem₂ :=
  ⟨h'.perm.trans h.perm, h.within.trans h'.within⟩

theorem Moved.mono {i' j' : ℕ} (h : Moved es lo i j mem mem') (hi : i' ≤ i) (hij : i ≤ j)
    (hj : j ≤ j') : Moved es lo i' j' mem mem' := by
  refine ⟨?_, h.within.mono hi hj⟩
  have hbefore : vals (val es lo mem') i' i = vals (val es lo mem) i' i :=
    vals_congr fun k _ hk => val_within h.within (Or.inl hk)
  have hbehind : vals (val es lo mem') j j' = vals (val es lo mem) j j' :=
    vals_congr fun k hk _ => val_within h.within (Or.inr hk)
  rw [vals_append (hi.trans hij) hj, vals_append hi hij, vals_append (hi.trans hij) hj,
    vals_append hi hij, hbefore, hbehind]
  exact (h.perm.append_left _).append_right _

theorem Moved.exists_val (h : Moved es lo i j mem mem') (hik : i ≤ k) (hkj : k < j) :
    ∃ x, i ≤ x ∧ x < j ∧ val es lo mem' k = val es lo mem x := by
  obtain ⟨x, hix, hxj, heq⟩ := mem_vals.1 (h.perm.subset (mem_vals_self hik hkj))
  exact ⟨x, hix, hxj, heq.symm⟩

theorem moved_swapLoop (mem : Mem) (hes : q * w = es) (hik : i ≤ k) (hkj : k < j) (hil : i ≤ l)
    (hlj : l < j) : Moved es lo i j mem (swapLoop w q (cell es lo k) (cell es lo l) mem) := by
  obtain ⟨hval, hwithin⟩ := val_swapLoop lo mem hes k l
  refine ⟨?_, hwithin i j hik hkj hil hlj⟩
  rw [hval]
  exact vals_swap hik hkj hil hlj

/-- What `SWAPINIT` finds out about the size of the elements. -/
structure Swaptype (es t : ℕ) : Prop where
  long : t = 0 → es = sizeofLong
  longs : t ≤ 1 → es % sizeofLong = 0

theorem swaptype_swapinit (a es : ℕ) : Swaptype es (swapinit a es) := by
  unfold swapinit
  split_ifs with h₁ h₂
  · exact ⟨fun h => absurd h (by decide), fun h => absurd h (by decide)⟩
  · exact ⟨fun _ => h₂, fun _ => Nat.eq_zero_of_not_pos fun h => h₁ (Or.inr h.ne')⟩
  · exact ⟨fun h => absurd h (by decide), fun _ => Nat.eq_zero_of_not_pos fun h =>
      h₁ (Or.inr h.ne')⟩

theorem Swaptype.units (h : Swaptype es t) (hes : 0 < es) :
    ∃ q, 0 < q ∧ q * (if t ≤ 1 then sizeofLong else 1) = es ∧
      0 < (if t ≤ 1 then sizeofLong else 1) := by
  by_cases ht : t ≤ 1
  · rw [if_pos ht]
    have hdiv : es / sizeofLong * sizeofLong = es := Nat.div_mul_cancel (Nat.dvd_of_mod_eq_zero
      (h.longs ht))
    refine ⟨es / sizeofLong, Nat.pos_of_ne_zero fun h0 => ?_, hdiv, by decide⟩
    rw [h0, Nat.zero_mul] at hdiv
    omega
  · rw [if_neg ht]
    exact ⟨es, hes, Nat.mul_one es, Nat.one_pos⟩

theorem inside_cell (es lo : ℕ) (hk : k + n ≤ N) : Inside es lo (cell es lo N) (cell es lo k)
    (n * es) := by
  refine ⟨Nat.le_add_right _ _, ?_, ?_⟩
  · rw [← cell_add]
    exact cell_le hk
  · rw [cell, Nat.add_sub_cancel_left, Nat.mul_mod_left]

theorem inside_one (es lo : ℕ) (hk : k < N) : Inside es lo (cell es lo N) (cell es lo k) es := by
  have h := inside_cell es lo (n := 1) hk
  rwa [Nat.one_mul] at h

theorem swap_elements (lo : ℕ) (s : Proc) (ht : Swaptype es t) (hes : 0 < es) (hk : k < N)
    (hl : l < N) :
    ∃ s', swap es lo (cell es lo N) (cell es lo k) (cell es lo l) t s = some s' ∧
      val es lo s'.mem = val es lo s.mem ∘ Equiv.swap k l ∧
      ∀ i j, i ≤ k → k < j → i ≤ l → l < j → Moved es lo i j s.mem s'.mem := by
  by_cases h0 : t = 0
  · have hlong := ht.long h0
    have hunits : 1 * sizeofLong = es := by rw [Nat.one_mul, hlong]
    have hins := And.intro (inside_one es lo hk) (inside_one es lo hl)
    rw [hlong] at hins
    refine ⟨{ s with mem := exchange sizeofLong (cell es lo k) (cell es lo l) s.mem }, ?_, ?_, ?_⟩
    · rw [swap, if_pos h0, if_pos (by rw [hlong]; exact hins)]
    · exact (val_swapLoop lo s.mem hunits k l).1
    · exact fun i j hik hkj hil hlj => moved_swapLoop s.mem hunits hik hkj hil hlj
  · obtain ⟨q, hq, hunits, hw⟩ := ht.units hes
    have hdiv : max (es / (if t ≤ 1 then sizeofLong else 1)) 1 = q := by
      rw [← hunits, Nat.mul_div_cancel _ hw]
      omega
    refine ⟨⟨swapLoop (if t ≤ 1 then sizeofLong else 1) q (cell es lo k) (cell es lo l) s.mem,
      s.calls⟩, ?_, ?_, ?_⟩
    · rw [swap, if_neg h0, swapfunc, if_pos ⟨inside_one es lo hk, inside_one es lo hl⟩, swapcode,
      hdiv]
    · exact (val_swapLoop lo s.mem hunits k l).1
    · exact fun i j hik hkj hil hlj => moved_swapLoop s.mem hunits hik hkj hil hlj

def swapRows (A : ℕ → Elem) (k l : ℕ) : ℕ → ℕ → Elem
  | 0 => A
  | m + 1 => swapRows (A ∘ Equiv.swap k l) (k + 1) (l + 1) m

theorem val_swapRows (lo m : ℕ) (mem : Mem) (hes : q * w = es) (k l : ℕ) :
    val es lo (swapLoop w (q * m) (cell es lo k) (cell es lo l) mem) =
        swapRows (val es lo mem) k l m ∧
      ∀ i j, i ≤ k → k + m ≤ j → i ≤ l → l + m ≤ j →
        Moved es lo i j mem (swapLoop w (q * m) (cell es lo k) (cell es lo l) mem) := by
  induction m generalizing k l mem with
  | zero => exact ⟨rfl, fun _ _ _ _ _ _ => Moved.refl⟩
  | succ m ih =>
    have hsplit : swapLoop w (q * (m + 1)) (cell es lo k) (cell es lo l) mem =
        swapLoop w (q * m) (cell es lo (k + 1)) (cell es lo (l + 1))
          (swapLoop w q (cell es lo k) (cell es lo l) mem) := by
      rw [Nat.mul_succ, Nat.add_comm, swapLoop_add, hes, cell_succ, cell_succ]
    obtain ⟨hval, hmoved⟩ := ih (swapLoop w q (cell es lo k) (cell es lo l) mem) (k + 1) (l + 1)
    rw [hsplit]
    refine ⟨?_, fun i j hik hkj hil hlj => ?_⟩
    · rw [hval, (val_swapLoop lo mem hes k l).1]
      rfl
    · exact (moved_swapLoop mem hes hik (by omega) hil (by omega)).trans
        (hmoved i j (by omega) (by omega) (by omega) (by omega))

theorem swapRows_apply {A : ℕ → Elem} {m x : ℕ} (h : k + m ≤ l) :
    swapRows A k l m x =
      if k ≤ x ∧ x < k + m then A (x - k + l) else if l ≤ x ∧ x < l + m then A (x - l + k)
      else A x := by
  induction m generalizing A k l with
  | zero => rw [if_neg (by omega), if_neg (by omega), swapRows]
  | succ m ih =>
    rw [swapRows, ih (by omega)]
    have hother : ∀ y, y ≠ k → y ≠ l → (A ∘ Equiv.swap k l) y = A y := fun y h₁ h₂ =>
      congrArg A (Equiv.swap_apply_of_ne_of_ne h₁ h₂)
    by_cases hk : x = k
    · subst hk
      rw [if_neg (by omega), if_neg (by omega), if_pos (by omega), comp_apply,
        Equiv.swap_apply_left, Nat.sub_self, Nat.zero_add]
    by_cases hl : x = l
    · subst hl
      rw [if_neg (by omega), if_neg (by omega), if_neg (by omega), if_pos (by omega), comp_apply,
        Equiv.swap_apply_right, Nat.sub_self, Nat.zero_add]
    by_cases h₁ : k + 1 ≤ x ∧ x < k + 1 + m
    · have hx : x - (k + 1) + (l + 1) = x - k + l := by omega
      rw [if_pos h₁, if_pos (by omega), hx, hother _ (by omega) (by omega)]
    by_cases h₂ : l + 1 ≤ x ∧ x < l + 1 + m
    · have hx : x - (l + 1) + (k + 1) = x - l + k := by omega
      rw [if_neg h₁, if_pos h₂, if_neg (by omega), if_pos (by omega), hx,
        hother _ (by omega) (by omega)]
    · rw [if_neg h₁, if_neg h₂, if_neg (by omega), if_neg (by omega), hother x hk hl]

theorem vecswap_elements (lo : ℕ) (s : Proc) (ht : Swaptype es t) (hes : 0 < es) (m : ℕ)
    (hk : k + m ≤ N) (hl : l + m ≤ N) :
    ∃ s', vecswap es lo (cell es lo N) (cell es lo k) (cell es lo l) (m * es) t s = some s' ∧
      val es lo s'.mem = swapRows (val es lo s.mem) k l m ∧
      ∀ i j, i ≤ k → k + m ≤ j → i ≤ l → l + m ≤ j → Moved es lo i j s.mem s'.mem := by
  obtain ⟨q, hq, hunits, hw⟩ := ht.units hes
  by_cases hm : m = 0
  · subst hm
    rw [vecswap, if_neg (by rw [Nat.zero_mul]; exact Nat.lt_irrefl 0)]
    exact ⟨s, rfl, rfl, fun _ _ _ _ _ _ => Moved.refl⟩
  have hdiv : max (m * es / (if t ≤ 1 then sizeofLong else 1)) 1 = q * m := by
    have hpos : 0 < q * m := Nat.mul_pos hq (Nat.pos_of_ne_zero hm)
    rw [← hunits, ← Nat.mul_assoc, Nat.mul_div_cancel _ hw, Nat.mul_comm m q]
    omega
  obtain ⟨hval, hmoved⟩ := val_swapRows lo m s.mem hunits k l
  refine ⟨⟨swapLoop (if t ≤ 1 then sizeofLong else 1) (q * m) (cell es lo k) (cell es lo l) s.mem,
    s.calls⟩, ?_, hval, hmoved⟩
  rw [vecswap, if_pos (Nat.mul_pos (Nat.pos_of_ne_zero hm) hes), swapfunc,
    if_pos ⟨inside_cell es lo hk, inside_cell es lo hl⟩, swapcode, hdiv]

theorem compare_elements (cmp : ℕ → Elem → Elem → ℤ) (s : Proc) (hk : k < N) (hl : l < N) :
    compare cmp es lo (cell es lo N) (cell es lo k) (cell es lo l) s =
      some (cmp s.calls (val es lo s.mem k) (val es lo s.mem l), ⟨s.mem, s.calls + 1⟩) :=
  if_pos ⟨inside_one es lo hk, inside_one es lo hl⟩

end Bsdi.Stdlib
