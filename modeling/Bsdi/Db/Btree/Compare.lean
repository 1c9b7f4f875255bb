import Bsdi.Db.Btree.Update

/-!
# The parameters of a new tree

`__bt_defcmp` orders keys that stay on a page as lists of bytes, and `__bt_defpfx` returns
what tells a key from a smaller one.
-/

namespace Bsdi.Db

open Bsdi.Lib

def lexCmp : Dbt → Dbt → Int
  | a :: as, b :: bs => if a ≠ b then (a.toNat : Int) - b.toNat else lexCmp as bs
  | as, bs => (as.length : Int) - bs.length

theorem lexCmp_cons_ne {a b : UInt8} {as bs : Dbt} (h : a ≠ b) :
    lexCmp (a :: as) (b :: bs) = (a.toNat : Int) - b.toNat := by
  simp [lexCmp, h]

@[simp] theorem lexCmp_cons_self {a : UInt8} {as bs : Dbt} :
    lexCmp (a :: as) (a :: bs) = lexCmp as bs := by
  simp [lexCmp]

theorem toNat_ne {a b : UInt8} (h : a ≠ b) : a.toNat ≠ b.toNat := fun heq => h (UInt8.toNat_inj.1 heq)

theorem lexCmp_eq_zero (a b : Dbt) : lexCmp a b = 0 ↔ a = b := by
  induction a generalizing b with
  | nil => cases b <;> simp [lexCmp]; omega
  | cons x as ih =>
    cases b with
    | nil => simp [lexCmp]; omega
    | cons y bs =>
      by_cases h : x = y
      · subst h
        simp [ih]
      · rw [lexCmp_cons_ne h]
        have := toNat_ne h
        simp only [List.cons.injEq, h, false_and, iff_false]
        omega

theorem lexCmp_swap (a b : Dbt) : lexCmp b a = -lexCmp a b := by
  induction a generalizing b with
  | nil => cases b <;> simp [lexCmp]
  | cons x as ih =>
    cases b with
    | nil => simp [lexCmp]
    | cons y bs =>
      by_cases h : x = y
      · subst h
        simp [ih]
      · rw [lexCmp_cons_ne h, lexCmp_cons_ne (Ne.symm h)]
        omega

theorem lexCmp_trans (a b d : Dbt) (hab : lexCmp a b < 0) (hbd : lexCmp b d < 0) :
    lexCmp a d < 0 := by
  induction a generalizing b d with
  | nil =>
    cases b with
    | nil => simp [lexCmp] at hab
    | cons y bs =>
      cases d with
      | nil => simp [lexCmp] at hbd; omega
      | cons z ds =>
        rw [lexCmp, List.length_nil, List.length_cons]
        · omega
        · simp
  | cons x as ih =>
    cases b with
    | nil => simp [lexCmp] at hab; omega
    | cons y bs =>
      cases d with
      | nil => simp [lexCmp] at hbd; omega
      | cons z ds =>
        by_cases hxy : x = y <;> by_cases hyz : y = z
        · subst hxy
          subst hyz
          rw [lexCmp_cons_self] at hab hbd ⊢
          exact ih bs ds hab hbd
        · subst hxy
          rw [lexCmp_cons_ne hyz] at hbd ⊢
          exact hbd
        · subst hyz
          rw [lexCmp_cons_ne hxy] at hab ⊢
          exact hab
        · rw [lexCmp_cons_ne hxy] at hab
          rw [lexCmp_cons_ne hyz] at hbd
          have hxz : x ≠ z := by
            rintro rfl
            omega
          rw [lexCmp_cons_ne hxz]
          omega

theorem totalCmp_lexCmp : TotalCmp lexCmp where
  eq_zero := lexCmp_eq_zero
  neg_swap a b := by
    rw [lexCmp_swap a b]
    omega
  trans := lexCmp_trans

/-- `INT_MAX + 1`. -/
def intMod : Nat := 2147483648

theorem btDefcmp_eq {a b : Dbt} (ha : a.length < intMod) (hb : b.length < intMod) :
    btDefcmp a b = lexCmp a b := by
  have hsmall : ∀ i j : Nat, i < intMod → j < intMod →
      ((i : Int) - j).bmod u32Mod = (i : Int) - j := by
    intro i j hi hj
    simp only [intMod] at hi hj
    rw [Int.bmod_eq_of_le]
    · simp only [u32Mod]
      omega
    · simp only [u32Mod]
      omega
  induction a generalizing b with
  | nil => cases b <;> simp only [btDefcmp, lexCmp] <;> exact hsmall _ _ ha hb
  | cons x as ih =>
    cases b with
    | nil => exact hsmall _ _ ha hb
    | cons y bs =>
      simp only [List.length_cons] at ha hb
      rw [btDefcmp, lexCmp, ih (by omega) (by omega)]

theorem lexCmp_singleton {y : UInt8} {bs : Dbt} : ¬ lexCmp (y :: bs) [y] < 0 := by
  have hnil : lexCmp bs [] = bs.length := by cases bs <;> simp [lexCmp]
  rw [lexCmp_cons_self, hnil]
  omega

theorem btDefpfx_spec {a b : Dbt} (h : lexCmp a b < 0) :
    btDefpfx a b ≠ 0 ∧ lexCmp a (b.take (btDefpfx a b)) < 0 ∧
      ¬ lexCmp b (b.take (btDefpfx a b)) < 0 := by
  induction a generalizing b with
  | nil =>
    cases b with
    | nil => simp [lexCmp] at h
    | cons y bs =>
      rw [btDefpfx, List.take_succ_cons, List.take_zero]
      exact ⟨by simp, by simp [lexCmp], lexCmp_singleton⟩
  | cons x as ih =>
    cases b with
    | nil => simp [lexCmp] at h; omega
    | cons y bs =>
      by_cases hxy : x = y
      · subst hxy
        rw [lexCmp_cons_self] at h
        obtain ⟨hne, hlt, hge⟩ := ih h
        rw [btDefpfx, if_neg (by simp), Nat.add_comm 1, List.take_succ_cons, lexCmp_cons_self,
          lexCmp_cons_self]
        exact ⟨by simp, hlt, hge⟩
      · rw [lexCmp_cons_ne hxy] at h
        rw [btDefpfx, if_pos hxy, List.take_succ_cons, List.take_zero, lexCmp_cons_ne hxy]
        exact ⟨by simp, h, lexCmp_singleton⟩

/-- The bytes `__bt_open` counts on for a pair: a page divided by the number of keys. -/
def pairSpace (b : Btreeinfo) (blksize : Nat) : Nat :=
  (openPsize b blksize - btdataoff) / (if b.minkeypage = 0 then defminkeypage else b.minkeypage)

section

variable {b : Btreeinfo} {blksize maxpages : Nat}

theorem openPsize_bounds (hvalid : b.valid = true) :
    minpsize ≤ openPsize b blksize ∧ openPsize b blksize ≤ indxMod := by
  simp only [Btreeinfo.valid, Bool.and_eq_true, Bool.or_eq_true, beq_iff_eq, decide_eq_true_eq]
    at hvalid
  rw [openPsize]
  split_ifs with hzero
  · simp only [minpsize, indxMod]
    omega
  · obtain ⟨⟨hmin, hmax⟩, -⟩ := hvalid.1.resolve_left hzero
    exact ⟨hmin, hmax⟩

theorem pairSpace_le (hvalid : b.valid = true) :
    2 * pairSpace b blksize ≤ openPsize b blksize - btdataoff := by
  simp only [Btreeinfo.valid, Bool.and_eq_true, Bool.or_eq_true, beq_iff_eq, decide_eq_true_eq]
    at hvalid
  have hkeys : 2 ≤ if b.minkeypage = 0 then defminkeypage else b.minkeypage := by
    split_ifs with hzero
    · exact Nat.le_refl _
    · exact hvalid.2.resolve_left hzero
  rw [pairSpace]
  exact Nat.le_trans (Nat.mul_le_mul_right _ hkeys) (Nat.mul_div_le _ _)

theorem openOvflsize_eq (hvalid : b.valid = true)
    (hspace : indxSize + nbleafdbt 0 0 ≤ pairSpace b blksize) :
    (openConfig b blksize maxpages).ovflsize = max (pairSpace b blksize - (indxSize + nbleafdbt 0 0))
      (nbleafdbt novflsize novflsize + indxSize) := by
  have hpsize : openPsize b blksize ≤ indxMod := (openPsize_bounds hvalid).2
  have hle : 2 * pairSpace b blksize ≤ openPsize b blksize - btdataoff := pairSpace_le hvalid
  have hwrap : (pairSpace b blksize + indxMod - (indxSize + nbleafdbt 0 0)) % indxMod =
      pairSpace b blksize - (indxSize + nbleafdbt 0 0) := by
    rw [Nat.add_comm, Nat.add_sub_assoc hspace, Nat.add_mod_left, Nat.mod_eq_of_lt]
    simp only [indxMod, indxSize] at *
    omega
  simp only [openConfig, openOvflsize]
  simp only [pairSpace] at hwrap ⊢
  rw [hwrap, Nat.max_def]
  split_ifs <;> omega

theorem sound_open (hvalid : b.valid = true) (hmax : maxpages ≤ u32Mod)
    (hspace : indxSize + nbleafdbt 0 0 ≤ pairSpace b blksize) :
    Sound (openConfig b blksize maxpages) := by
  have hpsize : minpsize ≤ openPsize b blksize ∧ openPsize b blksize ≤ indxMod :=
    openPsize_bounds hvalid
  have hle : 2 * pairSpace b blksize ≤ openPsize b blksize - btdataoff := pairSpace_le hvalid
  have hovfl : (openConfig b blksize maxpages).ovflsize = _ := openOvflsize_eq hvalid hspace
  have hnb : nbleafdbt 0 0 = 12 ∧ nbleafdbt novflsize novflsize = 28 := ⟨rfl, rfl⟩
  refine ⟨hpsize.2, ?_, ?_, rfl, hmax⟩
  · show btdataoff + 2 * (_ + indxSize + nbleafdbt 0 0) ≤ openPsize b blksize
    rw [hovfl]
    simp only [hnb.1, hnb.2, indxSize, btdataoff, minpsize] at *
    omega
  · rw [hovfl, hnb.2]
    simp only [novflsize, indxSize]
    omega

theorem ovflsize_le (hvalid : b.valid = true) (hmax : maxpages ≤ u32Mod)
    (hspace : indxSize + nbleafdbt 0 0 ≤ pairSpace b blksize) :
    (openConfig b blksize maxpages).ovflsize ≤ indxMod := by
  have hs := sound_open hvalid hmax hspace
  have := hs.room
  have := hs.psize_le
  omega

namespace Btree

theorem compares_default (hvalid : b.valid = true) (hmax : maxpages ≤ u32Mod)
    (hspace : indxSize + nbleafdbt 0 0 ≤ pairSpace b blksize) (hcmp : b.compare = none)
    (hpfx : b.pfx = none) : Compares (openConfig b blksize maxpages) lexCmp := by
  have hle := ovflsize_le hvalid hmax hspace
  refine ⟨totalCmp_lexCmp, fun k k' hk hk' => ?_, fun pfx hmem k k' _ _ hlt => ?_⟩
  · simp only [openConfig, hcmp, Option.getD_none]
    have hlt : indxMod < intMod := by decide
    exact btDefcmp_eq (Nat.lt_of_le_of_lt (Nat.le_trans hk hle) hlt)
      (Nat.lt_of_le_of_lt (Nat.le_trans hk' hle) hlt)
  · simp only [openConfig, hcmp, hpfx, Option.mem_def, Option.some.injEq] at hmem
    subst hmem
    exact btDefpfx_spec hlt

theorem compares_total {f : Dbt → Dbt → Int} (hf : TotalCmp f) (hcmp : b.compare = some f)
    (hpfx : b.pfx = none) : Compares (openConfig b blksize maxpages) f := by
  refine ⟨hf, fun k k' _ _ => by simp [openConfig, hcmp], fun pfx hmem => ?_⟩
  simp [openConfig, hcmp, hpfx] at hmem

end Btree

end

end Bsdi.Db
