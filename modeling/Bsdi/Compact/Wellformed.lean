import Bsdi.Compact.Exchange
import Bsdi.Compact.Classes

/-!
# Well-formed trees

What holds of the tree of `compact`: the links in both directions, the counts, and the classes of
places. In the course of `uptree` the count of one place is behind that of what it holds.
-/

namespace Bsdi.Compact

namespace Tree

/-- The count of what is at a place, where the characters have the counts `w`. -/
def weight (t : Tree) (w : Nat → Int) : Item → Int
  | .node c => t.cnt (2 * c) + t.cnt (2 * c + 1)
  | .chr ch => w ch

/-- The places and the items, the characters in `S`, know each other. -/
structure Linked (t : Tree) (S : Finset Nat) : Prop where
  up : ∀ {k}, k < t.size → t.upOf (t.itemAt k) = linkTo k
  node_bounds : ∀ {k c}, k < t.size → t.itemAt k = .node c → k / 2 < c ∧ c ≤ t.bottom
  chr_mem : ∀ {k ch}, k < t.size → t.itemAt k = .chr ch → ch ∈ S
  node : ∀ {c}, 0 < c → c ≤ t.bottom → ∃ k < t.size, t.itemAt k = .node c
  chr : ∀ {ch}, ch ∈ S → ∃ k < t.size, t.itemAt k = .chr ch
  root : (t.dict 0).fath.fp = none

/-- The counts are those of what is below, but for the place `pend`, and go down. -/
structure Weighed (t : Tree) (w : Nat → Int) (pend : Option Nat) : Prop where
  sum : ∀ {k}, k < t.size →
    t.cnt k + (if some k = pend then 1 else 0) = t.weight w (t.itemAt k)
  falling : Falling t.size t.cnt
  pos : ∀ {k}, k < t.size → some k ≠ pend → 1 ≤ t.cnt k
  nonneg : ∀ {k}, k < t.size → 0 ≤ t.cnt k

/-- The cells of `dir` that a pointer leads to. -/
def Chain (dir : Nat → Index) : Option Nat → List Nat → Prop
  | p, [] => p = none
  | p, i :: l => p = some i ∧ Chain dir (dir i).next l

/-- The places have the cells `cls`, and `free` are on `flist`. -/
structure Listed (t : Tree) (cls : Nat → Nat) (free : List Nat) : Prop where
  top : ∀ {k}, k < t.size → (t.sonAt k).top = some (cls k)
  classes : Classes t.size t.cnt cls t.dir t.head free
  chain : Chain t.dir t.flist free
  nodup : free.Nodup

/-- What the inner loop of `uptree` does at the place `k`, whose class begins at `j` and has the
cell `q`. -/
structure Bumped (t t' : Tree) (j k q : Nat) : Prop where
  item : ∀ i, t'.itemAt i = t.itemAt (Equiv.swap j k i)
  top : ∀ i, (t'.sonAt i).top = (t.sonAt i).top
  count : ∀ i, (t'.sonAt i).count = if i = j then (t.sonAt i).count + 1 else (t.sonAt i).count
  up : ∀ z, t'.upOf z =
    if z = t.itemAt k then linkTo j else if z = t.itemAt j then linkTo k else t.upOf z
  head : t'.head = t.head
  flist : t'.flist = t.flist
  bottom : t'.bottom = t.bottom
  next : ∀ c, (t'.dir c).next = (t.dir c).next
  dir : ∀ c, c ≠ q ∨ j = k → t'.dir c = t.dir c

theorem toInt_succ {a : Int32} (h : a.toInt < 2 ^ 31 - 1) : (a + 1).toInt = a.toInt + 1 := by
  have hle := a.le_toInt
  rw [Int32.toInt_add, Int32.toInt_one]
  exact Int.bmod_eq_of_le (by omega) (by omega)

variable {t t' : Tree} {S : Finset Nat} {w : Nat → Int} {cls : Nat → Nat} {free : List Nat}
  {j k : Nat}

theorem exists_first (hfall : Falling t.size t.cnt) (hk : k < t.size) :
    ∃ j ≤ k, t.cnt j = t.cnt k ∧ IsFirst t.cnt j := by
  have hex : ∃ j, t.cnt j = t.cnt k := ⟨k, rfl⟩
  have hle : Nat.find hex ≤ k := Nat.find_min' hex rfl
  refine ⟨Nat.find hex, hle, Nat.find_spec hex, fun i hi => ?_⟩
  have h1 := hfall i (Nat.find hex) hi.le (by omega)
  have h2 : t.cnt i ≠ t.cnt k := Nat.find_min hex hi
  have h3 : t.cnt (Nat.find hex) = t.cnt k := Nat.find_spec hex
  omega

def countBefore (t : Tree) (rc : Int32) (j : Nat) : Int32 :=
  if j = 0 then rc + 1 else (t.sonAt (j - 1)).count

def cellBefore (t : Tree) (cls : Nat → Nat) (j : Nat) : Nat := if j = 0 then t.head else cls (j - 1)

theorem inner_stops {rc : Int32} {fuel : Nat} (hk : k < t.size)
    (htop : ∀ i < k, (t.sonAt i).top = some (cls i))
    (hle : 0 < k → rc ≤ (t.sonAt (k - 1)).count) :
    uptreeInner rc (fuel + 1) t (k / 2) (side k) =
      some (t, t.stopAt rc k (t.countBefore rc k) (t.cellBefore cls k)) := by
  rcases Nat.eq_zero_or_pos k with rfl | hpos
  · exact uptreeInner_first
  · rw [uptreeInner_later hpos (htop (k - 1) (by omega)), if_pos (hle hpos), countBefore,
      cellBefore, if_neg (by omega), if_neg (by omega)]

def counted (t : Tree) (k : Nat) : Tree :=
  t.setAt k ⟨(t.sonAt k).sp, (t.sonAt k).top, (t.sonAt k).count + 1⟩

@[simp] theorem itemAt_counted (i : Nat) : (t.counted k).itemAt i = t.itemAt i := by
  by_cases hi : i = k
  · subst hi
    simp [itemAt, counted]
  · simp [itemAt, counted, hi]

theorem bumped_self (hup : t.upOf (t.itemAt k) = linkTo k) (q : Nat) :
    Bumped t (t.counted k) k k q := by
  refine ⟨fun i => ?_, fun i => ?_, fun i => ?_, fun z => ?_, rfl, rfl, rfl, fun _ => rfl,
    fun _ _ => rfl⟩
  · simp
  · by_cases hi : i = k <;> simp [counted, hi]
  · by_cases hi : i = k <;> simp [counted, hi]
  · by_cases hz : z = t.itemAt k
    · simp [counted, hz, hup]
    · simp [counted, hz]

theorem bumped_exchanged {q : Nat} (hne : j ≠ k) (hcount : (t.sonAt j).count = (t.sonAt k).count)
    (h : Exchanged (t.counted k) t' j k q) : Bumped t t' j k q := by
  have hsonj : (t.counted k).sonAt j = t.sonAt j := by simp [counted, hne]
  have hsonk : (t.counted k).sonAt k =
      ⟨(t.sonAt k).sp, (t.sonAt k).top, (t.sonAt k).count + 1⟩ := by
    simp [counted]
  have hsoni : ∀ i, i ≠ k → (t.counted k).sonAt i = t.sonAt i := fun i hi => by simp [counted, hi]
  have hleaf : ∀ i, (t.counted k).leafAt i = t.leafAt i := fun i => by simp [counted]
  have hsub : (t.sonAt k).count + 1 - 1 = (t.sonAt k).count := Int32.add_sub_cancel _ _
  refine ⟨fun i => ?_, fun i => ?_, fun i => ?_, fun z => ?_, h.head, h.flist, h.bottom,
    fun c => ?_, fun c hc => ?_⟩
  · rcases eq_or_ne i j with rfl | hij
    · rw [Equiv.swap_apply_left, itemAt, h.leafFirst, h.sonFirst, hleaf, itemAt, hsonk]
    rcases eq_or_ne i k with rfl | hik
    · rw [Equiv.swap_apply_right, itemAt, h.leafLast, h.sonLast, hleaf, itemAt, hsonj]
    · rw [Equiv.swap_apply_of_ne_of_ne hij hik, itemAt, h.leaf i hij hik, h.son i hij hik, hleaf,
        itemAt, hsoni i hik]
  · rcases eq_or_ne i j with rfl | hij
    · rw [h.sonFirst, hsonj]
    rcases eq_or_ne i k with rfl | hik
    · rw [h.sonLast, hsonk]
    · rw [h.son i hij hik, hsoni i hik]
  · rcases eq_or_ne i j with rfl | hij
    · rw [h.sonFirst, hsonj, if_pos rfl]
    rcases eq_or_ne i k with rfl | hik
    · rw [h.sonLast, hsonk, if_neg hij]
      exact hsub
    · rw [h.son i hij hik, hsoni i hik, if_neg hij]
  · rw [h.up, itemAt_counted, itemAt_counted]
    simp [counted]
  · rw [h.dir]
    split_ifs with hc
    · rw [hc.1]
      rfl
    · rfl
  · rw [h.dir, if_neg fun hcon => (hc.resolve_right hne) hcon.1]
    rfl

theorem inner_spec {fuel : Nat} (hlinked : Linked t S) (hfall : Falling t.size t.cnt)
    (hlisted : Listed t cls free) (hk : k < t.size) (hroom : t.cnt k < 2 ^ 31 - 1) (hjk : j ≤ k)
    (hcnt : t.cnt j = t.cnt k) (hfirst : IsFirst t.cnt j) :
    ∃ t', uptreeInner ((t.sonAt k).count + 1) (fuel + 2) (t.counted k) (k / 2) (side k) =
        some (t', t'.stopAt ((t.sonAt k).count + 1) j
          (t'.countBefore ((t.sonAt k).count + 1) j) (t'.cellBefore cls j)) ∧
      Bumped t t' j k (cls k) := by
  have hrc : ((t.sonAt k).count + 1).toInt = t.cnt k + 1 := toInt_succ hroom
  have htop : ∀ i < k, ((t.counted k).sonAt i).top = some (cls i) := by
    intro i hi
    simp only [counted, sonAt_setAt, if_neg hi.ne]
    exact hlisted.top (by omega)
  rcases hjk.eq_or_lt with rfl | hlt
  · refine ⟨t.counted j, inner_stops hk htop fun hpos => ?_, bumped_self (hlinked.up hk) _⟩
    simp only [counted, sonAt_setAt, if_neg (show j - 1 ≠ j by omega)]
    rw [Int32.le_iff_toInt_le, hrc]
    exact hfirst (j - 1) (by omega)
  · -- the place before is of the same class, so that there is an exchange with the first one
    have hprev : t.cnt (k - 1) = t.cnt k := by
      have h1 := hfall j (k - 1) (by omega) (by omega)
      have h2 := hfall (k - 1) k (by omega) hk
      omega
    have hcls : cls (k - 1) = cls k := (hlisted.classes.same (by omega) hk).mpr hprev
    have hclsj : cls j = cls k := (hlisted.classes.same (by omega) hk).mpr hcnt
    have hpt : (t.dir (cls k)).pt = j / 2 := by
      rw [← hclsj]
      refine hlisted.classes.pt (by omega) fun i hi => ?_
      have := hfirst i (by omega)
      omega
    have hnot : ¬ (t.sonAt k).count + 1 ≤ ((t.counted k).sonAt (k - 1)).count := by
      simp only [counted, sonAt_setAt, if_neg (show k - 1 ≠ k by omega)]
      rw [Int32.le_iff_toInt_le, hrc]
      have : ((t.sonAt (k - 1)).count).toInt = t.cnt k := hprev
      omega
    have hside : decide ((t.sonAt k).count + 1 ≤ ((t.counted k).sonAt (2 * (j / 2))).count) =
        side j := by
      simp only [counted, sonAt_setAt, if_neg (show 2 * (j / 2) ≠ k by omega)]
      rw [Bool.eq_iff_iff, decide_eq_true_eq, Int32.le_iff_toInt_le, hrc, decide_eq_true_eq]
      change t.cnt k + 1 ≤ t.cnt (2 * (j / 2)) ↔ j % 2 = 1
      rcases Nat.mod_two_eq_zero_or_one j with hmod | hmod
      · have heq : 2 * (j / 2) = j := by omega
        rw [heq]
        omega
      · have := hfirst (2 * (j / 2)) (by omega)
        omega
    have hcount : (t.sonAt j).count = (t.sonAt k).count := Int32.toInt_inj.mp hcnt
    have hdirk : (t.counted k).dir = t.dir := rfl
    obtain ⟨t', ht'⟩ : ∃ t', t' = exchanged (t.counted k) (j / 2) (side j) (k / 2) (side k)
      (cls k) := ⟨_, rfl⟩
    have hex : Exchanged (t.counted k) t' j k (cls k) := ht' ▸ exchanged_spec hlt.ne (cls k)
    have hbumped := bumped_exchanged hlt.ne hcount hex
    refine ⟨t', ?_, hbumped⟩
    rw [uptreeInner_later (by omega) (htop (k - 1) (by omega)), if_neg hnot, hcls, hdirk, hpt,
      hside, ← ht']
    have hsize : t'.size = t.size := by rw [size, size, hbumped.bottom]
    refine inner_stops (by omega) (fun i hi => ?_) fun hpos => ?_
    · rw [hbumped.top]
      exact hlisted.top (by omega)
    · rw [hbumped.count, if_neg (by omega), Int32.le_iff_toInt_le, hrc]
      have := hfirst (j - 1) (by omega)
      change t.cnt k + 1 ≤ t.cnt (j - 1)
      omega

end Tree

end Bsdi.Compact
