import Bsdi.Db.Btree.Convert
import Mathlib.Data.List.Perm.Basic

/-!
# What the byte order filters do to a page

The filters reverse fields one after the other, and the ones they reverse follow from the page
as it was. On a leaf page with an entry that has its data, but not its key, on overflow pages,
these are the fields of the page only if the key has four bytes.
-/

namespace Bsdi.Db.Convert

open Bsdi.Lib Field

variable {le leaf : Bool} {m m₁ m₂ : Image} {psize p n i : Nat}

theorem swap32_eq (m : Image) (o : Nat) : swap32 m o = reverse m ⟨o, 4⟩ := by
  funext j
  by_cases h : Has ⟨o, 4⟩ j
  · rw [reverse_of_has h]
    obtain ⟨hle, hlt⟩ := h
    simp only [swap32, mirror] at hle hlt ⊢
    rcases (by omega : j = o ∨ j = o + 1 ∨ j = o + 2 ∨ j = o + 3) with rfl | rfl | rfl | rfl
    · rw [if_pos rfl]
      congr 1
      omega
    · rw [if_neg (by omega), if_pos rfl]
      congr 1
      omega
    · rw [if_neg (by omega), if_neg (by omega), if_pos rfl]
      congr 1
      omega
    · rw [if_neg (by omega), if_neg (by omega), if_neg (by omega), if_pos rfl]
      congr 1
      omega
  · rw [reverse_of_not_has h]
    simp only [Has, not_and, Nat.not_lt] at h
    rw [swap32, if_neg (by omega), if_neg (by omega), if_neg (by omega), if_neg (by omega)]

theorem swap16_eq (m : Image) (o : Nat) : swap16 m o = reverse m ⟨o, 2⟩ := by
  funext j
  by_cases h : Has ⟨o, 2⟩ j
  · rw [reverse_of_has h]
    obtain ⟨hle, hlt⟩ := h
    simp only [swap16, mirror] at hle hlt ⊢
    rcases (by omega : j = o ∨ j = o + 1) with rfl | rfl
    · rw [if_pos rfl]
      congr 1
      omega
    · rw [if_neg (by omega), if_pos rfl]
      congr 1
      omega
  · rw [reverse_of_not_has h]
    simp only [Has, not_and, Nat.not_lt] at h
    rw [swap16, if_neg (by omega), if_neg (by omega)]

theorem swapHeader_eq (m : Image) : swapHeader m = reverseAll m headerFields := by
  simp only [swapHeader, swap32_eq, swap16_eq]
  rfl

theorem mswap_eq (m : Image) : mswap m = reverseAll m metaFields := by
  simp only [mswap, swap32_eq]
  rfl

def swapEntry (leaf : Bool) (m : Image) (p : Nat) : Image :=
  if leaf then swapBleaf m p else swapBinternal m p

def codeFields (leaf : Bool) (p : Nat) (flags : UInt8) : List Field :=
  refFields p ++ (if bigkey flags then refFields (p + 9) else []) ++
    (if leaf && bigdata flags then refFields (p + 9 + if bigkey flags then 8 else 4) else [])

theorem swapEntry_eq (leaf : Bool) (m : Image) (p : Nat) :
    swapEntry leaf m p = reverseAll m (codeFields leaf p (m (p + 8))) := by
  -- the sizes are swapped before the flags are read
  have hflags : reverse (reverse m ⟨p, 4⟩) ⟨p + 4, 4⟩ (p + 8) = m (p + 8) := by
    rw [reverse_of_not_has, reverse_of_not_has]
    · rintro ⟨-, hlt⟩
      simp only at hlt
      omega
    · rintro ⟨-, hlt⟩
      simp only at hlt
      omega
  cases leaf with
  | false =>
    simp only [swapEntry, swapBinternal, swap32_eq, hflags, codeFields, refFields, Bool.false_and,
      Bool.false_eq_true, if_false, List.append_nil]
    cases bigkey (m (p + 8)) <;> rfl
  | true =>
    simp only [swapEntry, swapBleaf, swap32_eq, hflags, codeFields, refFields, Bool.true_and,
      if_true]
    cases bigkey (m (p + 8)) <;> cases bigdata (m (p + 8)) <;> rfl

theorem codeFields_bounds {flags : UInt8} {f : Field} (hf : f ∈ codeFields leaf p flags) :
    p ≤ f.off ∧ (f.off + f.len ≤ p + 8 ∨ p + 9 ≤ f.off) ∧
      (f.off + f.len ≤ p + 8 ∨ f.off + f.len ≤ p + 17 ∧ bigkey flags = true ∨
        leaf = true ∧ bigdata flags = true ∧
          f.off + f.len ≤ p + if bigkey flags then 25 else 21) := by
  simp only [codeFields, refFields, List.mem_append] at hf
  rcases hf with (hf | hf) | hf
  · simp only [List.mem_cons, List.not_mem_nil, or_false] at hf
    rcases hf with rfl | rfl <;> simp only <;> omega
  · split at hf
    · rename_i hbig
      simp only [List.mem_cons, List.not_mem_nil, or_false] at hf
      rcases hf with rfl | rfl
      · exact ⟨by simp only; omega, by simp only; omega, .inr (.inl ⟨by simp only; omega, hbig⟩)⟩
      · exact ⟨by simp only; omega, by simp only; omega, .inr (.inl ⟨by simp only; omega, hbig⟩)⟩
    · simp at hf
  · split at hf
    · rename_i hbig
      rw [Bool.and_eq_true] at hbig
      simp only [List.mem_cons, List.not_mem_nil, or_false] at hf
      have hbounds : p ≤ f.off ∧ p + 9 ≤ f.off ∧
          f.off + f.len ≤ p + if bigkey flags then 25 else 21 := by
        split at hf
        · rename_i hkey
          rcases hf with rfl | rfl <;> simp only [hkey, if_true] <;> omega
        · rename_i hkey
          rcases hf with rfl | rfl <;> simp only [hkey, if_false, Bool.false_eq_true] <;> omega
      exact ⟨hbounds.1, .inr hbounds.2.1, .inr (.inr ⟨hbig.1, hbig.2, hbounds.2.2⟩)⟩
    · simp at hf

def sizeAt (le : Bool) (m : Image) (leaf : Bool) (i : Nat) : Nat :=
  entrySize le m leaf (linp le m i)

theorem WellFormed.size (h : WellFormed le psize m leaf) (hi : i < nextindex le m) :
    9 ≤ sizeAt le m leaf i ∧
      (Convert.bigkey (m (linp le m i + 8)) = true → 17 ≤ sizeAt le m leaf i) ∧
      (leaf = true → Convert.bigdata (m (linp le m i + 8)) = true → 17 ≤ sizeAt le m leaf i) ∧
      (leaf = true → Convert.bigkey (m (linp le m i + 8)) = true →
        Convert.bigdata (m (linp le m i + 8)) = true → 25 ≤ sizeAt le m leaf i) := by
  have hkey := h.bigkey i hi
  have hdata := fun hleaf => h.bigdata hleaf i hi
  rw [sizeAt, entrySize]
  refine ⟨by omega, fun hbig => ?_, fun hleaf hbig => ?_, fun hleaf hbig hbig' => ?_⟩
  · have := hkey hbig
    omega
  · have := hdata hleaf hbig
    rw [if_pos hleaf]
    omega
  · have := hkey hbig
    have := hdata hleaf hbig'
    rw [if_pos hleaf]
    omega

/-- The fields the code reverses in entry `i`. -/
def codeAt (le : Bool) (m : Image) (leaf : Bool) (i : Nat) : List Field :=
  codeFields leaf (linp le m i) (m (linp le m i + 8))

theorem WellFormed.code_bounds (h : WellFormed le psize m leaf) (hi : i < nextindex le m)
    {f : Field} (hf : f ∈ codeAt le m leaf i) :
    linp le m i ≤ f.off ∧ (f.off + f.len ≤ linp le m i + 8 ∨ linp le m i + 9 ≤ f.off) ∧
      f.off + f.len ≤ linp le m i + sizeAt le m leaf i + 4 := by
  obtain ⟨hle, hflags, hend⟩ := codeFields_bounds hf
  obtain ⟨hnine, hkey, hdata, hboth⟩ := h.size hi
  refine ⟨hle, hflags, ?_⟩
  rcases hend with hend | ⟨hend, hbig⟩ | ⟨hleaf, hbig, hend⟩
  · omega
  · have := hkey hbig
    omega
  · have := hdata hleaf hbig
    split at hend
    · rename_i hbig'
      have := hboth hleaf hbig' hbig
      omega
    · omega

theorem WellFormed.flags_apart (h : WellFormed le psize m leaf) {j : Nat} (hi : i < nextindex le m)
    (hj : j < nextindex le m) {f : Field} (hf : f ∈ codeAt le m leaf j) :
    ¬ f.Has (linp le m i + 8) := by
  rintro ⟨hle, hlt⟩
  obtain ⟨hoff, hflags, hend⟩ := h.code_bounds hj hf
  have hsize := (h.size hi).1
  by_cases heq : i = j
  · subst heq
    omega
  · have := h.apart i hi j hj heq
    simp only [sizeAt] at hend hsize
    omega

theorem linpOff_lt {j : Nat} (h : i < j) : linpOff i + 2 ≤ linpOff j := by
  simp only [linpOff]
  omega

theorem WellFormed.linp_before (h : WellFormed le psize m leaf) {j : Nat} (hi : i < nextindex le m)
    (hj : j < nextindex le m) : linpOff i + 2 ≤ linp le m j :=
  Nat.le_trans (linpOff_lt hi) (h.inside j hj).1

theorem get16_congr {o : Nat} (h : ∀ j, Has ⟨o, 2⟩ j → m₁ j = m j) :
    get16 le m₁ o = get16 le m o := by
  have h0 : m₁ o = m o := h o ⟨Nat.le_refl o, by simp only; omega⟩
  have h1 : m₁ (o + 1) = m (o + 1) := h (o + 1) ⟨Nat.le_succ o, by simp only; omega⟩
  rw [get16, get16, h0, h1]

/-- The fields the loop of `__bt_pgout` reverses in the first `n` entries. -/
def outFields (le : Bool) (m : Image) (leaf : Bool) (n : Nat) : List Field :=
  (List.range n).flatMap fun i => codeAt le m leaf i ++ [⟨linpOff i, 2⟩]

theorem mem_outFields {f : Field} (hf : f ∈ outFields le m leaf n) :
    ∃ i < n, f ∈ codeAt le m leaf i ∨ f = ⟨linpOff i, 2⟩ := by
  obtain ⟨i, hi, hf⟩ := List.mem_flatMap.1 hf
  rw [List.mem_append, List.mem_singleton] at hf
  exact ⟨i, List.mem_range.1 hi, hf⟩

theorem WellFormed.outLoop (h : WellFormed le psize m leaf) (hn : n ≤ nextindex le m) :
    (List.range n).foldl (outEntry le (swapEntry leaf)) m =
      reverseAll m (outFields le m leaf n) := by
  induction n with
  | zero => rfl
  | succ n ih =>
    rw [List.range_succ, List.foldl_append, ih (by omega), List.foldl_cons, List.foldl_nil]
    have hlinp : linp le (reverseAll m (outFields le m leaf n)) n = linp le m n := by
      refine get16_congr fun j hj => reverseAll_of_not_has fun f hf hfj => ?_
      obtain ⟨i, hi, hf | rfl⟩ := mem_outFields hf
      · have hcode := (h.code_bounds (by omega) hf).1
        have hbefore := h.linp_before (i := n) (j := i) (by omega) (by omega)
        simp only [Has] at hj hfj
        omega
      · have := linpOff_lt hi
        simp only [Has] at hj hfj
        omega
    have hflags : reverseAll m (outFields le m leaf n) (linp le m n + 8) = m (linp le m n + 8) := by
      refine reverseAll_of_not_has fun f hf => ?_
      obtain ⟨i, hi, hf | rfl⟩ := mem_outFields hf
      · exact h.flags_apart (by omega) (by omega) hf
      · have hbefore := h.linp_before (i := i) (j := n) (by omega) (by omega)
        rintro ⟨-, hlt⟩
        simp only at hlt
        omega
    have hfields : outFields le m leaf (n + 1) =
        outFields le m leaf n ++ (codeAt le m leaf n ++ [⟨linpOff n, 2⟩]) := by
      rw [outFields, List.range_succ, List.flatMap_append, List.flatMap_singleton]
      rfl
    rw [hfields, outEntry, hlinp, swapEntry_eq, hflags, swap16_eq, reverseAll_append,
      reverseAll_append]
    rfl

theorem hasEntries_eq (h : hasEntries le m leaf)
    (step : (Image → Nat → Image) → Image → Nat → Image) :
    swapEntries le step m = (List.range (nextindex le m)).foldl (step (swapEntry leaf)) m := by
  have hentry : ∀ b, swapEntry b = if b then swapBleaf else swapBinternal := by
    intro b
    cases b <;> rfl
  cases leaf with
  | false =>
    have htype : pageType le m = pBinternal := h
    rw [swapEntries, if_pos htype, hentry]
    rfl
  | true =>
    have htype : pageType le m = pBleaf := h
    have hne : ¬ pageType le m = pBinternal := by
      rw [htype]
      decide
    rw [swapEntries, if_neg hne, if_pos htype, hentry]
    rfl

theorem WellFormed.pgout_eq (h : WellFormed le psize m leaf) (hm : hasEntries le m leaf) {pg : Nat}
    (hpg : pg ≠ 0) : btPgout true le pg m =
      reverseAll m (outFields le m leaf (nextindex le m) ++ headerFields) := by
  rw [btPgout, if_neg (by simp), if_neg hpg, hasEntries_eq hm, h.outLoop (Nat.le_refl _),
    swapHeader_eq, reverseAll_append]

/-- An entry with its data, but not its key, on overflow pages has a key of four bytes. -/
def Aligned (le : Bool) (m : Image) (leaf : Bool) : Prop :=
  leaf = true → ∀ i < nextindex le m, bigdata (m (linp le m i + 8)) = true →
    bigkey (m (linp le m i + 8)) = false → get32 le m (linp le m i) = 4

theorem WellFormed.code_eq (h : WellFormed le psize m leaf) (ha : Aligned le m leaf)
    (hi : i < nextindex le m) : codeAt le m leaf i = entryFields le m leaf (linp le m i) := by
  rw [codeAt, codeFields, entryFields]
  cases hdata : leaf && Convert.bigdata (m (linp le m i + 8)) with
  | false => simp
  | true =>
    rw [Bool.and_eq_true] at hdata
    cases hkey : Convert.bigkey (m (linp le m i + 8)) with
    | false => simp [ha hdata.1 i hi hdata.2 hkey]
    | true => simp [h.bigkey i hi hkey]

theorem WellFormed.code_within (h : WellFormed le psize m leaf) (ha : Aligned le m leaf)
    (hi : i < nextindex le m) {f : Field} (hf : f ∈ codeAt le m leaf i) :
    f.off + f.len ≤ linp le m i + sizeAt le m leaf i := by
  obtain ⟨-, -, hend⟩ := codeFields_bounds hf
  obtain ⟨hnine, hkey, -, hboth⟩ := h.size hi
  rcases hend with hend | ⟨hend, hbig⟩ | ⟨hleaf, hbig, hend⟩
  · omega
  · have := hkey hbig
    omega
  · split at hend
    · rename_i hbig'
      have := hboth hleaf hbig' hbig
      omega
    · rename_i hsmall
      have hk := ha hleaf i hi hbig (Bool.eq_false_iff.2 hsmall)
      have hd := h.bigdata hleaf i hi hbig
      rw [sizeAt, entrySize, hk, hd, if_pos hleaf]
      omega

theorem codeFields_sorted (leaf : Bool) (p : Nat) (flags : UInt8) :
    (codeFields leaf p flags).Pairwise Apart := by
  have hsorted : (codeFields leaf p flags).Pairwise fun f g => f.off + f.len ≤ g.off := by
    rw [codeFields]
    cases leaf <;> cases bigkey flags <;> cases bigdata flags <;> simp [refFields, Nat.add_assoc]
  exact hsorted.imp apart_of_le

/-- The fields of the first `n` entries as `__bt_pgin` goes through them. -/
def inFields (le : Bool) (m : Image) (leaf : Bool) (n : Nat) : List Field :=
  (List.range n).flatMap fun i => ⟨linpOff i, 2⟩ :: codeAt le m leaf i

theorem mem_inFields {f : Field} (hf : f ∈ inFields le m leaf n) :
    ∃ i < n, f = ⟨linpOff i, 2⟩ ∨ f ∈ codeAt le m leaf i := by
  obtain ⟨i, hi, hf⟩ := List.mem_flatMap.1 hf
  rw [List.mem_cons] at hf
  exact ⟨i, List.mem_range.1 hi, hf⟩

theorem outFields_perm : (outFields le m leaf n).Perm (inFields le m leaf n) :=
  List.Perm.flatMap_left _ fun _ _ => List.perm_append_singleton _ _

theorem headerFields_sorted : headerFields.Pairwise Apart := by
  have hsorted : headerFields.Pairwise fun f g => f.off + f.len ≤ g.off := by decide
  exact hsorted.imp apart_of_le

theorem headerFields_end {f : Field} (hf : f ∈ headerFields) : f.off + f.len ≤ btdataoff := by
  have hall : ∀ f ∈ headerFields, f.off + f.len ≤ btdataoff := by decide
  exact hall f hf

theorem WellFormed.entries_apart (h : WellFormed le psize m leaf) (ha : Aligned le m leaf) {j : Nat}
    (hi : i < nextindex le m) (hj : j < nextindex le m) (hne : i ≠ j) {f g : Field}
    (hf : f ∈ codeAt le m leaf i) (hg : g ∈ codeAt le m leaf j) : f.Apart g := by
  have hfoff := (h.code_bounds hi hf).1
  have hgoff := (h.code_bounds hj hg).1
  have hfend := h.code_within ha hi hf
  have hgend := h.code_within ha hj hg
  simp only [sizeAt] at hfend hgend
  rcases h.apart i hi j hj hne with hij | hji
  · exact apart_of_le (by omega)
  · exact (apart_of_le (by omega)).symm

theorem WellFormed.fields_apart (h : WellFormed le psize m leaf) (ha : Aligned le m leaf) :
    (headerFields ++ inFields le m leaf (nextindex le m)).Pairwise Apart := by
  refine List.pairwise_append.2 ⟨headerFields_sorted, ?_, fun f hf g hg => ?_⟩
  · refine List.pairwise_flatMap.2 ⟨fun i hi => List.pairwise_cons.2 ⟨fun g hg => ?_,
      codeFields_sorted _ _ _⟩, ?_⟩
    · rw [List.mem_range] at hi
      have hoff := (h.code_bounds hi hg).1
      have hbefore := h.linp_before hi hi
      exact apart_of_le (by simp only; omega)
    · -- two entries: their index fields, an index field and an entry, the entries
      refine List.pairwise_iff_getElem.2 fun i j hi hj hij f hf g hg => ?_
      rw [List.length_range] at hi hj
      rw [List.getElem_range, List.mem_cons] at hf hg
      have hbefore := h.linp_before hi hj
      have hbefore' := h.linp_before hj hi
      rcases hf with rfl | hf <;> rcases hg with rfl | hg
      · exact apart_of_le (linpOff_lt hij)
      · have hoff := (h.code_bounds hj hg).1
        exact apart_of_le (by simp only; omega)
      · have hoff := (h.code_bounds hi hf).1
        exact (apart_of_le (by simp only; omega)).symm
      · exact h.entries_apart ha hi hj (Nat.ne_of_lt hij) hf hg
  · have hend := headerFields_end hf
    obtain ⟨i, hi, rfl | hg⟩ := mem_inFields hg
    · exact apart_of_le (by simp only [linpOff]; omega)
    · have hoff := (h.code_bounds hi hg).1
      have hbefore := h.linp_before hi hi
      simp only [linpOff] at hbefore
      exact apart_of_le (by omega)

theorem WellFormed.pageFields_eq (h : WellFormed le psize m leaf) (hm : hasEntries le m leaf)
    (ha : Aligned le m leaf) :
    pageFields le m = headerFields ++ inFields le m leaf (nextindex le m) := by
  have hentries : ((List.range (nextindex le m)).flatMap fun i =>
      (⟨linpOff i, 2⟩ : Field) :: entryFields le m leaf (linp le m i)) =
        inFields le m leaf (nextindex le m) := by
    refine List.flatMap_congr fun i hi => ?_
    rw [h.code_eq ha (List.mem_range.1 hi)]
  rw [← hentries]
  cases leaf with
  | false =>
    have htype : pageType le m = pBinternal := hm
    rw [pageFields, if_pos htype]
  | true =>
    have htype : pageType le m = pBleaf := hm
    have hne : ¬ pageType le m = pBinternal := by
      rw [htype]
      decide
    rw [pageFields, if_neg hne, if_pos htype]

theorem WellFormed.reversed_pgout (h : WellFormed le psize m leaf) (hm : hasEntries le m leaf)
    (ha : Aligned le m leaf) {pg : Nat} (hpg : pg ≠ 0) :
    Reversed (pageFields le m) m (btPgout true le pg m) := by
  have hperm : (outFields le m leaf (nextindex le m) ++ headerFields).Perm (pageFields le m) := by
    rw [h.pageFields_eq hm ha]
    exact (outFields_perm.append_right _).trans List.perm_append_comm
  have hpair : (outFields le m leaf (nextindex le m) ++ headerFields).Pairwise Apart := by
    refine (hperm.pairwise_iff fun hfg => hfg.symm).2 ?_
    rw [h.pageFields_eq hm ha]
    exact h.fields_apart ha
  rw [h.pgout_eq hm hpg]
  exact (reversed_reverseAll hpair).congr fun f => hperm.symm.mem_iff

theorem reversed_back {fs gs : List Field} {f : Field} {j : Nat} (h : Reversed fs m m₁)
    (h' : Reversed gs m₁ m₂) (hf : f ∈ fs) (hg : f ∈ gs) (hj : f.Has j) : m₂ j = m j := by
  rw [h'.field f hg j hj, h.field f hf _ (has_mirror hj), mirror_mirror hj]

theorem WellFormed.inLoop (h : WellFormed le psize m leaf)
    (h₁ : Reversed (headerFields ++ inFields le m leaf (nextindex le m)) m m₁)
    (hn : n ≤ nextindex le m) :
    (List.range n).foldl (inEntry le (swapEntry leaf)) (reverseAll m₁ headerFields) =
      reverseAll m₁ (headerFields ++ inFields le m leaf n) := by
  induction n with
  | zero => rfl
  | succ n ih =>
    rw [List.range_succ, List.foldl_append, ih (by omega), List.foldl_cons, List.foldl_nil,
      inEntry, swap16_eq]
    -- what is in no field that was gone through is as in the converted page
    have hkept : ∀ j, btdataoff ≤ j → (∀ i < n, ¬ Has ⟨linpOff i, 2⟩ j) →
        (∀ i < n, ∀ f ∈ codeAt le m leaf i, ¬ f.Has j) →
        reverseAll m₁ (headerFields ++ inFields le m leaf n) j = m₁ j := by
      intro j hj hlinp hcode
      refine reverseAll_of_not_has fun f hf => ?_
      rcases List.mem_append.1 hf with hf | hf
      · have hend := headerFields_end hf
        rintro ⟨-, hlt⟩
        omega
      · obtain ⟨i, hi, rfl | hf⟩ := mem_inFields hf
        · exact hlinp i hi
        · exact hcode i hi f hf
    have hmem : (⟨linpOff n, 2⟩ : Field) ∈
        headerFields ++ inFields le m leaf (nextindex le m) := by
      refine List.mem_append_right _ (List.mem_flatMap.2 ⟨n, List.mem_range.2 (by omega), ?_⟩)
      exact List.mem_cons_self ..
    have hlinp : linp le (reverse (reverseAll m₁ (headerFields ++ inFields le m leaf n))
        ⟨linpOff n, 2⟩) n = linp le m n := by
      refine get16_congr fun j hj => ?_
      rw [reverse_of_has hj, hkept, h₁.field _ hmem _ (has_mirror hj), mirror_mirror hj]
      · have hdata : btdataoff ≤ linpOff n := Nat.le_add_right _ _
        exact Nat.le_trans hdata (has_mirror hj).1
      · intro i hi hi'
        have := has_mirror hj
        have hlt := linpOff_lt hi
        simp only [Has] at this hi'
        omega
      · intro i hi f hf hi'
        have := has_mirror hj
        have hcode := (h.code_bounds (by omega) hf).1
        have hbefore := h.linp_before (i := n) (j := i) (by omega) (by omega)
        simp only [Has] at this hi'
        omega
    have hflags : reverse (reverseAll m₁ (headerFields ++ inFields le m leaf n)) ⟨linpOff n, 2⟩
        (linp le m n + 8) = m (linp le m n + 8) := by
      have hnot : ∀ i < nextindex le m, ¬ Has ⟨linpOff i, 2⟩ (linp le m n + 8) := by
        intro i hi
        have hbefore := h.linp_before (j := n) hi (by omega)
        rintro ⟨-, hlt⟩
        simp only at hlt
        omega
      have hdata : btdataoff ≤ linp le m n + 8 := by
        have hbefore := h.linp_before (i := n) (j := n) (by omega) (by omega)
        simp only [linpOff] at hbefore
        omega
      rw [reverse_of_not_has (hnot n (by omega)), hkept _ hdata (fun i hi => hnot i (by omega))
        fun i hi f hf => h.flags_apart (by omega) (by omega) hf]
      refine h₁.rest _ fun f hf => ?_
      rcases List.mem_append.1 hf with hf | hf
      · have hend := headerFields_end hf
        rintro ⟨-, hlt⟩
        omega
      · obtain ⟨i, hi, rfl | hf⟩ := mem_inFields hf
        · exact hnot i hi
        · exact h.flags_apart (by omega) hi hf
    have hfields : inFields le m leaf (n + 1) =
        inFields le m leaf n ++ ⟨linpOff n, 2⟩ :: codeAt le m leaf n := by
      rw [inFields, List.range_succ, List.flatMap_append, List.flatMap_singleton]
      rfl
    have hsplit : reverseAll m₁ (headerFields ++ inFields le m leaf (n + 1)) =
        reverseAll (reverseAll m₁ (headerFields ++ inFields le m leaf n))
          (⟨linpOff n, 2⟩ :: codeAt le m leaf n) := by
      rw [hfields, ← List.append_assoc, reverseAll_append]
    rw [hlinp, swapEntry_eq, hflags, hsplit, reverseAll_cons]
    rfl

theorem header_back (h₁ : Reversed (pageFields le m) m m₁) :
    pageType le (reverseAll m₁ headerFields) = pageType le m ∧
      nextindex le (reverseAll m₁ headerFields) = nextindex le m := by
  have h₂ : Reversed headerFields m₁ (reverseAll m₁ headerFields) :=
    reversed_reverseAll headerFields_sorted
  have hsub : ∀ f ∈ headerFields, f ∈ pageFields le m := by
    intro f hf
    rw [pageFields]
    split_ifs
    · exact List.mem_append_left _ hf
    · exact List.mem_append_left _ hf
    · exact hf
  have hback : ∀ f ∈ headerFields, ∀ j, f.Has j → reverseAll m₁ headerFields j = m j :=
    fun f hf j hj => reversed_back h₁ h₂ (hsub f hf) hf hj
  have hflags : ∀ j, 12 ≤ j → j < 16 → reverseAll m₁ headerFields j = m j :=
    fun j hle hlt => hback ⟨12, 4⟩ (by decide) j ⟨hle, hlt⟩
  have hlower : lower le (reverseAll m₁ headerFields) = lower le m :=
    get16_congr (hback ⟨16, 2⟩ (by decide))
  refine ⟨?_, by rw [nextindex, nextindex, hlower]⟩
  have hlo : get16 le (reverseAll m₁ headerFields) 12 = get16 le m 12 :=
    get16_congr fun j hj => hflags j hj.1 (by have := hj.2; simp only at this; omega)
  have hhi : get16 le (reverseAll m₁ headerFields) 14 = get16 le m 14 :=
    get16_congr fun j hj => hflags j (by have := hj.1; simp only at this; omega) hj.2
  rw [pageType, pageType, get32, get32, hlo, hhi]

theorem WellFormed.pgin_pgout (h : WellFormed le psize m leaf) (hm : hasEntries le m leaf)
    (ha : Aligned le m leaf) {pg : Nat} (hpg : pg ≠ 0) :
    btPgin true le pg (btPgout true le pg m) = m := by
  have h₁ := h.reversed_pgout hm ha hpg
  generalize btPgout true le pg m = m₁ at h₁
  obtain ⟨htype, hnext⟩ := header_back h₁
  have hm₂ : hasEntries le (reverseAll m₁ headerFields) leaf := by
    rw [hasEntries, htype]
    exact hm
  rw [btPgin, if_neg (by simp), if_neg hpg, swapHeader_eq, hasEntries_eq hm₂, hnext]
  rw [h.pageFields_eq hm ha] at h₁
  rw [h.inLoop h₁ (Nat.le_refl _)]
  exact h₁.twice (reversed_reverseAll (h.fields_apart ha))

/-- What the filters are for: `__bt_pgout` reverses the fields of the page and nothing else, and
`__bt_pgin` takes it back. -/
def Converts (le : Bool) (pg : Nat) (m : Image) : Prop :=
  Reversed (if pg = 0 then metaFields else pageFields le m) m (btPgout true le pg m) ∧
    btPgin true le pg (btPgout true le pg m) = m

/-- The page is the metadata page, or has entries and is well formed, or has no entries. -/
def PageOk (le : Bool) (psize pg : Nat) (m : Image) : Prop :=
  pg = 0 ∨ ∀ leaf, hasEntries le m leaf → WellFormed le psize m leaf

/-- Every entry of a leaf page with its data, but not its key, on overflow pages has a key of
four bytes. -/
def FourByteKeys (le : Bool) (pg : Nat) (m : Image) : Prop :=
  pg ≠ 0 → hasEntries le m true → Aligned le m true

theorem metaFields_sorted : metaFields.Pairwise Apart := by
  have hsorted : metaFields.Pairwise fun f g => f.off + f.len ≤ g.off := by decide
  exact hsorted.imp apart_of_le

theorem converts_meta (le : Bool) (m : Image) : Converts le 0 m := by
  have hreversed : Reversed metaFields m (mswap m) := by
    rw [mswap_eq]
    exact reversed_reverseAll metaFields_sorted
  refine ⟨hreversed, hreversed.twice ?_⟩
  show Reversed metaFields (mswap m) (mswap (mswap m))
  rw [mswap_eq (mswap m)]
  exact reversed_reverseAll metaFields_sorted

theorem converts_plain {pg : Nat} (hpg : pg ≠ 0) (hm : ∀ leaf, ¬ hasEntries le m leaf) :
    Converts le pg m := by
  have hinternal : pageType le m ≠ pBinternal := hm false
  have hleaf : pageType le m ≠ pBleaf := hm true
  have hfields : pageFields le m = headerFields := by
    rw [pageFields, if_neg hinternal, if_neg hleaf]
  have hout : btPgout true le pg m = reverseAll m headerFields := by
    rw [btPgout, if_neg (by simp), if_neg hpg, swapEntries, if_neg hinternal, if_neg hleaf,
      swapHeader_eq]
  have h₁ : Reversed (pageFields le m) m (btPgout true le pg m) := by
    rw [hfields, hout]
    exact reversed_reverseAll headerFields_sorted
  refine ⟨by rwa [if_neg hpg], ?_⟩
  obtain ⟨htype, -⟩ := header_back h₁
  rw [btPgin, if_neg (by simp), if_neg hpg, swapHeader_eq, swapEntries, htype, if_neg hinternal,
    if_neg hleaf]
  rw [hfields] at h₁
  exact h₁.twice (reversed_reverseAll headerFields_sorted)

theorem converts_of_fourByteKeys {pg : Nat} (h : PageOk le psize pg m)
    (hkeys : FourByteKeys le pg m) : Converts le pg m := by
  by_cases hpg : pg = 0
  · subst hpg
    exact converts_meta le m
  by_cases hentries : ∃ leaf, hasEntries le m leaf
  · obtain ⟨leaf, hm⟩ := hentries
    have hwell := h.resolve_left hpg leaf hm
    have ha : Aligned le m leaf := by
      cases leaf with
      | false => exact fun hfalse => nomatch hfalse
      | true => exact hkeys hpg hm
    exact ⟨by rw [if_neg hpg]; exact hwell.reversed_pgout hm ha hpg, hwell.pgin_pgout hm ha hpg⟩
  · exact converts_plain hpg fun leaf hm => hentries ⟨leaf, hm⟩

end Bsdi.Db.Convert
