import Bsdi.Db.Btree.ByteOrder
import Mathlib.Data.List.Nodup

/-!
# Layouts whose pages are all converted

Whether a page is converted depends on the bytes of its keys too: a word that reads the same
both ways hides a missed reference. Over all pages of one layout the answer depends on the sizes
of the keys only.
-/

namespace Bsdi.Db.Convert

open Bsdi.Lib Field

variable {le leaf : Bool} {m m₁ : Image} {psize p i : Nat}

/-- The pages have the same entries, up to the bytes of the keys and of the data. -/
structure SameLayout (le : Bool) (m m₁ : Image) : Prop where
  type : pageType le m₁ = pageType le m
  next : nextindex le m₁ = nextindex le m
  linp : ∀ i < nextindex le m, linp le m₁ i = linp le m i
  ksize : ∀ i < nextindex le m, get32 le m₁ (Convert.linp le m i) = get32 le m (Convert.linp le m i)
  flags : ∀ i < nextindex le m, m₁ (Convert.linp le m i + 8) = m (Convert.linp le m i + 8)

theorem SameLayout.fourByteKeys {pg : Nat} (h : SameLayout le m m₁) (hm : FourByteKeys le pg m) :
    FourByteKeys le pg m₁ := by
  intro hpg hleaf _ i hi hdata hkey
  rw [hasEntries, h.type] at hleaf
  rw [h.next] at hi
  rw [h.linp i hi, h.flags i hi] at hdata hkey
  rw [h.linp i hi, h.ksize i hi]
  exact hm hpg hleaf rfl i hi hdata hkey

theorem SameLayout.missed (h : SameLayout le m m₁) (hm : hasEntries le m leaf)
    (hi : i < nextindex le m) (hdata : bigdata (m (Convert.linp le m i + 8)) = true)
    (hkey : bigkey (m (Convert.linp le m i + 8)) = false) :
    hasEntries le m₁ leaf ∧ i < nextindex le m₁ ∧
      bigdata (m₁ (Convert.linp le m₁ i + 8)) = true ∧
      bigkey (m₁ (Convert.linp le m₁ i + 8)) = false := by
  refine ⟨?_, h.next.symm ▸ hi, ?_, ?_⟩
  · rw [hasEntries, h.type]
    exact hm
  · rw [h.linp i hi, h.flags i hi, hdata]
  · rw [h.linp i hi, h.flags i hi, hkey]

theorem get32_congr {o : Nat} (h : ∀ j, Has ⟨o, 4⟩ j → m₁ j = m j) :
    get32 le m₁ o = get32 le m o := by
  have hlo : get16 le m₁ o = get16 le m o := get16_congr fun j hj => h j
    ⟨hj.1, Nat.lt_of_lt_of_le hj.2 (by simp only; omega)⟩
  have hhi : get16 le m₁ (o + 2) = get16 le m (o + 2) := get16_congr fun j hj => h j
    ⟨Nat.le_trans (by simp only; omega) hj.1, Nat.lt_of_lt_of_le hj.2 (by simp only; omega)⟩
  rw [get32, get32, hlo, hhi]

section Change

variable {a : Nat} {v : UInt8}

theorem WellFormed.inline (h : WellFormed le psize m leaf) (hi : i < nextindex le m)
    (hle : linp le m i + 9 ≤ a) (hlt : a < linp le m i + sizeAt le m leaf i) :
    btdataoff ≤ a ∧ (∀ j < nextindex le m, linpOff j + 2 ≤ a) ∧
      ∀ j < nextindex le m, a < linp le m j ∨ linp le m j + 9 ≤ a := by
  have hbefore : ∀ j < nextindex le m, linpOff j + 2 ≤ a :=
    fun j hj => Nat.le_trans (h.linp_before hj hi) (by omega)
  refine ⟨?_, hbefore, fun j hj => ?_⟩
  · have := hbefore i hi
    simp only [linpOff] at this
    omega
  · by_cases heq : j = i
    · subst heq
      exact .inr hle
    · have hsize := (h.size hj).1
      have := h.apart i hi j hj (Ne.symm heq)
      simp only [sizeAt] at hlt hsize
      omega

variable (h : WellFormed le psize m leaf) (hi : i < nextindex le m)
  (hle : linp le m i + 9 ≤ a) (hlt : a < linp le m i + sizeAt le m leaf i)
include h hi hle hlt

theorem WellFormed.change_header :
    pageType le (Function.update m a v) = pageType le m ∧
      Convert.lower le (Function.update m a v) = Convert.lower le m := by
  have hdata := (h.inline hi hle hlt).1
  simp only [btdataoff] at hdata
  constructor
  · rw [pageType, pageType]
    congr 1
    refine get32_congr fun j hj => Function.update_of_ne ?_ ..
    have := hj.2
    simp only at this
    omega
  · refine get16_congr fun j hj => Function.update_of_ne ?_ ..
    have := hj.2
    simp only at this
    omega

theorem WellFormed.change_linp {j : Nat} (hj : j < nextindex le m) :
    linp le (Function.update m a v) j = linp le m j := by
  have hbefore := (h.inline hi hle hlt).2.1 j hj
  refine get16_congr fun b hb => Function.update_of_ne ?_ ..
  have := hb.2
  simp only at this
  omega

theorem WellFormed.change_head {j : Nat} (hj : j < nextindex le m) :
    get32 le (Function.update m a v) (linp le m j) = get32 le m (linp le m j) ∧
      get32 le (Function.update m a v) (linp le m j + 4) = get32 le m (linp le m j + 4) ∧
      Function.update m a v (linp le m j + 8) = m (linp le m j + 8) := by
  have hhead := (h.inline hi hle hlt).2.2 j hj
  refine ⟨get32_congr fun b hb => Function.update_of_ne ?_ ..,
    get32_congr fun b hb => Function.update_of_ne ?_ .., Function.update_of_ne (by omega) ..⟩
  · obtain ⟨hb, hb'⟩ := hb
    simp only at hb hb'
    omega
  · obtain ⟨hb, hb'⟩ := hb
    simp only at hb hb'
    omega

theorem WellFormed.change_layout : SameLayout le m (Function.update m a v) where
  type := (h.change_header hi hle hlt).1
  next := by rw [nextindex, nextindex, (h.change_header hi hle hlt).2]
  linp j hj := h.change_linp hi hle hlt hj
  ksize j hj := (h.change_head hi hle hlt hj).1
  flags j hj := (h.change_head hi hle hlt hj).2.2

theorem WellFormed.change : WellFormed le psize (Function.update m a v) leaf := by
  have hlayout := h.change_layout (v := v) hi hle hlt
  have hsize : ∀ j < nextindex le m, entrySize le (Function.update m a v) leaf (linp le m j) =
      entrySize le m leaf (linp le m j) := by
    intro j hj
    obtain ⟨hksize, hdsize, -⟩ := h.change_head (v := v) hi hle hlt hj
    rw [entrySize, entrySize, hksize, hdsize]
  constructor
  · rw [(h.change_header hi hle hlt).2]
    exact h.lower
  · intro j hj
    rw [hlayout.next] at hj ⊢
    rw [hlayout.linp j hj, hsize j hj]
    exact h.inside j hj
  · intro j hj k hk hne
    rw [hlayout.next] at hj hk
    rw [hlayout.linp j hj, hlayout.linp k hk, hsize j hj, hsize k hk]
    exact h.apart j hj k hk hne
  · intro j hj
    rw [hlayout.next] at hj
    rw [hlayout.linp j hj, hlayout.flags j hj, hlayout.ksize j hj]
    exact h.bigkey j hj
  · intro hleaf j hj
    rw [hlayout.next] at hj
    rw [hlayout.linp j hj, hlayout.flags j hj, (h.change_head hi hle hlt hj).2.1]
    exact h.bigdata hleaf j hj

end Change

theorem codeFields_missed {flags : UInt8} (hdata : bigdata flags = true)
    (hkey : bigkey flags = false) :
    codeFields true p flags = [⟨p, 4⟩, ⟨p + 4, 4⟩, ⟨p + 13, 4⟩, ⟨p + 17, 4⟩] := by
  simp [codeFields, refFields, hdata, hkey]

theorem WellFormed.entryFields_bounds (h : WellFormed le psize m leaf) (hi : i < nextindex le m)
    {f : Field} (hf : f ∈ entryFields le m leaf (linp le m i)) :
    linp le m i ≤ f.off ∧ f.off + f.len ≤ linp le m i + sizeAt le m leaf i := by
  have hsize := h.size hi
  simp only [entryFields, List.mem_append] at hf
  rcases hf with (hf | hf) | hf
  · simp only [refFields, List.mem_cons, List.not_mem_nil, or_false] at hf
    rcases hf with rfl | rfl <;> simp only <;> omega
  · split at hf
    · rename_i hbig
      have := hsize.2.1 hbig
      simp only [refFields, List.mem_cons, List.not_mem_nil, or_false] at hf
      rcases hf with rfl | rfl <;> simp only <;> omega
    · simp at hf
  · split at hf
    · rename_i hbig
      rw [Bool.and_eq_true] at hbig
      simp only [refFields, List.mem_cons, List.not_mem_nil, or_false] at hf
      rw [sizeAt, entrySize, if_pos hbig.1, h.bigdata hbig.1 i hi hbig.2]
      rcases hf with rfl | rfl <;> simp only <;> omega
    · simp at hf

theorem pageFields_leaf {le : Bool} {m : Image} (hm : hasEntries le m true) :
    pageFields le m = headerFields ++ (List.range (nextindex le m)).flatMap fun i =>
      ⟨linpOff i, 2⟩ :: entryFields le m true (linp le m i) := by
  have htype : pageType le m = pBleaf := hm
  have hnot : ¬ pageType le m = pBinternal := by
    rw [htype]
    decide
  rw [pageFields, if_neg hnot, if_pos htype]

section Missed

variable (h : WellFormed le psize m true) (hm : hasEntries le m true) (hi : i < nextindex le m)
  (hdata : Convert.bigdata (m (linp le m i + 8)) = true)
  (hkey : Convert.bigkey (m (linp le m i + 8)) = false)
include h hi hdata

theorem WellFormed.size_missed : sizeAt le m true i = 17 + get32 le m (linp le m i) := by
  rw [sizeAt, entrySize, if_pos rfl, h.bigdata rfl i hi hdata]
  omega

theorem WellFormed.others_apart {a j : Nat} {f : Field} (hj : j < nextindex le m) (hne : j ≠ i)
    (hle : linp le m i + 9 ≤ a) (hlt : a < linp le m i + 17 + get32 le m (linp le m i))
    (hf : f ∈ codeAt le m true j) : ¬ f.Has a := by
  obtain ⟨hoff, -, hend⟩ := h.code_bounds hj hf
  have hsize := h.size_missed hi hdata
  have hapart := h.apart i hi j hj (Ne.symm hne)
  rintro ⟨hfa, hfa'⟩
  simp only [sizeAt] at hend hsize
  omega

include hm hkey

theorem WellFormed.pgout_long {pg : Nat} (hpg : pg ≠ 0) (hlong : 4 < get32 le m (linp le m i)) :
    btPgout true le pg m (linp le m i + 13) = m (linp le m i + 16) := by
  obtain ⟨A, B, hrange⟩ := List.append_of_mem (List.mem_range.2 hi)
  have hnodup : (A ++ i :: B).Nodup := hrange ▸ List.nodup_range
  rw [List.nodup_middle, List.nodup_cons, List.mem_append] at hnodup
  have hlt : ∀ j ∈ A ++ i :: B, j < nextindex le m := fun j hj => List.mem_range.1 (hrange ▸ hj)
  -- the fields before and behind the word at item offset 13
  have hothers : ∀ j ∈ A ++ B, ∀ g ∈ codeAt le m true j ++ [⟨linpOff j, 2⟩],
      (⟨linp le m i + 13, 4⟩ : Field).Apart g := by
    intro j hj g hg b hb
    have hj' : j < nextindex le m := by
      refine hlt j ?_
      rw [List.mem_append] at hj
      rcases hj with hj | hj
      · exact List.mem_append_left _ hj
      · exact List.mem_append_right _ (List.mem_cons_of_mem _ hj)
    have hne : j ≠ i := by
      rintro rfl
      exact hnodup.1 (List.mem_append.1 hj)
    obtain ⟨hb, hb'⟩ := hb
    simp only at hb hb'
    rcases List.mem_append.1 hg with hg | hg
    · exact h.others_apart hi hdata hj' hne (by omega) (by omega) hg
    · have hbefore := h.linp_before hj' hi
      rw [List.mem_singleton] at hg
      subst hg
      rintro ⟨-, hlt'⟩
      simp only at hlt'
      omega
  have hsplit : outFields le m true (nextindex le m) ++ headerFields =
      (A.flatMap (fun j => codeAt le m true j ++ [⟨linpOff j, 2⟩]) ++
          [⟨linp le m i, 4⟩, ⟨linp le m i + 4, 4⟩]) ++ ⟨linp le m i + 13, 4⟩ ::
        (⟨linp le m i + 17, 4⟩ :: ⟨linpOff i, 2⟩ ::
          (B.flatMap (fun j => codeAt le m true j ++ [⟨linpOff j, 2⟩]) ++ headerFields)) := by
    have hcode := codeFields_missed (p := linp le m i) hdata hkey
    simp only [outFields, hrange, List.flatMap_append, List.flatMap_cons]
    rw [codeAt, hcode]
    simp
  rw [h.pgout_eq hm hpg, hsplit, reverseAll_of_has]
  · congr 1
    simp only [mirror]
    omega
  · intro g hg
    rcases List.mem_append.1 hg with hg | hg
    · obtain ⟨j, hj, hg⟩ := List.mem_flatMap.1 hg
      exact hothers j (List.mem_append_left _ hj) g hg
    · refine (apart_of_le ?_).symm
      simp only [List.mem_cons, List.not_mem_nil, or_false] at hg
      rcases hg with rfl | rfl <;> simp only <;> omega
  · intro g hg
    have hbefore := h.linp_before hi hi
    rcases List.mem_cons.1 hg with rfl | hg
    · exact apart_of_le (by simp only; omega)
    rcases List.mem_cons.1 hg with rfl | hg
    · exact (apart_of_le (by simp only; omega)).symm
    rcases List.mem_append.1 hg with hg | hg
    · obtain ⟨j, hj, hg⟩ := List.mem_flatMap.1 hg
      exact hothers j (List.mem_append_right _ hj) g hg
    · have hend := headerFields_end hg
      simp only [linpOff] at hbefore
      exact (apart_of_le (by simp only; omega)).symm
  · exact ⟨Nat.le_refl _, by simp only; omega⟩

theorem WellFormed.pgout_short {pg : Nat} (hpg : pg ≠ 0) (hshort : get32 le m (linp le m i) < 4) :
    btPgout true le pg m (linp le m i + 9 + get32 le m (linp le m i)) =
      m (linp le m i + 9 + get32 le m (linp le m i)) := by
  rw [h.pgout_eq hm hpg]
  refine reverseAll_of_not_has fun f hf => ?_
  rcases List.mem_append.1 hf with hf | hf
  · obtain ⟨j, hj, hf | rfl⟩ := mem_outFields hf
    · by_cases hne : j = i
      · subst hne
        rw [codeAt, codeFields_missed hdata hkey] at hf
        simp only [List.mem_cons, List.not_mem_nil, or_false] at hf
        rintro ⟨hle, hlt⟩
        rcases hf with rfl | rfl | rfl | rfl <;> simp only at hle hlt <;> omega
      · exact h.others_apart hi hdata hj hne (by omega) (by omega) hf
    · have hbefore := h.linp_before hj hi
      rintro ⟨-, hlt⟩
      simp only at hlt
      omega
  · have hend := headerFields_end hf
    have hbefore := h.linp_before hi hi
    simp only [linpOff] at hbefore
    rintro ⟨-, hlt⟩
    omega

theorem WellFormed.mirrored_short {pg : Nat} (hpg : pg ≠ 0)
    (hshort : get32 le m (linp le m i) < 4)
    (hrev : Reversed (pageFields le m) m (btPgout true le pg m)) :
    m (linp le m i + 9 + get32 le m (linp le m i)) =
      m (linp le m i + 9 + get32 le m (linp le m i) + 3) := by
  have hfield : (⟨linp le m i + 9 + get32 le m (linp le m i), 4⟩ : Field) ∈ pageFields le m := by
    rw [pageFields_leaf hm]
    refine List.mem_append_right _ (List.mem_flatMap.2 ⟨i, List.mem_range.2 hi, ?_⟩)
    refine List.mem_cons_of_mem _ (List.mem_append_right _ ?_)
    rw [hdata]
    exact List.mem_cons_self ..
  have hout := hrev.field _ hfield _ ⟨Nat.le_refl _, by simp only; omega⟩
  rw [h.pgout_short hm hi hdata hkey hpg hshort] at hout
  rw [hout]
  congr 1
  simp only [mirror]
  omega

theorem WellFormed.key_rest {a : Nat} (hle : linp le m i + 9 ≤ a)
    (hlt : a < linp le m i + 9 + get32 le m (linp le m i)) :
    ∀ f ∈ pageFields le m, ¬ f.Has a := by
  intro f hf
  rw [pageFields_leaf hm] at hf
  have hsize := h.size_missed hi hdata
  obtain ⟨hbase, hlinp, -⟩ := h.inline hi hle (by omega)
  rcases List.mem_append.1 hf with hf | hf
  · have hend := headerFields_end hf
    rintro ⟨-, hfa⟩
    omega
  obtain ⟨j, hj, hf⟩ := List.mem_flatMap.1 hf
  rw [List.mem_range] at hj
  rcases List.mem_cons.1 hf with rfl | hf
  · have := hlinp j hj
    rintro ⟨-, hfa⟩
    simp only at hfa
    omega
  by_cases hne : j = i
  · subst hne
    rw [entryFields, hdata, hkey] at hf
    simp only [refFields, Bool.and_self, if_true, Bool.false_eq_true, if_false, List.append_nil,
      List.cons_append, List.nil_append, List.mem_cons, List.not_mem_nil, or_false] at hf
    rintro ⟨hfa, hfa'⟩
    rcases hf with rfl | rfl | rfl | rfl <;> simp only at hfa hfa' <;> omega
  · obtain ⟨hoff, hend⟩ := h.entryFields_bounds hj hf
    have hapart := h.apart i hi j hj (Ne.symm hne)
    rintro ⟨hfa, hfa'⟩
    simp only [sizeAt] at hend hsize
    omega

theorem WellFormed.mirrored_long {pg : Nat} (hpg : pg ≠ 0)
    (hlong : 4 < get32 le m (linp le m i))
    (hrev : Reversed (pageFields le m) m (btPgout true le pg m)) :
    m (linp le m i + 13) = m (linp le m i + 13 + 3) := by
  have hrest := h.key_rest hm hi hdata hkey (a := linp le m i + 13) (by omega) (by omega)
  rw [← hrev.rest _ hrest, h.pgout_long hm hi hdata hkey hpg hlong]

end Missed

theorem byte_succ_ne (x : UInt8) : x + 1 ≠ x := by
  intro h
  simp at h

theorem WellFormed.missed (h : WellFormed le psize m true) (hm : hasEntries le m true)
    (hi : i < nextindex le m) (hdata : Convert.bigdata (m (linp le m i + 8)) = true)
    (hkey : Convert.bigkey (m (linp le m i + 8)) = false) (hne : get32 le m (linp le m i) ≠ 4)
    {pg : Nat} (hpg : pg ≠ 0) :
    ∃ m₁, WellFormed le psize m₁ true ∧ SameLayout le m m₁ ∧ ¬ Converts le pg m₁ := by
  have hsize := h.size_missed hi hdata
  obtain ⟨a, hle, hlt, hbyte⟩ : ∃ a, linp le m i + 9 ≤ a ∧
      a < linp le m i + sizeAt le m true i ∧
      ∀ m₁, WellFormed le psize m₁ true → SameLayout le m m₁ → Converts le pg m₁ →
        m₁ a = m₁ (a + 3) := by
    rcases Nat.lt_or_gt_of_ne hne with hshort | hlong
    · refine ⟨linp le m i + 9 + get32 le m (linp le m i), by omega, by omega, ?_⟩
      intro m₁ hwell hlayout hconv
      obtain ⟨hm₁, hi₁, hdata₁, hkey₁⟩ := hlayout.missed hm hi hdata hkey
      have hrev := hconv.1
      rw [if_neg hpg] at hrev
      have hbyte := hwell.mirrored_short hm₁ hi₁ hdata₁ hkey₁ hpg
        (by rw [hlayout.linp i hi, hlayout.ksize i hi]; exact hshort) hrev
      rwa [hlayout.linp i hi, hlayout.ksize i hi] at hbyte
    · refine ⟨linp le m i + 13, by omega, by omega, ?_⟩
      intro m₁ hwell hlayout hconv
      obtain ⟨hm₁, hi₁, hdata₁, hkey₁⟩ := hlayout.missed hm hi hdata hkey
      have hrev := hconv.1
      rw [if_neg hpg] at hrev
      have hbyte := hwell.mirrored_long hm₁ hi₁ hdata₁ hkey₁ hpg
        (by rw [hlayout.linp i hi, hlayout.ksize i hi]; exact hlong) hrev
      rwa [hlayout.linp i hi] at hbyte
  -- one byte is changed, so that it is not the byte at the other end of its word
  have hwell := h.change (v := m (a + 3) + 1) hi hle hlt
  have hlayout := h.change_layout (v := m (a + 3) + 1) hi hle hlt
  refine ⟨_, hwell, hlayout, fun hconv => ?_⟩
  have heq := hbyte _ hwell hlayout hconv
  rw [Function.update_self, Function.update_of_ne (by omega)] at heq
  exact byte_succ_ne _ heq

/-- All pages with the layout of a page are converted just if no overflow reference of the layout
is missed. -/
theorem converts_iff {pg : Nat} (h : PageOk le psize pg m) :
    (∀ m₁, PageOk le psize pg m₁ → SameLayout le m m₁ → Converts le pg m₁) ↔
      FourByteKeys le pg m := by
  constructor
  · intro hall hpg hm _ i hi hdata hkey
    by_contra hne
    obtain ⟨m₁, hwell, hlayout, hnot⟩ :=
      (h.resolve_left hpg true hm).missed hm hi hdata hkey hne hpg
    refine hnot (hall m₁ (.inr fun leaf hleaf => ?_) hlayout)
    cases leaf with
    | false =>
      rw [hasEntries, hlayout.type, hm] at hleaf
      exact absurd hleaf (by decide)
    | true => exact hwell
  · intro hkeys m₁ h₁ hlayout
    exact converts_of_fourByteKeys h₁ (hlayout.fourByteKeys hkeys)

/-- A leaf page with one entry at 100, a key of `ksize` bytes and data on overflow page 2. -/
def onePage (ksize : UInt8) : Image := fun j =>
  if j = 12 then 2
  else if j = 16 then 22
  else if j = 18 then 100
  else if j = 20 then 100
  else if j = 100 then ksize
  else if j = 104 then 8
  else if j = 108 then 1
  else if j = 109 + ksize.toNat then 2
  else if j = 114 + ksize.toNat then 3
  else 0

theorem onePage_ok {ksize : UInt8} (hk : ksize = 1 ∨ ksize = 4) :
    PageOk true 512 1 (onePage ksize) := by
  refine .inr fun leaf hleaf => ?_
  cases leaf with
  | false =>
    rcases hk with rfl | rfl
    · exact absurd hleaf (by unfold hasEntries; decide)
    · exact absurd hleaf (by unfold hasEntries; decide)
  | true =>
    rcases hk with rfl | rfl
    · exact ⟨by decide, by decide, by decide, by decide, fun _ => by decide⟩
    · exact ⟨by decide, by decide, by decide, by decide, fun _ => by decide⟩

theorem converts_iff_onePage : PageOk true 512 1 (onePage 4) ∧
    ∀ m₁, PageOk true 512 1 m₁ → SameLayout true (onePage 4) m₁ → Converts true 1 m₁ :=
  ⟨onePage_ok (.inr rfl), (converts_iff (onePage_ok (.inr rfl))).2 fun _ _ _ => by decide⟩

/-- With a key of one byte, the page number of the data is left as it is. -/
theorem converts_missed : PageOk true 512 1 (onePage 1) ∧ ¬ Converts true 1 (onePage 1) := by
  refine ⟨onePage_ok (.inl rfl), fun h => ?_⟩
  have hout := h.1.field ⟨110, 4⟩ (by decide) 110 (by decide)
  exact absurd hout (by decide)

end Bsdi.Db.Convert
