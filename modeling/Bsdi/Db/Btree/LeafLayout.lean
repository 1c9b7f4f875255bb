import Bsdi.Db.Btree.Chains
import Bsdi.Lib.Memory
import Mathlib.Data.List.InsertIdx

/-!
# The layout of leaf pages

How `__bt_put` and `__rec_iput` store an item on a leaf page that has room for it, and how
`__bt_dleaf` and `__rec_dleaf` take one out. A page is the memory of its bytes and the index `linp`,
up to `lower`; `upper`, `lower` and the slots of the index are `indx_t`.
-/

namespace Bsdi.Db.Leaf

open Bsdi.Lib

structure LeafPage where
  lower : Nat
  upper : Nat
  linp : List Nat
  mem : Nat → UInt8

/-- The leaf pages of a btree and of a recno tree. -/
inductive Kind
  | bleaf
  | rleaf

/-! ## The items -/

def word (mem : Nat → UInt8) (p : Nat) : Nat := ofLe32 (slice mem p 4)

/-- `NBLEAF` and `NRLEAF` of the item at `p`. -/
def size : Kind → (Nat → UInt8) → Nat → Nat
  | .bleaf, mem, p => nbleafdbt (word mem p) (word mem (p + 4))
  | .rleaf, mem, p => nrleafdbt (word mem p)

/-- `NBLEAFDBT` and `NRLEAFDBT`. -/
def sizeDbt : Kind → (key data : Dbt) → Nat
  | .bleaf, key, data => nbleafdbt key.length data.length
  | .rleaf, _, data => nrleafdbt data.length

/-- `WR_BLEAF` and `WR_RLEAF`. -/
def record : Kind → (key data : Dbt) → (flags : UInt8) → Dbt
  | .bleaf, key, data, flags => le32 key.length ++ (le32 data.length ++ (flags :: (key ++ data)))
  | .rleaf, _, data, flags => le32 data.length ++ (flags :: data)

/-! ## Deleting -/

def memmove (mem : Nat → UInt8) (dest src n : Nat) : Nat → UInt8 := fun j =>
  if dest ≤ j ∧ j < dest + n then mem (src + (j - dest)) else mem j

/-- The offset of an item after those below `offset` have moved up. -/
def adjust (offset nbytes x : Nat) : Nat := if x < offset then (x + nbytes) % indxMod else x

/-- The loops over the slots, `cnt` of them before the one that goes. -/
def adjustLoop (offset nbytes : Nat) : Nat → List Nat → List Nat
  | _, [] => []
  | 0, _ :: ip => ip.map (adjust offset nbytes)
  | cnt + 1, x :: ip => adjust offset nbytes x :: adjustLoop offset nbytes cnt ip

def dleaf (kind : Kind) (h : LeafPage) (index : Nat) : LeafPage :=
  let offset := h.linp.getD index 0
  let nbytes := size kind h.mem offset
  { lower := h.lower - indxSize
    upper := (h.upper + nbytes) % indxMod
    linp := adjustLoop offset nbytes index h.linp
    mem := memmove h.mem (h.upper + nbytes) h.upper (offset - h.upper) }

def btDleaf : LeafPage → Nat → LeafPage := dleaf .bleaf

def recDleaf : LeafPage → Nat → LeafPage := dleaf .rleaf

/-! ## Inserting -/

def insert (kind : Kind) (h : LeafPage) (index : Nat) (key data : Dbt) (flags : UInt8) :
    Option LeafPage :=
  let nbytes := sizeDbt kind key data
  if (h.upper + u32Mod - h.lower) % u32Mod < nbytes + indxSize then none
  else
    let upper := (h.upper + indxMod - nbytes) % indxMod
    some
      { lower := h.lower + indxSize
        upper := upper
        linp := h.linp.take index ++ upper :: h.linp.drop index
        mem := store h.mem upper (record kind key data flags) }

def btPut (h : LeafPage) (index : Nat) (key data : Dbt) (dflags : UInt8) : Option LeafPage :=
  insert .bleaf h index key data dflags

def recIput (h : LeafPage) (index : Nat) (data : Dbt) (dflags : UInt8) : Option LeafPage :=
  insert .rleaf h index [] data dflags

/-! ## Packed pages -/

/-- The items are where the slots of the index say, and fill the page from `upper` on. -/
structure Packed (kind : Kind) (psize : Nat) (h : LeafPage) : Prop where
  lower : h.lower = btdataoff + indxSize * h.linp.length
  lower_le : h.lower ≤ h.upper
  upper_le : h.upper ≤ psize
  upper_lt : h.upper < indxMod
  nodup : h.linp.Nodup
  covers : ∀ a, h.upper ≤ a ∧ a < psize ↔ ∃ p ∈ h.linp, p ≤ a ∧ a < p + size kind h.mem p
  apart : ∀ p ∈ h.linp, ∀ q ∈ h.linp, p < q → p + size kind h.mem p ≤ q

def items (kind : Kind) (h : LeafPage) : List Dbt :=
  h.linp.map fun p => slice h.mem p (size kind h.mem p)

variable {kind : Kind} {psize p q n index : Nat} {mem mem' : Nat → UInt8} {h : LeafPage}

theorem size_pos (kind : Kind) (mem : Nat → UInt8) (p : Nat) : 8 ≤ size kind mem p := by
  cases kind <;> simp only [size, nbleafdbt, nrleafdbt, lalign] <;> omega

theorem size_congr (heq : ∀ j < size kind mem p, mem' (q + j) = mem (p + j)) :
    size kind mem' q = size kind mem p := by
  have hpos := size_pos kind mem p
  have hword : ∀ i ≤ 4, word mem' (q + i) = word mem (p + i) := fun i hi => by
    rw [word, word]
    congr 1
    refine List.map_congr_left fun j hj => ?_
    rw [Nat.add_assoc, Nat.add_assoc]
    exact heq (i + j) (by have := List.mem_range.1 hj; omega)
  have hfirst : word mem' q = word mem p := hword 0 (by omega)
  cases kind with
  | bleaf => rw [size, size, hword 4 (by omega), hfirst]
  | rleaf => rw [size, size, hfirst]

theorem slice_size_congr (heq : ∀ j < size kind mem p, mem' (q + j) = mem (p + j)) :
    slice mem' q (size kind mem' q) = slice mem p (size kind mem p) := by
  rw [size_congr heq]
  exact List.map_congr_left fun j hj => heq j (List.mem_range.1 hj)

theorem adjustLoop_eq (offset nbytes : Nat) (L R : List Nat) :
    adjustLoop offset nbytes L.length (L ++ p :: R) = (L ++ R).map (adjust offset nbytes) := by
  induction L with
  | nil => rfl
  | cons x L ih => simp [adjustLoop, ih]

theorem Packed.range (hpage : Packed kind psize h) (hp : p ∈ h.linp) :
    h.upper ≤ p ∧ p + size kind h.mem p ≤ psize := by
  have hpos := size_pos kind h.mem p
  have hfirst := (hpage.covers p).2 ⟨p, hp, Nat.le_refl p, by omega⟩
  have hlast := (hpage.covers (p + size kind h.mem p - 1)).2 ⟨p, hp, by omega, by omega⟩
  omega

/-! ## Deletion keeps the page packed -/

section

variable {L R : List Nat} {upper lower : Nat}

/-- The page after an item of it is deleted, if `upper` does not overflow. -/
def closed (kind : Kind) (mem : Nat → UInt8) (lower upper p : Nat) (l : List Nat) : LeafPage where
  lower := lower - indxSize
  upper := upper + size kind mem p
  linp := l.map (adjust p (size kind mem p))
  mem := memmove mem (upper + size kind mem p) upper (p - upper)

variable (hpage : Packed kind psize ⟨lower, upper, L ++ p :: R, mem⟩) (hpsize : psize ≤ indxMod)
include hpage hpsize

theorem Packed.moved (hq : q ∈ L ++ R) : ∃ q', adjust p (size kind mem p) q = q' ∧
    (q < p ∧ q' = q + size kind mem p ∧ q + size kind mem q ≤ p ∨
      q' = q ∧ p + size kind mem p ≤ q) ∧
    ∀ j < size kind mem q,
      memmove mem (upper + size kind mem p) upper (p - upper) (q' + j) = mem (q + j) := by
  have hmem : ∀ x, x ∈ L ++ R → x ∈ L ++ p :: R := fun x hx => by
    simp only [List.mem_append, List.mem_cons] at hx ⊢
    tauto
  have hne : q ≠ p := by
    rintro rfl
    have hnodup := hpage.nodup
    rw [List.nodup_middle, List.nodup_cons] at hnodup
    exact hnodup.1 hq
  have hp : p ∈ L ++ p :: R := by simp
  have hrange := hpage.range hp
  have hrangeq := hpage.range (hmem q hq)
  have hpos := size_pos kind mem q
  dsimp only at hrange hrangeq
  by_cases hlt : q < p
  · have hend := hpage.apart q (hmem q hq) p hp hlt
    dsimp only at hend
    refine ⟨_, rfl, .inl ⟨hlt, ?_, hend⟩, fun j hj => ?_⟩
    · rw [adjust, if_pos hlt, Nat.mod_eq_of_lt (by omega)]
    · rw [adjust, if_pos hlt, Nat.mod_eq_of_lt (by omega), memmove, if_pos (by omega)]
      congr 1
      omega
  · have hend := hpage.apart p hp q (hmem q hq) (by omega)
    dsimp only at hend
    refine ⟨_, rfl, .inr ⟨if_neg hlt, hend⟩, fun j hj => ?_⟩
    rw [adjust, if_neg hlt, memmove, if_neg (by omega)]

theorem Packed.items_closed :
    items kind (closed kind mem lower upper p (L ++ R)) =
      (L ++ R).map fun q => slice mem q (size kind mem q) := by
  rw [items, closed, List.map_map]
  refine List.map_congr_left fun q hq => ?_
  obtain ⟨q', rfl, -, hbytes⟩ := hpage.moved hpsize hq
  exact slice_size_congr hbytes

theorem Packed.closed (hfits : upper + size kind mem p < indxMod) :
    Packed kind psize (closed kind mem lower upper p (L ++ R)) := by
  have hp : p ∈ L ++ p :: R := by simp
  have hrange := hpage.range hp
  have hlower := hpage.lower
  have hle := hpage.lower_le
  have hmem : ∀ x, x ∈ L ++ p :: R ↔ x = p ∨ x ∈ L ++ R := fun x => by
    simp only [List.mem_append, List.mem_cons]
    tauto
  have hpos := size_pos kind mem p
  dsimp only at hrange hlower hle
  rw [List.length_append, List.length_cons] at hlower
  refine ⟨?_, ?_, ?_, hfits, ?_, fun a => ⟨?_, ?_⟩, ?_⟩
  · simp only [Leaf.closed, List.length_map, List.length_append, indxSize] at hlower ⊢
    omega
  · simp only [Leaf.closed]
    omega
  · simp only [Leaf.closed]
    omega
  · have hnodup := hpage.nodup
    rw [List.nodup_middle, List.nodup_cons] at hnodup
    refine hnodup.2.map_on fun x hx y hy heq => ?_
    obtain ⟨x', hx', hcase, -⟩ := hpage.moved hpsize hx
    obtain ⟨y', hy', hcase', -⟩ := hpage.moved hpsize hy
    have hxpos := size_pos kind mem x
    have hypos := size_pos kind mem y
    omega
  · -- a byte is of the item that it was of, or `size kind mem p` bytes before
    rintro ⟨hupper, hlt⟩
    simp only [Leaf.closed] at hupper
    by_cases hmoved : a < p + size kind mem p
    · obtain ⟨q, hq, hqa, haq⟩ := (hpage.covers (a - size kind mem p)).1 (by dsimp only; omega)
      dsimp only at haq
      obtain ⟨q', hq', hcase, hbytes⟩ :=
        hpage.moved hpsize (((hmem q).1 hq).resolve_left (by omega))
      refine ⟨q', List.mem_map.2 ⟨q, ((hmem q).1 hq).resolve_left (by omega), hq'⟩, ?_⟩
      rw [Leaf.closed, size_congr hbytes]
      omega
    · obtain ⟨q, hq, hqa, haq⟩ := (hpage.covers a).1 (by dsimp only; omega)
      dsimp only at haq
      have hne : q ≠ p := by
        rintro rfl
        omega
      obtain ⟨q', hq', hcase, hbytes⟩ := hpage.moved hpsize (((hmem q).1 hq).resolve_left hne)
      refine ⟨q', List.mem_map.2 ⟨q, ((hmem q).1 hq).resolve_left hne, hq'⟩, ?_⟩
      rw [Leaf.closed, size_congr hbytes]
      omega
  · rintro ⟨_, hslot, hqa, haq⟩
    obtain ⟨q, hq, rfl⟩ := List.mem_map.1 hslot
    obtain ⟨q', rfl, hcase, hbytes⟩ := hpage.moved hpsize hq
    have hrangeq := hpage.range ((hmem q).2 (.inr hq))
    rw [Leaf.closed, size_congr hbytes] at haq
    simp only [Leaf.closed]
    dsimp only at hrangeq
    omega
  · rintro _ hslot _ hslot' hlt
    obtain ⟨x, hx, rfl⟩ := List.mem_map.1 hslot
    obtain ⟨y, hy, rfl⟩ := List.mem_map.1 hslot'
    obtain ⟨x', hx', hcase, hbytes⟩ := hpage.moved hpsize hx
    obtain ⟨y', hy', hcase', -⟩ := hpage.moved hpsize hy
    have hapart := hpage.apart x ((hmem x).2 (.inr hx)) y ((hmem y).2 (.inr hy))
    have hypos := size_pos kind mem y
    rw [hx', hy'] at hlt ⊢
    rw [Leaf.closed, size_congr hbytes]
    dsimp only at hapart
    omega

end

theorem dleaf_iff (hpage : Packed kind psize h) (hpsize : psize ≤ indxMod)
    (hindex : index < h.linp.length) :
    Packed kind psize (dleaf kind h index) ∧
        items kind (dleaf kind h index) = (items kind h).eraseIdx index ↔
      ¬ (psize = indxMod ∧ h.linp.length = 1) := by
  obtain ⟨lower, upper, linp, mem⟩ := h
  obtain ⟨L, p, R, rfl, rfl⟩ : ∃ L p R, linp = L ++ p :: R ∧ L.length = index :=
    ⟨linp.take index, linp[index], linp.drop (index + 1),
      by rw [List.getElem_cons_drop, List.take_append_drop],
      List.length_take_of_le (Nat.le_of_lt hindex)⟩
  have hrange := hpage.range (p := p) (by simp)
  dsimp only at hrange
  have hoffset : (L ++ p :: R).getD L.length 0 = p := by simp
  have herase : (L ++ p :: R).eraseIdx L.length = L ++ R := by
    rw [List.eraseIdx_append_of_length_le (Nat.le_refl _), Nat.sub_self]
    rfl
  by_cases hfits : upper + size kind mem p < indxMod
  · have hrun : dleaf kind ⟨lower, upper, L ++ p :: R, mem⟩ L.length =
        closed kind mem lower upper p (L ++ R) := by
      simp only [dleaf, closed, hoffset, adjustLoop_eq, Nat.mod_eq_of_lt hfits]
    rw [hrun, hpage.items_closed hpsize]
    refine iff_of_true ⟨hpage.closed hpsize hfits, ?_⟩ ?_
    · rw [items, List.eraseIdx_map, herase]
    · -- an item alone on its page fills it from `upper` on
      rintro ⟨hfull, hone⟩
      obtain ⟨rfl, rfl⟩ : L = [] ∧ R = [] := by
        simpa [← List.length_eq_zero_iff, ← Nat.add_assoc] using hone
      obtain ⟨q, hq, hqa, -⟩ := (hpage.covers upper).1 (by dsimp only; omega)
      obtain ⟨q', hq', -, haq⟩ := (hpage.covers (psize - 1)).1 (by dsimp only; omega)
      obtain rfl : q = p := by simpa using hq
      obtain rfl : q' = q := by simpa using hq'
      dsimp only at haq
      omega
  · have hall : ∀ q ∈ L ++ R, False := fun q hq => by
      have hq' : q ∈ L ++ p :: R := by
        simp only [List.mem_append, List.mem_cons] at hq ⊢
        tauto
      have hrangeq := hpage.range hq'
      have hnodup := hpage.nodup
      rw [List.nodup_middle, List.nodup_cons] at hnodup
      have hne : q ≠ p := by
        rintro rfl
        exact hnodup.1 hq
      have hapart := hpage.apart p (by simp) q hq'
      have hpos := size_pos kind mem q
      dsimp only at hrangeq hapart
      omega
    have hnil : L ++ R = [] := List.eq_nil_iff_forall_not_mem.2 hall
    obtain ⟨rfl, rfl⟩ := List.append_eq_nil_iff.1 hnil
    refine iff_of_false (fun hdone => ?_) (not_not_intro ⟨by omega, rfl⟩)
    have hwrap : (upper + size kind mem p) % indxMod = 0 := by
      rw [show upper + size kind mem p = indxMod by omega, Nat.mod_self]
    have hle := hdone.1.lower_le
    have hlower := hpage.lower
    simp only [dleaf, hoffset, hwrap] at hle
    simp only [btdataoff, indxSize, List.nil_append, List.length_singleton] at hle hlower
    omega

/-! ## Insertion keeps the page packed -/

theorem word_store {u m : Nat} {pre rest : Dbt} (hm : m < u32Mod) :
    word (store mem u (pre ++ (le32 m ++ rest))) (u + pre.length) = m := by
  have hstored := @slice_store _ mem u (pre ++ (le32 m ++ rest))
  have hfour : (le32 m).length = 4 := rfl
  rw [List.length_append, List.length_append, slice_append, slice_append] at hstored
  obtain ⟨-, hrest⟩ := List.append_inj hstored length_slice
  obtain ⟨hword, -⟩ := List.append_inj hrest length_slice
  rw [hfour] at hword
  rw [word, hword, ← List.append_nil (le32 m), ofLe32_le32 hm]

theorem length_record_le (kind : Kind) (key data : Dbt) (flags : UInt8) :
    (record kind key data flags).length ≤ sizeDbt kind key data := by
  have hfour : ∀ m, (le32 m).length = 4 := fun _ => rfl
  cases kind <;>
    simp only [record, sizeDbt, nbleafdbt, nrleafdbt, lalign, List.length_append, List.length_cons,
      hfour] <;> omega

theorem size_store {u : Nat} {key data : Dbt} {flags : UInt8}
    (hfits : sizeDbt kind key data < u32Mod) :
    size kind (store mem u (record kind key data flags)) u = sizeDbt kind key data := by
  have hrecord := length_record_le kind key data flags
  cases kind with
  | bleaf =>
    simp only [record, List.length_append, List.length_cons] at hrecord
    have hkey := @word_store mem u key.length [] (le32 data.length ++ (flags :: (key ++ data)))
      (by omega)
    have hdata := @word_store mem u data.length (le32 key.length) (flags :: (key ++ data)) (by omega)
    rw [size, sizeDbt]
    exact congrArg₂ nbleafdbt hkey hdata
  | rleaf =>
    simp only [record, List.length_append, List.length_cons] at hrecord
    exact congrArg nrleafdbt (@word_store mem u data.length [] (flags :: data) (by omega))

theorem insertIdx_length {α : Type*} (x : α) (L R : List α) :
    (L ++ R).insertIdx L.length x = L ++ x :: R := by
  induction L with
  | nil => rfl
  | cons y L ih => simp [ih]

theorem insert_packed {key data : Dbt} {flags : UInt8} {h' : LeafPage} (hpage : Packed kind psize h)
    (hindex : index ≤ h.linp.length) (hrun : insert kind h index key data flags = some h') :
    Packed kind psize h' ∧ ∃ pad,
      items kind h' = (items kind h).insertIdx index (record kind key data flags ++ pad) := by
  obtain ⟨lower, upper, linp, mem⟩ := h
  obtain ⟨L, R, rfl, rfl⟩ : ∃ L R, linp = L ++ R ∧ L.length = index :=
    ⟨_, _, (List.take_append_drop index linp).symm, List.length_take_of_le hindex⟩
  have hlower := hpage.lower
  have hle := hpage.lower_le
  have hupper := hpage.upper_le
  have hlt := hpage.upper_lt
  dsimp only at hlower hle hupper hlt
  rw [insert] at hrun
  dsimp only at hrun
  rw [show upper + u32Mod - lower = upper - lower + u32Mod by omega, Nat.add_mod_right,
    Nat.mod_eq_of_lt (by simp only [indxMod, u32Mod] at *; omega)] at hrun
  by_cases hfull : upper - lower < sizeDbt kind key data + indxSize
  · rw [if_pos hfull] at hrun
    cases hrun
  obtain ⟨u, rfl⟩ : ∃ u, upper = u + sizeDbt kind key data := Nat.exists_eq_add_of_le' (by omega)
  have hdown : u + sizeDbt kind key data + indxMod - sizeDbt kind key data = u + indxMod := by omega
  rw [if_neg hfull, hdown, Nat.add_mod_right, Nat.mod_eq_of_lt (by omega)] at hrun
  obtain rfl := Option.some.inj hrun
  have hrecord := length_record_le kind key data flags
  have hsize : size kind (store mem u (record kind key data flags)) u = sizeDbt kind key data :=
    size_store (by simp only [indxMod, u32Mod] at *; omega)
  have hpos := size_pos kind (store mem u (record kind key data flags)) u
  have hsame : ∀ j, u + sizeDbt kind key data ≤ j →
      store mem u (record kind key data flags) j = mem j := fun j hj => by
    rw [store, if_neg (by omega), List.getD_eq_getElem?_getD, List.getElem?_eq_none (by omega),
      Option.getD_none]
  have hslots : ∀ x, x ∈ L ++ u :: R ↔ x = u ∨ x ∈ L ++ R := fun x => by
    simp only [List.mem_append, List.mem_cons]
    tauto
  have hnew := @slice_store _ mem u (record kind key data flags)
  simp only [List.take_left, List.drop_left]
  generalize store mem u (record kind key data flags) = mem' at hsize hpos hsame hnew
  have hold : ∀ q ∈ L ++ R, u + sizeDbt kind key data ≤ q ∧
      size kind mem' q = size kind mem q ∧
      slice mem' q (size kind mem' q) = slice mem q (size kind mem q) := fun q hq => by
    have hq := (hpage.range hq).1
    dsimp only at hq
    have hbytes : ∀ j < size kind mem q, mem' (q + j) = mem (q + j) := fun j _ =>
      hsame _ (by omega)
    exact ⟨hq, size_congr hbytes, slice_size_congr hbytes⟩
  refine ⟨⟨?_, ?_, ?_, ?_, ?_, fun a => ?_, ?_⟩,
    slice mem' (u + (record kind key data flags).length)
      (sizeDbt kind key data - (record kind key data flags).length), ?_⟩
  · simp only [List.length_append, List.length_cons, indxSize] at hlower ⊢
    omega
  · dsimp only [indxSize] at hfull ⊢
    omega
  · dsimp only
    omega
  · dsimp only
    omega
  · refine (List.nodup_middle).2 (List.nodup_cons.2 ⟨fun hu => ?_, hpage.nodup⟩)
    have := (hold u hu).1
    omega
  · -- the new item takes the bytes before `upper`
    simp only [hslots, or_and_right, exists_or, exists_eq_left, hsize]
    have hcovers := hpage.covers a
    dsimp only at hcovers
    have hsizes : (∃ q, q ∈ L ++ R ∧ q ≤ a ∧ a < q + size kind mem' q) ↔
        ∃ q ∈ L ++ R, q ≤ a ∧ a < q + size kind mem q :=
      exists_congr fun q => and_congr_right fun hq => by rw [(hold q hq).2.1]
    rw [hsizes, ← hcovers]
    omega
  · intro x hx y hy hxy
    dsimp only at hx hy ⊢
    rcases (hslots x).1 hx with rfl | hx'
    · rcases (hslots y).1 hy with rfl | hy'
      · omega
      · rw [hsize]
        exact (hold y hy').1
    · rw [(hold x hx').2.1]
      rcases (hslots y).1 hy with rfl | hy'
      · have := (hold x hx').1
        omega
      · exact hpage.apart x hx' y hy' hxy
  · have hpad := @slice_append _ mem' u (record kind key data flags).length
      (sizeDbt kind key data - (record kind key data flags).length)
    rw [Nat.add_sub_cancel' hrecord, hnew] at hpad
    rw [items, items]
    dsimp only
    rw [List.map_append, List.map_append, List.map_cons, hsize, hpad,
      List.map_congr_left fun q hq => (hold q (by simp [hq])).2.2,
      List.map_congr_left fun q hq => (hold q (by simp [hq])).2.2]
    have hlength := @List.length_map _ _ L fun q => slice mem q (size kind mem q)
    conv_rhs => rw [← hlength]
    rw [insertIdx_length]

/-- On a packed page a deletion and an insertion that fits leave a packed page with the items that
remain or are there then, unless the only item of a page of 64K is deleted. -/
theorem leaf_layout (hpage : Packed kind psize h) (hpsize : psize ≤ indxMod) :
    (∀ index < h.linp.length, Packed kind psize (dleaf kind h index) ∧
        items kind (dleaf kind h index) = (items kind h).eraseIdx index ↔
      ¬ (psize = indxMod ∧ h.linp.length = 1)) ∧
    ∀ index ≤ h.linp.length, ∀ key data flags h', insert kind h index key data flags = some h' →
      Packed kind psize h' ∧ ∃ pad,
        items kind h' = (items kind h).insertIdx index (record kind key data flags ++ pad) :=
  ⟨fun _ hindex => dleaf_iff hpage hpsize hindex, fun _ hindex _ _ _ _ hrun =>
    insert_packed hpage hindex hrun⟩

/-- A page of `psize` bytes with one item of recno, a record of no bytes, at its end. -/
def oneItem (psize : Nat) : LeafPage := ⟨btdataoff + indxSize, psize - 8, [psize - 8], fun _ => 0⟩

theorem oneItem_packed (hmin : 512 ≤ psize) (hpsize : psize ≤ indxMod) :
    Packed .rleaf psize (oneItem psize) := by
  have hsize : ∀ p, size .rleaf (fun _ => 0) p = 8 := fun p => by
    simp [size, word, slice, ofLe32, nrleafdbt, lalign, List.range_succ]
  simp only [indxMod] at hpsize
  refine ⟨rfl, ?_, ?_, ?_, by simp [oneItem], fun a => ?_, ?_⟩
  · simp only [oneItem, btdataoff, indxSize]
    omega
  · exact Nat.sub_le psize 8
  · simp only [oneItem, indxMod]
    omega
  · simp only [oneItem, List.mem_singleton, exists_eq_left, hsize]
    omega
  · simp [oneItem]

theorem leaf_layout_one :
    Packed .rleaf 512 (dleaf .rleaf (oneItem 512) 0) ∧
      items .rleaf (dleaf .rleaf (oneItem 512) 0) = (items .rleaf (oneItem 512)).eraseIdx 0 :=
  ((leaf_layout (oneItem_packed (by decide) (by decide)) (by decide)).1 0 (by decide)).2 (by decide)

/-- With the only item of a page of 64K deleted, `upper` is 0. -/
theorem leaf_layout_full :
    Packed .rleaf indxMod (oneItem indxMod) ∧
      ¬ Packed .rleaf indxMod (dleaf .rleaf (oneItem indxMod) 0) :=
  ⟨oneItem_packed (by decide) (by decide), fun h => absurd h.lower_le (by decide)⟩

end Bsdi.Db.Leaf
