import Bsdi.Db.Btree.Chains
import Bsdi.Lib.Fences

/-!
# Well-formed trees

The invariant of a tree on the pages of a pool.
-/

namespace Bsdi.Db

open Bsdi.Lib

/-- What the page and overflow sizes of a tree satisfy: two pairs fit on a page. -/
structure Sound (c : Config) : Prop where
  psize_le : c.psize ≤ indxMod
  room : btdataoff + 2 * (c.ovflsize + indxSize + nbleafdbt 0 0) ≤ c.psize
  ovflsize : 2 * novflsize ≤ c.ovflsize
  recno : c.recno = false
  maxpages : c.maxpages ≤ u32Mod

theorem Sound.plen_pos {c : Config} (h : Sound c) : 0 < Btree.plen c := by
  have := h.room
  have : nbleafdbt 0 0 = 12 := rfl
  simp only [Btree.plen]
  omega

namespace Btree

/-- The bytes an item refers to: those on the chain if `big` is set. -/
def full (cs : List Chain) (big : Bool) (raw : Dbt) : Dbt :=
  if big then ((cs.find? fun ch => ch.pgnos.head? == some (ofLe32 raw)).map Chain.bytes).getD []
  else raw

def itemKey (cs : List Chain) : Item → Dbt
  | .bi item => full cs item.bigkey item.key
  | .bl item => full cs item.bigkey item.key
  | .ri _ => []
  | .rl _ => []

def slotKey (cs : List Chain) (slot : Option Item) : Option Dbt := slot.map (itemKey cs)

def slotChild (slot : Option Item) : Option Pgno := slot.bind Item.child

def nodeKeys (cs : List Chain) (n : Node) : List Dbt := n.linp.filterMap (slotKey cs)

def recordPair (cs : List Chain) (bl : BLeaf) : Dbt × Dbt :=
  (full cs bl.bigkey bl.key, full cs bl.bigdata bl.data)

def slotPair (cs : List Chain) : Option Item → Option (Dbt × Dbt)
  | some (.bl bl) => some (recordPair cs bl)
  | _ => none

def contents (cs : List Chain) (leaves : List Node) : List (Dbt × Dbt) :=
  leaves.flatMap fun n => n.linp.filterMap (slotPair cs)

def HasRef (cs : List Chain) (preserve : Bool → Prop) (raw : Dbt) : Prop :=
  ∃ ch ∈ cs, ch.pgnos.head? = some (ofLe32 raw) ∧ ofLe32 (raw.drop 4) = ch.bytes.length ∧
    preserve ch.preserve

def LeafSlot (c : Config) (cs : List Chain) (slot : Option Item) : Prop :=
  ∃ bl, slot = some (.bl bl) ∧ bl.key.length + bl.data.length ≤ c.ovflsize ∧
    (bl.bigkey = true → HasRef cs (fun _ => True) bl.key) ∧
    (bl.bigdata = true → HasRef cs (· = false) bl.data)

def InternalSlot (c : Config) (cs : List Chain) (slot : Option Item) : Prop :=
  ∃ bi, slot = some (.bi bi) ∧ bi.key.length ≤ c.ovflsize ∧
    (bi.bigkey = true → HasRef cs (· = true) bi.key)

def slotBytes (slot : Option Item) : Nat := slot.elim 0 Item.nbytes

def Fits (c : Config) (linp : List (Option Item)) : Prop :=
  btdataoff + indxSize * linp.length + (linp.map slotBytes).sum ≤ c.psize

def slotRefs : Option Item → List Pgno
  | some (.bl bl) =>
    (if bl.bigkey then [ofLe32 bl.key] else []) ++ if bl.bigdata then [ofLe32 bl.data] else []
  | _ => []

def leafRefs (leaves : List Node) : List Pgno := leaves.flatMap fun n => n.linp.flatMap slotRefs

structure LeafNode (c : Config) (cs : List Chain) (n : Node) : Prop where
  type : n.type = .bleaf
  slots : ∀ s ∈ n.linp, LeafSlot c cs s
  fits : Fits c n.linp

structure InternalNode (c : Config) (cs : List Chain) (n : Node) : Prop where
  type : n.type = .binternal
  slots : ∀ s ∈ n.linp, InternalSlot c cs s
  fits : Fits c n.linp
  ne : n.linp ≠ []

/-- The shape of a tree with the given leaf pages and the levels of internal pages over
them. -/
structure Shape (c : Config) (cs : List Chain) (leaves : List Node) (ups : List (List Node)) :
    Prop where
  tower : Tower Node.linp slotChild Node.pgno pRoot (leaves :: ups)
  leaf : ∀ n ∈ leaves, LeafNode c cs n
  internal : ∀ up ∈ ups, ∀ n ∈ up, InternalNode c cs n
  refs : (leafRefs leaves).Nodup

def Filled (leaves : List Node) (ups : List (List Node)) : Prop :=
  ups ≠ [] → ∀ n ∈ leaves, n.linp ≠ []

abbrev leafFences (cs : List Chain) (ups : List (List Node)) : List (Option Dbt) :=
  fences Node.linp (slotKey cs) ups

/-- The order of a tree. The comparison function is only known to be `ord` on the keys
in `dom`. -/
structure Ordered (ord : Dbt → Dbt → Int) (dom : Dbt → Prop) (cs : List Chain)
    (leaves : List Node) (ups : List (List Node)) : Prop where
  fenced : Fenced ord (leafFences cs ups) (leaves.map (nodeKeys cs))
  dom : ∀ level ∈ leaves :: ups, ∀ n ∈ level, ∀ s ∈ n.linp, ∀ k ∈ slotKey cs s, dom k

section

variable {c : Config} {t : Btree} {fs : List Pgno} {cs : List Chain} {levels : List (List Node)}
variable {raw : Dbt} {preserve : Bool → Prop}

@[simp] theorem full_false : full cs false raw = raw := rfl

theorem full_of_mem {size : Nat} {ps : List Page} {free : Pgno} {ch : Chain}
    (h : Rep size ps free ⟨levels, cs, fs⟩) (hch : ch ∈ cs)
    (hhead : ch.pgnos.head? = some (ofLe32 raw)) : full cs true raw = ch.bytes := by
  obtain ⟨C₁, C₂, rfl⟩ := List.append_of_mem hch
  have hnodup := List.nodup_append.1 ((pgnos_chain _ _ _ _ _).nodup_iff.1 h.nodup)
  have hother : ∀ ch' ∈ C₁, ¬ ch'.pgnos.head? = some (ofLe32 raw) := by
    intro ch' hch' hhead'
    refine hnodup.2.2 _ (List.mem_of_mem_head? hhead) (ofLe32 raw) ?_ rfl
    simp only [View.pgnos, List.mem_append, List.mem_flatMap]
    exact .inr (.inl ⟨ch', .inl hch', List.mem_of_mem_head? hhead'⟩)
  have hnone : C₁.find? (fun ch => ch.pgnos.head? == some (ofLe32 raw)) = none :=
    List.find?_eq_none.2 fun ch' hch' => by simpa using hother ch' hch'
  simp [full, List.find?_append, hnone, hhead]

theorem ovflGet_ref (hsize : 0 < plen c) (h : Rep (plen c) t.pages t.free ⟨levels, cs, fs⟩)
    (href : HasRef cs preserve raw) : ovflGet c t raw = .ok (full cs true raw) := by
  obtain ⟨ch, hch, hhead, hlen, -⟩ := href
  rw [full_of_mem h hch hhead]
  exact ovflGet_spec hsize (h.chains ch hch).1 hhead hlen

theorem fullKey_spec {big : Bool} (hsize : 0 < plen c)
    (h : Rep (plen c) t.pages t.free ⟨levels, cs, fs⟩)
    (href : big = true → HasRef cs preserve raw) : fullKey c t raw big = .ok (full cs big raw) := by
  cases big with
  | false => rfl
  | true => simpa [fullKey] using ovflGet_ref hsize h (href rfl)

end

end Btree

end Bsdi.Db
