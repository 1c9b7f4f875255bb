import Bsdi.Telnet.Receive
import Bsdi.Lib.Memory

/-!
# Clearing the output to the network

`nextitem` and `netclear` of `utility.c`. The output buffer is an array; the pointers into it are
offsets. `nextitem` also says how far it has read, and is `none` where no end of a suboption is
found before the end of the array.
-/

namespace Bsdi.Telnet

open Lib

/-- The `for` loop of `nextitem`, for at most `size` rounds. -/
def lookSE (mem : Nat → UInt8) : Nat → Nat → Option Nat
  | 0, _ => none
  | size + 1, look =>
    if mem look = IAC then
      if mem (look + 1) = SE then some (look + 2) else lookSE mem size (look + 2)
    else lookSE mem size (look + 1)

/-- `nextitem(current)`, and the first offset it has not read. -/
def nextitem (size : Nat) (mem : Nat → UInt8) (current : Nat) : Option (Nat × Nat) :=
  if mem current ≠ IAC then some (current + 1, current + 1)
  else
    let c := mem (current + 1)
    if c = Cmd.doopt.code ∨ c = Cmd.dont.code ∨ c = Cmd.will.code ∨ c = Cmd.wont.code then
      some (current + 3, current + 2)
    else if c = SB then (lookSE mem size (current + 2)).map fun look => (look, look)
    else some (current + 2, current + 2)

def wewant (mem : Nat → UInt8) (nfrontp p : Nat) : Bool :=
  p < nfrontp && mem p = IAC && mem (p + 1) ≠ EC && mem (p + 1) ≠ EL

/-- The first loop of `netclear`: the last item that starts at or before `nbackp`. Like the loops
below it carries how far `nextitem` has read. -/
def boundary (size : Nat) (mem : Nat → UInt8) (nbackp : Nat) : Nat → Nat → Nat → Option (Nat × Nat)
  | 0, _, _ => none
  | fuel + 1, thisitem, seen => do
    let (next, seen') ← nextitem size mem thisitem
    if next ≤ nbackp then boundary size mem nbackp fuel next (max seen seen')
    else some (thisitem, max seen seen')

def group (size : Nat) (mem : Nat → UInt8) (nfrontp : Nat) : Nat → Nat → Nat → Option (Nat × Nat)
  | 0, _, _ => none
  | fuel + 1, next, seen => do
    let (next, seen') ← nextitem size mem next
    if wewant mem nfrontp next ∧ next < nfrontp then
      group size mem nfrontp fuel next (max seen seen')
    else some (next, max seen seen')

/-- The second loop: the groups are copied to `good`. -/
def compact (size nfrontp : Nat) :
    Nat → (Nat → UInt8) → Nat → Nat → Nat → Option ((Nat → UInt8) × Nat × Nat)
  | 0, _, _, _, _ => none
  | fuel + 1, mem, good, thisitem, seen =>
    if thisitem < nfrontp then
      if wewant mem nfrontp thisitem then do
        let (next, seen) ← group size mem nfrontp (size + 1) thisitem seen
        let length := next - thisitem
        compact size nfrontp fuel (store mem good (slice mem thisitem length)) (good + length) next
          seen
      else do
        let (next, seen') ← nextitem size mem thisitem
        compact size nfrontp fuel mem good next (max seen seen')
    else some (mem, good, seen)

/-- The output buffer: `neturg` is null or the offset of the urgent byte. -/
structure Obuf where
  netobuf : Nat → UInt8
  nbackp : Nat
  nfrontp : Nat
  neturg : Option Nat

/-- `netclear()` on a buffer of `size` bytes, and how far `nextitem` has read in it. -/
def netclear (size : Nat) (o : Obuf) : Option (Obuf × Nat) := do
  let (thisitem, seen) ← boundary size o.netobuf o.nbackp (size + 1) 0 0
  let (mem, good, seen) ← compact size o.nfrontp (size + 1) o.netobuf 0 thisitem seen
  some (⟨mem, 0, good, none⟩, seen)

/-- `[nbackp, nfrontp)`. -/
def Obuf.contents (o : Obuf) : List UInt8 := slice o.netobuf o.nbackp (o.nfrontp - o.nbackp)

/-! ### Items -/

/-- A byte inside a suboption, or `IAC` with a byte that does not end it. -/
inductive Piece
  | byte (b : UInt8) (h : b ≠ IAC)
  | pair (b : UInt8) (h : b ≠ SE)
  deriving DecidableEq

def Piece.bytes : Piece → List UInt8
  | .byte b _ => [b]
  | .pair b _ => [IAC, b]

def TwoBytes (c : UInt8) : Prop := c ≠ IAC ∧ c ≠ SB ∧ ∀ cmd : Cmd, c ≠ cmd.code

inductive Item
  | data (b : UInt8) (h : b ≠ IAC)
  | escape
  | command (c : UInt8) (h : TwoBytes c)
  | option (cmd : Cmd) (opt : UInt8)
  | suboption (body : List Piece)

def Item.bytes : Item → List UInt8
  | .data b _ => [b]
  | .escape => [IAC, IAC]
  | .command c _ => [IAC, c]
  | .option cmd opt => [IAC, cmd.code, opt]
  | .suboption body => IAC :: SB :: (body.flatMap Piece.bytes ++ [IAC, SE])

/-- The items that `netclear` keeps. -/
def Item.wanted : Item → Bool
  | .data _ _ => false
  | .command c _ => c ≠ EC && c ≠ EL
  | _ => true

def Item.isEscape : Item → Bool
  | .escape => true
  | _ => false

def bytes (items : List Item) : List UInt8 := items.flatMap Item.bytes

@[simp] theorem bytes_nil : bytes [] = [] := rfl

@[simp] theorem bytes_cons (i : Item) (items : List Item) :
    bytes (i :: items) = i.bytes ++ bytes items := rfl

@[simp] theorem bytes_append (items items' : List Item) :
    bytes (items ++ items') = bytes items ++ bytes items' := List.flatMap_append

theorem Item.length_bytes_pos (i : Item) : 0 < i.bytes.length := by
  cases i <;> simp [Item.bytes]

theorem Piece.length_bytes_pos (p : Piece) : 0 < p.bytes.length := by
  cases p <;> simp [Piece.bytes]

theorem length_le_flatMap {α : Type} {f : α → List UInt8} (hf : ∀ x, 0 < (f x).length)
    (xs : List α) : xs.length ≤ (xs.flatMap f).length := by
  induction xs with
  | nil => simp
  | cons x xs ih =>
    have := hf x
    simp only [List.length_cons, List.flatMap_cons, List.length_append]
    omega

section Reading

variable {mem : Nat → UInt8} {a size : Nat} {l l' : List UInt8}

/-- `l` stands at offset `a`. -/
def Stands (mem : Nat → UInt8) (a : Nat) (l : List UInt8) : Prop := slice mem a l.length = l

theorem stands_cons {b : UInt8} : Stands mem a (b :: l) ↔ mem a = b ∧ Stands mem (a + 1) l := by
  simp [Stands, slice_cons]

theorem stands_append :
    Stands mem a (l ++ l') ↔ Stands mem a l ∧ Stands mem (a + l.length) l' := by
  simp only [Stands, List.length_append, slice_append]
  exact ⟨fun h => List.append_inj h (by simp), fun h => by rw [h.1, h.2]⟩

theorem lookSE_pieces (body : List Piece) (h : Stands mem a (body.flatMap Piece.bytes ++ [IAC, SE]))
    (hsize : body.length < size) :
    lookSE mem size a = some (a + (body.flatMap Piece.bytes ++ [IAC, SE]).length) := by
  induction body generalizing a size with
  | nil =>
    obtain ⟨n, rfl⟩ := Nat.exists_eq_succ_of_ne_zero (Nat.ne_of_gt hsize)
    obtain ⟨hiac, hse, -⟩ := by simpa [stands_cons] using h
    simp [lookSE, hiac, hse]
  | cons p body ih =>
    obtain ⟨n, rfl⟩ := Nat.exists_eq_succ_of_ne_zero (Nat.ne_zero_of_lt hsize)
    have hn : body.length < n := by simpa using hsize
    cases p with
    | byte b hb =>
      obtain ⟨hmem, hrest⟩ := by
        simpa only [List.flatMap_cons, Piece.bytes, List.singleton_append, List.cons_append,
          stands_cons] using h
      rw [lookSE, if_neg (hmem ▸ hb), ih hrest hn]
      simp [Piece.bytes]
      omega
    | pair b hb =>
      obtain ⟨hiac, hmem, hrest⟩ := by
        simpa only [List.flatMap_cons, Piece.bytes, List.cons_append, List.nil_append,
          stands_cons] using h
      rw [lookSE, if_pos hiac, if_neg (hmem ▸ hb), ih hrest hn]
      simp [Piece.bytes]
      omega

theorem nextitem_item (size : Nat) {i : Item} (h : Stands mem a i.bytes) (hsize : i.bytes.length ≤ size) :
    ∃ seen, nextitem size mem a = some (a + i.bytes.length, seen) ∧ seen ≤ a + i.bytes.length := by
  cases i with
  | data b hb =>
    obtain ⟨hmem, -⟩ := stands_cons.1 h
    exact ⟨a + 1, by simp [nextitem, Item.bytes, hmem, hb], by simp [Item.bytes]⟩
  | escape =>
    obtain ⟨hiac, hmem, -⟩ := by simpa only [Item.bytes, stands_cons] using h
    refine ⟨a + 2, ?_, by simp [Item.bytes]⟩
    simp [nextitem, Item.bytes, hiac, hmem, IAC, SB, Cmd.code]
  | command c hc =>
    obtain ⟨hiac, hmem, -⟩ := by simpa only [Item.bytes, stands_cons] using h
    refine ⟨a + 2, ?_, by simp [Item.bytes]⟩
    simp [nextitem, Item.bytes, hiac, hmem, hc.2.1, hc.2.2]
  | option cmd opt =>
    obtain ⟨hiac, hmem, -⟩ := by simpa only [Item.bytes, stands_cons] using h
    refine ⟨a + 2, ?_, by simp [Item.bytes]⟩
    cases cmd <;> simp [nextitem, Item.bytes, hiac, hmem, Cmd.code]
  | suboption body =>
    obtain ⟨hiac, hmem, hbody⟩ := by simpa only [Item.bytes, stands_cons] using h
    have hlen : body.length < size := by
      have := length_le_flatMap Piece.length_bytes_pos body
      simp only [Item.bytes, List.length_cons, List.length_append] at hsize
      omega
    refine ⟨_, ?_, Nat.le_refl _⟩
    simp [nextitem, hiac, hmem, lookSE_pieces body hbody hlen, Item.bytes, SB, Cmd.code]
    omega

theorem wewant_item {i : Item} {nfrontp : Nat} (h : Stands mem a i.bytes) (ha : a < nfrontp) :
    wewant mem nfrontp a = i.wanted := by
  cases i with
  | data b hb =>
    obtain ⟨hmem, -⟩ := stands_cons.1 h
    simp [wewant, Item.wanted, hmem, hb]
  | escape =>
    obtain ⟨hiac, hmem, -⟩ := by simpa only [Item.bytes, stands_cons] using h
    simp [wewant, Item.wanted, ha, hiac, hmem, IAC, EC, EL]
  | command c hc =>
    obtain ⟨hiac, hmem, -⟩ := by simpa only [Item.bytes, stands_cons] using h
    simp [wewant, Item.wanted, ha, hiac, hmem]
  | option cmd opt =>
    obtain ⟨hiac, hmem, -⟩ := by simpa only [Item.bytes, stands_cons] using h
    cases cmd <;> simp [wewant, Item.wanted, ha, hiac, hmem, EC, EL, Cmd.code]
  | suboption body =>
    obtain ⟨hiac, hmem, hbody⟩ := by simpa only [Item.bytes, stands_cons] using h
    simp [wewant, Item.wanted, ha, hiac, hmem, SB, EC, EL]

end Reading

/-! ### The loops -/

section Loops

variable {mem : Nat → UInt8} {a seen size nbackp nfrontp : Nat}

theorem boundary_items (items : List Item) (fuel seen : Nat) (h : Stands mem a (bytes items))
    (hsize : (bytes items).length ≤ size) (hfuel : items.length ≤ fuel) (ha : a ≤ nbackp)
    (hlt : nbackp < a + (bytes items).length) :
    ∃ done i rest seen', items = done ++ i :: rest ∧
      a + (bytes done).length ≤ nbackp ∧ nbackp < a + (bytes done).length + i.bytes.length ∧
      boundary size mem nbackp fuel a seen = some (a + (bytes done).length, seen') ∧
      seen' ≤ max seen (a + (bytes items).length) := by
  induction items generalizing a seen fuel with
  | nil => simp at hlt; omega
  | cons i items ih =>
    obtain ⟨n, rfl⟩ := Nat.exists_eq_succ_of_ne_zero (Nat.ne_zero_of_lt hfuel)
    simp only [bytes_cons, List.length_append] at hsize hlt ⊢
    obtain ⟨hi, hrest⟩ := stands_append.1 h
    obtain ⟨e, hnext, he⟩ := nextitem_item size hi (by omega)
    by_cases hle : a + i.bytes.length ≤ nbackp
    · obtain ⟨done, j, rest, seen', rfl, hfrom, hto, hrun, hseen⟩ :=
        ih n (max seen e) hrest (by omega) (by simpa using hfuel) hle (by omega)
      refine ⟨i :: done, j, rest, seen', rfl, ?_, ?_, ?_, ?_⟩
      · simp; omega
      · simp; omega
      · simp [boundary, hnext, hle, hrun]; omega
      · omega
    · exact ⟨[], i, items, max seen e, rfl, by simpa using ha, by simpa using hle,
        by simp [boundary, hnext, hle], by omega⟩

theorem group_items (i : Item) (items : List Item) (fuel seen : Nat)
    (h : Stands mem a (bytes (i :: items))) (hsize : (bytes (i :: items)).length ≤ size)
    (hfuel : items.length < fuel) (hend : nfrontp = a + (bytes (i :: items)).length) :
    ∃ run rest seen', items = run ++ rest ∧ (∀ j ∈ run, j.wanted = true) ∧
      group size mem nfrontp fuel a seen = some (a + (bytes (i :: run)).length, seen') ∧
      seen' ≤ max seen nfrontp := by
  induction items generalizing a i seen fuel with
  | nil =>
    obtain ⟨n, rfl⟩ := Nat.exists_eq_succ_of_ne_zero (Nat.ne_zero_of_lt hfuel)
    simp only [bytes_cons, bytes_nil, List.append_nil] at h hsize hend
    obtain ⟨e, hnext, he⟩ := nextitem_item size h hsize
    exact ⟨[], [], max seen e, rfl, by simp, by simp [group, hnext, hend], by omega⟩
  | cons j items ih =>
    obtain ⟨n, rfl⟩ := Nat.exists_eq_succ_of_ne_zero (Nat.ne_zero_of_lt hfuel)
    rw [bytes_cons] at h hsize hend
    simp only [List.length_append] at hsize hend
    obtain ⟨hi, hrest⟩ := stands_append.1 h
    obtain ⟨e, hnext, he⟩ := nextitem_item size hi (by omega)
    have hpos := j.length_bytes_pos
    have hlt : a + i.bytes.length < nfrontp := by
      rw [bytes_cons, List.length_append] at hend
      omega
    have hj := wewant_item (stands_append.1 hrest).1 hlt
    cases hw : j.wanted with
    | false =>
      refine ⟨[], j :: items, max seen e, rfl, by simp, ?_, by omega⟩
      simp [group, hnext, hj, hw]
    | true =>
      obtain ⟨run, rest, seen', rfl, hrun, hgroup, hseen⟩ :=
        ih j n (max seen e) hrest (by omega) (by simpa using hfuel) (by omega)
      refine ⟨j :: run, rest, seen', rfl, by simpa [hw] using hrun, ?_, by omega⟩
      simp [group, hnext, hj, hw, hlt, hgroup]
      omega

theorem Stands.store {l : List UInt8} (h : Stands mem a l) (good : Nat) (l' : List UInt8)
    (hle : good + l'.length ≤ a) : Stands (store mem good l') a l :=
  (slice_congr fun k hk _ => by
    have hnot : ¬ k < good := by omega
    have hout : l'.length ≤ k - good := by omega
    simp [Lib.store, hnot, hout]).trans h

theorem compact_items (size : Nat) (items : List Item) (fuel good seen : Nat)
    (h : Stands mem a (bytes items)) (hsize : (bytes items).length ≤ size) (hfuel : items.length < fuel) (hgood : good ≤ a)
    (hend : nfrontp = a + (bytes items).length) :
    ∃ mem' seen', compact size nfrontp fuel mem good a seen =
        some (mem', good + (bytes (items.filter Item.wanted)).length, seen') ∧
      slice mem' 0 (good + (bytes (items.filter Item.wanted)).length) =
        slice mem 0 good ++ bytes (items.filter Item.wanted) ∧
      seen' ≤ max seen nfrontp := by
  induction hn : items.length using Nat.strongRecOn generalizing items mem a seen fuel good with
  | _ n ih =>
    subst hn
    obtain ⟨k, rfl⟩ := Nat.exists_eq_succ_of_ne_zero (Nat.ne_zero_of_lt hfuel)
    cases items with
    | nil =>
      have hnot : ¬ a < nfrontp := by simp [hend]
      exact ⟨mem, seen, by simp [compact, hnot], by simp, by omega⟩
    | cons i items =>
      have hpos := i.length_bytes_pos
      have hlt : a < nfrontp := by
        rw [hend, bytes_cons, List.length_append]
        omega
      have hwant := wewant_item (stands_append.1 h).1 hlt
      cases hw : i.wanted with
      | false =>
        simp only [bytes_cons, List.length_append] at h hsize hend
        obtain ⟨hi, hrest⟩ := stands_append.1 h
        obtain ⟨e, hnext, he⟩ := nextitem_item size hi (by omega)
        obtain ⟨mem', seen', hrun, hmem, hseen⟩ := ih items.length (by simp) items k good
          (max seen e) hrest (by omega) (by simpa using hfuel) (by omega) (by omega) rfl
        refine ⟨mem', seen', ?_, ?_, by omega⟩
        · simp [compact, hlt, hwant, hw, hnext, hrun]
        · simpa [hw] using hmem
      | true =>
        have hfuel' : items.length < size + 1 := by
          have := length_le_flatMap Item.length_bytes_pos items
          have hbytes : (bytes (i :: items)).length =
            i.bytes.length + (items.flatMap Item.bytes).length := by simp [bytes]
          omega
        obtain ⟨run, rest, e, rfl, hrun, hgroup, he⟩ :=
          group_items i items _ seen h hsize hfuel' hend
        rw [← List.cons_append, bytes_append] at h hsize hend
        rw [List.length_append] at hsize hend
        obtain ⟨hfirst, hrest⟩ := stands_append.1 h
        have hcopied : slice mem a (bytes (i :: run)).length = bytes (i :: run) := hfirst
        have hkeep : (i :: run).filter Item.wanted = i :: run :=
          List.filter_eq_self.2 (List.forall_mem_cons.2 ⟨hw, hrun⟩)
        obtain ⟨mem', seen', hcompact, hmem, hseen⟩ := ih rest.length (by grind) rest k
          (good + (bytes (i :: run)).length) e (hrest.store good (bytes (i :: run)) (by omega))
          (by omega) (by simp at hfuel; omega) (by omega) (by omega) rfl
        rw [← List.cons_append, List.filter_append, hkeep, bytes_append, List.length_append]
        refine ⟨mem', seen', ?_, ?_, by omega⟩
        · simp only [compact, hlt, if_true, hwant, hw, hgroup, Option.bind_eq_bind,
            Option.bind_some, Nat.add_sub_cancel_left, hcopied, hcompact, Nat.add_assoc]
        · rw [← Nat.add_assoc, hmem, slice_store_append, List.append_assoc]

end Loops

/-! ### What is sent -/

/-- An output buffer of whole items that has been sent up to `nbackp`, and what the array holds
behind it. -/
structure Backlog where
  items : List Item
  stale : List UInt8
  nbackp : Nat
  le : nbackp ≤ (bytes items).length

variable (b : Backlog)

def Backlog.nfrontp : Nat := (bytes b.items).length

def Backlog.array : List UInt8 := bytes b.items ++ b.stale

/-- The pointers and the array before `netclear`. -/
def Backlog.obuf (neturg : Option Nat) : Obuf :=
  ⟨fun p => b.array.getD p 0, b.nbackp, b.nfrontp, neturg⟩

/-- The items that start before offset `n`: the last of them may be cut there. -/
def begun : List Item → Nat → List Item
  | [], _ => []
  | i :: items, n => if n = 0 then [] else i :: begun items (n - i.bytes.length)

/-- The items that start at offset `n` or behind. -/
def waiting : List Item → Nat → List Item
  | [], _ => []
  | i :: items, n => if n = 0 then i :: items else waiting items (n - i.bytes.length)

/-- The items that are to stay: `escapes` says whether an `IAC IAC` counts as a command. -/
def Item.stays (escapes : Bool) (i : Item) : Bool := i.wanted && (escapes || !i.isEscape)

/-- After `netclear` the peer gets the items that have been begun and then the commands that were
waiting, each once, and `nextitem` has read nothing at or behind `nfrontp`. -/
def Backlog.Cleared (escapes : Bool) (neturg : Option Nat) : Prop :=
  ∃ o seen, netclear b.array.length (b.obuf neturg) = some (o, seen) ∧
    (bytes b.items).take b.nbackp ++ o.contents =
      bytes (begun b.items b.nbackp ++ (waiting b.items b.nbackp).filter (Item.stays escapes)) ∧
    seen ≤ b.nfrontp

def Backlog.Uncut : Prop := (bytes (begun b.items b.nbackp)).length = b.nbackp

@[simp] theorem begun_zero (items : List Item) : begun items 0 = [] := by
  cases items <;> simp [begun]

@[simp] theorem waiting_zero (items : List Item) : waiting items 0 = items := by
  cases items <;> simp [waiting]

theorem begun_append (done : List Item) (i : Item) (rest : List Item) {n : Nat}
    (hfrom : (bytes done).length ≤ n) (hto : n < (bytes done).length + i.bytes.length) :
    begun (done ++ i :: rest) n = (if n = (bytes done).length then done else done ++ [i]) ∧
      waiting (done ++ i :: rest) n = if n = (bytes done).length then i :: rest else rest := by
  induction done generalizing n with
  | nil =>
    by_cases hn : n = 0
    · simp [hn]
    · have hsub : n - i.bytes.length = 0 := by simp at hto; omega
      simp [begun, waiting, hn, hsub]
  | cons j done ih =>
    simp only [bytes_cons, List.length_append] at hfrom hto
    have hpos := j.length_bytes_pos
    have hn : n ≠ 0 := by omega
    obtain ⟨hbegun, hwaiting⟩ := ih (n := n - j.bytes.length) (by omega) (by omega)
    have hiff : n - j.bytes.length = (bytes done).length ↔
        n = j.bytes.length + (bytes done).length := by
      omega
    simp only [List.cons_append, begun, waiting, if_neg hn, hbegun, hwaiting, hiff, bytes_cons,
      List.length_append]
    split <;> simp

theorem length_of_unwanted {i : Item} (h : i.wanted = false) : i.bytes.length ≤ 2 := by
  cases i with
  | data b hb => simp [Item.bytes]
  | command c hc => simp [Item.bytes]
  | _ => simp [Item.wanted] at h

theorem length_wanted (escapes : Bool) (items : List Item) :
    (bytes (items.filter Item.wanted)).length =
      (bytes (items.filter (Item.stays escapes))).length +
        2 * if escapes then 0 else items.countP Item.isEscape := by
  cases escapes with
  | true => simp [show Item.stays true = Item.wanted by funext i; simp [Item.stays]]
  | false =>
    induction items with
    | nil => simp
    | cons i items ih =>
      simp only [Bool.false_eq_true, if_false, List.filter_cons, List.countP_cons] at ih ⊢
      cases i with
      | escape =>
        simp [Item.stays, Item.wanted, Item.isEscape, Item.bytes, ih]
        omega
      | command c hc =>
        cases hw : (Item.command c hc).wanted <;>
          simp [Item.stays, Item.isEscape, hw, ih, Nat.add_assoc]
      | _ => simp [Item.stays, Item.wanted, Item.isEscape, ih, Nat.add_assoc]

theorem stays_eq_iff (escapes : Bool) (items : List Item) :
    bytes (items.filter Item.wanted) = bytes (items.filter (Item.stays escapes)) ↔
      (escapes = false → ∀ i ∈ items, i.isEscape = false) := by
  constructor
  · rintro h rfl
    have hlen := length_wanted false items
    rw [h] at hlen
    have hcount : items.countP Item.isEscape = 0 := by
      simp only [Bool.false_eq_true, if_false] at hlen
      omega
    simpa only [List.countP_eq_zero, Bool.not_eq_true] using hcount
  · intro h
    congr 1
    refine List.filter_congr fun i hi => ?_
    cases escapes with
    | false => simp [Item.stays, h rfl i hi]
    | true => simp [Item.stays]

theorem stands_array {stale : List UInt8} (l : List UInt8) :
    Stands (fun p => (l ++ stale).getD p 0) 0 l := by
  refine List.ext_getElem? fun k => ?_
  by_cases hk : k < l.length
  · rw [getElem?_slice hk, Nat.zero_add]
    simp [hk, List.getElem?_append_left hk]
  · rw [List.getElem?_eq_none (by simpa using hk), List.getElem?_eq_none (by simpa using hk)]

theorem netclear_contents (neturg : Option Nat) (h : b.nbackp < b.nfrontp) :
    ∃ done i rest o seen, b.items = done ++ i :: rest ∧
      (bytes done).length ≤ b.nbackp ∧ b.nbackp < (bytes done).length + i.bytes.length ∧
      netclear b.array.length (b.obuf neturg) = some (o, seen) ∧
      o.contents = bytes ((i :: rest).filter Item.wanted) ∧ seen ≤ b.nfrontp := by
  have hsize : (bytes b.items).length ≤ b.array.length := by simp [Backlog.array]
  have hlen := length_le_flatMap Item.length_bytes_pos b.items
  have hstands : Stands (b.obuf neturg).netobuf 0 (bytes b.items) := stands_array _
  obtain ⟨done, i, rest, seen, heq, hfrom, hto, hrun, hseen⟩ :=
    boundary_items b.items (b.array.length + 1) 0 hstands hsize
      (by unfold bytes at hsize; omega) (Nat.zero_le b.nbackp) (by rw [Nat.zero_add]; exact h)
  simp only [Nat.zero_add] at hfrom hto hrun hseen
  rw [heq, bytes_append] at hstands
  have htail := (stands_append.1 hstands).2
  have hsum : (bytes b.items).length = (bytes done).length + (bytes (i :: rest)).length := by
    rw [heq, bytes_append, List.length_append]
  have hcount : (i :: rest).length ≤ b.items.length := by simp [heq]
  have hfull : b.nfrontp = 0 + (bytes done).length + (bytes (i :: rest)).length := by
    rw [Nat.zero_add]
    exact hsum
  obtain ⟨mem, seen', hcompact, hmem, hseen'⟩ :=
    compact_items b.array.length (i :: rest) (b.array.length + 1) 0 seen htail (by omega)
      (by unfold bytes at hsize; omega) (Nat.zero_le _) hfull
  simp only [Nat.zero_add] at hcompact hmem
  refine ⟨done, i, rest, ⟨mem, 0, (bytes ((i :: rest).filter Item.wanted)).length, none⟩, seen',
    heq, hfrom, hto, ?_, ?_, ?_⟩
  · rw [netclear, show (b.obuf neturg).nbackp = b.nbackp from rfl, hrun, Option.bind_eq_bind,
      Option.bind_some, show (b.obuf neturg).nfrontp = b.nfrontp from rfl]
    dsimp only
    rw [hcompact]
    rfl
  · simpa [Obuf.contents] using hmem
  · unfold Backlog.nfrontp at hseen' ⊢
    omega

/-! ### The end of the buffer -/

section End

variable {mem : Nat → UInt8} {size nbackp nfrontp fuel a p seen seen' : Nat}

theorem lookSE_forward (h : lookSE mem fuel a = some p) : a < p := by
  induction fuel generalizing a with
  | zero => simp [lookSE] at h
  | succ n ih =>
    rw [lookSE] at h
    split at h
    · split at h
      · simp at h
        omega
      · exact Nat.lt_trans (by omega) (ih h)
    · exact Nat.lt_trans (by omega) (ih h)

theorem nextitem_forward (h : nextitem size mem a = some (p, seen)) : a < p ∧ a < seen := by
  unfold nextitem at h
  dsimp only at h
  split_ifs at h
  · simp at h
    omega
  · simp at h
    omega
  · obtain ⟨look, hlook, heq⟩ := Option.map_eq_some_iff.1 h
    have := lookSE_forward hlook
    simp at heq
    omega
  · simp at h
    omega

theorem group_seen (h : group size mem nfrontp fuel a seen = some (p, seen')) : seen ≤ seen' := by
  induction fuel generalizing a seen with
  | zero => simp [group] at h
  | succ n ih =>
    obtain ⟨⟨next, e⟩, -, h⟩ := Option.bind_eq_some_iff.1 h
    dsimp only at h
    split at h
    · exact Nat.le_trans (Nat.le_max_left _ _) (ih h)
    · simp at h
      omega

theorem compact_seen {mem' : Nat → UInt8} {good good' : Nat}
    (h : compact size nfrontp fuel mem good a seen = some (mem', good', seen')) :
    seen ≤ seen' := by
  induction fuel generalizing mem good a seen with
  | zero => simp [compact] at h
  | succ n ih =>
    rw [compact] at h
    split at h
    · split at h
      · obtain ⟨⟨next, e⟩, hgroup, h⟩ := Option.bind_eq_some_iff.1 h
        exact Nat.le_trans (group_seen hgroup) (ih h)
      · obtain ⟨⟨next, e⟩, -, h⟩ := Option.bind_eq_some_iff.1 h
        exact Nat.le_trans (Nat.le_max_left _ _) (ih h)
    · simp at h
      omega

theorem boundary_end (items : List Item) (h : Stands mem a (bytes items))
    (hsize : (bytes items).length ≤ size) (hend : nbackp = a + (bytes items).length)
    (hrun : boundary size mem nbackp fuel a seen = some (p, seen')) : nbackp < seen' := by
  induction items generalizing a seen fuel with
  | nil =>
    cases fuel with
    | zero => simp [boundary] at hrun
    | succ n =>
      obtain ⟨⟨next, e⟩, hnext, hrun⟩ := Option.bind_eq_some_iff.1 hrun
      obtain ⟨hforward, hseen⟩ := nextitem_forward hnext
      have hnot : ¬ next ≤ nbackp := by simp at hend; omega
      simp [hnot] at hrun
      simp at hend
      omega
  | cons i items ih =>
    cases fuel with
    | zero => simp [boundary] at hrun
    | succ n =>
      simp only [bytes_cons, List.length_append] at h hsize hend
      obtain ⟨hi, hrest⟩ := stands_append.1 h
      obtain ⟨e, hnext, -⟩ := nextitem_item size hi (by omega)
      have hle : a + i.bytes.length ≤ nbackp := by omega
      simp only [boundary, hnext, Option.bind_eq_bind, Option.bind_some, if_pos hle] at hrun
      exact ih hrest (by omega) (by omega) hrun

end End

theorem netclear_end {neturg : Option Nat} {o : Obuf} {seen : Nat} (h : b.nbackp = b.nfrontp)
    (hrun : netclear b.array.length (b.obuf neturg) = some (o, seen)) : b.nfrontp < seen := by
  have hstands : Stands (b.obuf neturg).netobuf 0 (bytes b.items) := stands_array _
  obtain ⟨⟨thisitem, seen₁⟩, hfirst, hrun⟩ := Option.bind_eq_some_iff.1 hrun
  obtain ⟨⟨mem, good, seen₂⟩, hsecond, hrun⟩ := Option.bind_eq_some_iff.1 hrun
  have hseen := boundary_end b.items hstands (by simp [Backlog.array])
    (by rw [Nat.zero_add]; exact h) hfirst
  have hmono := compact_seen hsecond
  obtain ⟨-, rfl⟩ := by simpa using hrun
  exact Nat.lt_of_lt_of_le (h ▸ hseen) hmono

/-- `netclear` leaves a stream of whole items, each once, exactly when no item is cut, something is
left to be sent and, if an `IAC IAC` counts as data, none of them is. -/
theorem cleared_iff (escapes : Bool) (neturg : Option Nat) :
    b.Cleared escapes neturg ↔ b.Uncut ∧ b.nbackp < b.nfrontp ∧
      (escapes = false → ∀ i ∈ waiting b.items b.nbackp, i.isEscape = false) := by
  by_cases hlt : b.nbackp < b.nfrontp
  · obtain ⟨done, i, rest, o, seen, heq, hfrom, hto, hrun, hcontents, hseen⟩ :=
      netclear_contents b neturg hlt
    obtain ⟨hbegun, hwaiting⟩ := begun_append done i rest hfrom hto
    have hsent : (bytes b.items).take b.nbackp =
        bytes done ++ i.bytes.take (b.nbackp - (bytes done).length) := by
      rw [heq, bytes_append, bytes_cons, List.take_append, List.take_append,
        List.take_of_length_le hfrom,
        show b.nbackp - (bytes done).length - i.bytes.length = 0 by omega, List.take_zero,
        List.append_nil]
    have hcleared : b.Cleared escapes neturg ↔
        bytes done ++ i.bytes.take (b.nbackp - (bytes done).length) ++
          bytes ((i :: rest).filter Item.wanted) =
        bytes (begun b.items b.nbackp ++
          (waiting b.items b.nbackp).filter (Item.stays escapes)) := by
      rw [← hsent, ← hcontents]
      constructor
      · rintro ⟨o', seen', hrun', heq', -⟩
        obtain ⟨rfl, rfl⟩ := by simpa [hrun] using hrun'
        exact heq'
      · exact fun h => ⟨o, seen, hrun, h, hseen⟩
    rw [hcleared, Backlog.Uncut, heq, hbegun, hwaiting]
    by_cases hn : b.nbackp = (bytes done).length
    · rw [if_pos hn, if_pos hn, hn, Nat.sub_self, List.take_zero, List.append_nil, bytes_append,
        List.append_right_inj, stays_eq_iff]
      exact ⟨fun h => ⟨rfl, hn ▸ hlt, h⟩, fun h => h.2.2⟩
    · -- the bytes of the cut item that are sent count twice, or its last byte is missing
      simp only [if_neg hn]
      refine iff_of_false (fun h => ?_) (fun h => ?_)
      · have hlen := congrArg List.length h
        have hrest := length_wanted escapes rest
        simp only [bytes_append, List.length_append, bytes_cons, bytes_nil, List.append_nil,
          List.length_take] at hlen
        cases hw : i.wanted with
        | false =>
          have hshort := length_of_unwanted hw
          simp only [List.filter_cons, hw, Bool.false_eq_true, if_false] at hlen
          omega
        | true =>
          simp only [List.filter_cons, hw, if_true, bytes_cons, List.length_append] at hlen
          omega
      · simp only [bytes_append, bytes_cons, bytes_nil, List.append_nil, List.length_append] at h
        omega
  · have hend : b.nbackp = b.nfrontp := Nat.le_antisymm b.le (Nat.not_lt.1 hlt)
    simp only [hlt, false_and, and_false, iff_false]
    rintro ⟨o, seen, hrun, -, hseen⟩
    exact Nat.not_lt.2 hseen (netclear_end b hend hrun)

/-- When the first byte of an `IAC WILL` has been sent it is sent again. -/
theorem netclear_repeats :
    ¬ ∀ (b : Backlog) (escapes : Bool) (neturg : Option Nat), b.Cleared escapes neturg := by
  intro h
  obtain ⟨o, seen, hrun, hsent, -⟩ := h ⟨[.option .will 1], [], 1, by decide⟩ true none
  have hcontents : o.contents = [255, 251, 1] :=
    Option.some.inj (congrArg (Option.map fun r : Obuf × Nat => r.1.contents) hrun).symm
  rw [hcontents] at hsent
  exact absurd hsent (by decide)

end Bsdi.Telnet
