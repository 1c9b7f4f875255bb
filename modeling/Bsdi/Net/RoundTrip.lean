import Bsdi.Net.Compression
import Mathlib.Data.List.TakeWhile

/-!
# Expanding the names of a message

`dn_expand` at a place that denotes labels returns the size of the name at that place and the
text of the labels. While a message is built every name in it denotes its labels, up to case,
so every name expands to itself.
-/

namespace Bsdi.Net

open Lib

variable {mem : Nat → Byte} {b hi p eom length comp fuel checked : Nat} {len : Option Nat}
  {l r dn : List Byte} {ls ls' : List (List Byte)}

/-- A label as `dn_expand` writes it. -/
def escape (l : List Byte) : List Byte := l.flatMap fun c => if c = dot then [backslash, c] else [c]

/-- The text after the labels `ls` are appended. -/
def appendLabels : List Byte → List (List Byte) → List Byte
  | dn, [] => dn
  | dn, l :: ls => appendLabels ((if dn = [] then dn else dn ++ [dot]) ++ escape l) ls

@[simp] theorem escape_nil : escape [] = [] := rfl

theorem escape_cons (c : Byte) :
    escape (c :: l) = (if c = dot then [backslash, c] else [c]) ++ escape l := by
  simp [escape]

theorem length_le_escape : l.length ≤ (escape l).length := by
  induction l with
  | nil => exact Nat.le_refl _
  | cons c l ih =>
    rw [escape_cons, List.length_append, List.length_cons]
    split <;> simp <;> omega

theorem escape_ne_nil (hl : l ≠ []) : escape l ≠ [] := by
  have hle : l.length ≤ (escape l).length := length_le_escape
  have hpos := List.length_pos_iff.2 hl
  exact List.length_pos_iff.1 (by omega)

theorem mem_escape {c : Byte} (h : c ∈ escape l) : c ∈ l ∨ c = backslash := by
  obtain ⟨d, hd, hc⟩ := List.mem_flatMap.1 h
  split at hc
  · rcases List.mem_cons.1 hc with rfl | hc
    · exact Or.inr rfl
    · exact Or.inl (by rwa [List.mem_singleton.1 hc])
  · exact Or.inl (by rwa [List.mem_singleton.1 hc])

theorem appendLabels_eq (h : dn ≠ []) :
    appendLabels dn ls = dn ++ ls.flatMap fun l => dot :: escape l := by
  induction ls generalizing dn with
  | nil => simp [appendLabels]
  | cons l ls ih =>
    rw [appendLabels, if_neg h, ih (by simp)]
    simp

theorem appendLabels_nil_cons (hl : l ≠ []) :
    appendLabels [] (l :: ls) = escape l ++ ls.flatMap fun l => dot :: escape l := by
  rw [appendLabels, if_pos rfl, List.nil_append, appendLabels_eq (escape_ne_nil hl)]

theorem length_le_appendLabels : dn.length ≤ (appendLabels dn ls).length := by
  induction ls generalizing dn with
  | nil => exact Nat.le_refl _
  | cons l ls ih =>
    refine Nat.le_trans ?_ ih
    split <;> simp

theorem takeLabel_escape (hl : backslash ∉ l) {r' : List Byte} (hr : takeLabel r = ([], r')) :
    takeLabel (escape l ++ r) = (l, r') := by
  induction l with
  | nil => exact hr
  | cons c l ih =>
    rw [List.mem_cons, not_or] at hl
    rw [escape_cons]
    by_cases hdot : c = dot
    · rw [if_pos hdot, List.append_assoc, takeLabel.eq_def]
      simp only [List.cons_append, List.nil_append, ih hl.2]
      rfl
    · rw [if_neg hdot, List.append_assoc, List.singleton_append,
        takeLabel_cons hdot (Ne.symm hl.1), ih hl.2]

theorem parses_appendLabels (hne : ∀ l ∈ ls, l ≠ []) (hls : ∀ l ∈ ls, backslash ∉ l) :
    Parses (appendLabels [] ls) ls := by
  induction ls with
  | nil => exact .root takeLabel_nil
  | cons l ls ih =>
    rw [List.forall_mem_cons] at hne hls
    have hrest := ih hne.2 hls.2
    rw [appendLabels_nil_cons hne.1]
    cases ls with
    | nil => exact .label (takeLabel_escape hls.1 takeLabel_nil) hne.1 (.root takeLabel_nil)
    | cons l' ls =>
      rw [appendLabels_nil_cons (hne.2 l' List.mem_cons_self)] at hrest
      exact .label (takeLabel_escape hls.1 (by exact takeLabel_dot)) hne.1 hrest

def width (ls : List (List Byte)) : Nat := (ls.map fun l => (escape l).length + 1).sum

theorem length_appendLabels_le : (appendLabels dn ls).length + 1 ≤ dn.length + 1 + width ls := by
  induction ls generalizing dn with
  | nil => simp [appendLabels, width]
  | cons l ls ih =>
    refine Nat.le_trans ih ?_
    simp only [width, List.map_cons, List.sum_cons, List.length_append]
    by_cases hdn : dn = []
    · rw [if_pos hdn]
      omega
    · rw [if_neg hdn, List.length_append, List.length_singleton]
      omega

theorem length_appendLabels_lt (hne : ls ≠ []) : (appendLabels [] ls).length < width ls := by
  cases ls with
  | nil => exact absurd rfl hne
  | cons l ls =>
    have hle : (appendLabels (escape l) ls).length + 1 ≤ (escape l).length + 1 + width ls :=
      length_appendLabels_le
    rw [appendLabels, if_pos rfl, List.nil_append]
    simp only [width, List.map_cons, List.sum_cons] at hle ⊢
    omega

theorem length_escape_map : (escape (l.map mklower)).length = (escape l).length := by
  induction l with
  | nil => rfl
  | cons c l ih =>
    have hidem : mklower (mklower c) = mklower c := by
      rw [← UInt8.toNat_inj, toNat_mklower (mklower c), toNat_mklower]
      grind
    rw [List.map_cons, escape_cons, escape_cons, List.length_append, List.length_append, ih]
    simp only [(special_congr hidem).1]
    split <;> rfl

theorem width_lower : width (lower ls) = width ls := by
  simp only [width, lower, List.map_map, Function.comp_def, length_escape_map]

theorem length_escape_takeLabel (dn : List Byte) :
    (escape (takeLabel dn).1).length + (takeLabel dn).2.length + 1 ≤ dn.length ∨
      ((takeLabel dn).2 = [] ∧ (escape (takeLabel dn).1).length ≤ dn.length) := by
  induction dn using takeLabel.induct with
  | case1 => simp
  | case2 dn => simp [takeLabel_dot]
  | case3 => simp [takeLabel.eq_def, backslash, dot]
  | case4 c dn hdot ih =>
    have htake : takeLabel (backslash :: c :: dn) = (c :: (takeLabel dn).1, (takeLabel dn).2) := by
      rw [takeLabel.eq_def]
      simp [hdot]
    have hlen : (escape (c :: (takeLabel dn).1)).length ≤ (escape (takeLabel dn).1).length + 2 := by
      rw [escape_cons]
      split <;> simp
    rw [htake]
    simp only [List.length_cons]
    rcases ih with ih | ⟨hnil, ih⟩
    · exact Or.inl (by omega)
    · exact Or.inr ⟨hnil, by omega⟩
  | case5 c dn hdot hback ih =>
    rw [takeLabel_cons hdot hback, escape_cons, if_neg hdot]
    simp only [List.length_cons, List.singleton_append]
    rcases ih with ih | ⟨hnil, ih⟩
    · exact Or.inl (by omega)
    · exact Or.inr ⟨hnil, by omega⟩

theorem width_le (h : Parses dn ls) : width ls ≤ dn.length + 1 := by
  induction h with
  | root => simp [width]
  | @label dn l r ls htake hne hrest ih =>
    have hlen := length_escape_takeLabel dn
    simp only [htake] at hlen
    simp only [width, List.map_cons, List.sum_cons] at ih ⊢
    rcases hlen with hlen | ⟨hr, hlen⟩
    · omega
    · -- nothing follows the last label
      cases hrest with
      | root =>
        rw [List.map_nil, List.sum_nil]
        omega
      | label htake' hne' =>
        rw [hr, takeLabel_nil, Prod.mk.injEq] at htake'
        exact absurd htake'.1.symm hne'

theorem expandLabel_eq {n cp : Nat} (heom : cp + n < eom)
    (hlen : dn.length + (escape (slice mem cp n)).length < length) :
    expandLabel mem eom length n cp dn = some (dn ++ escape (slice mem cp n)) := by
  induction n generalizing cp dn with
  | zero => simp [expandLabel]
  | succ n ih =>
    rw [slice_cons, escape_cons, List.length_append] at hlen
    have hle : n ≤ (escape (slice mem (cp + 1) n)).length := by
      simpa using length_le_escape (l := slice mem (cp + 1) n)
    rw [expandLabel, slice_cons, escape_cons]
    by_cases hdot : mem cp = dot
    · rw [if_pos hdot, List.length_cons, List.length_singleton] at hlen
      have hroom : ¬ (mem cp = dot ∧ length ≤ dn.length + n + 2) := by omega
      have hin : ¬ eom ≤ cp + 1 := by omega
      simp only [if_neg hroom, if_pos hdot, if_neg hin]
      rw [ih (by omega) (by simp; omega)]
      simp
    · rw [if_neg hdot, List.length_singleton] at hlen
      have hroom : ¬ (mem cp = dot ∧ length ≤ dn.length + n + 2) := fun h => hdot h.1
      have hin : ¬ eom ≤ cp + 1 := by omega
      simp only [if_neg hroom, if_neg hdot, if_neg hin]
      rw [ih (by omega) (by simp; omega)]
      simp

def expanded (size : Nat) (dn : List Byte) : Option (Nat × List Byte) :=
  let text := dn.takeWhile (· ≠ 0)
  if text.any isspace then none else some (size, text)

theorem expandLoop_eq (h : Denotes mem b hi p ls) (hfuel : b + (hi - p) ≤ fuel) (hhi : hi ≤ eom)
    (hchecked : checked + (hi - p) + b ≤ eom) (hlen : (appendLabels dn ls).length < length) :
    expandLoop mem eom length comp fuel p dn len checked =
      expanded (len.getD (hi - comp)) (appendLabels dn ls) := by
  induction h generalizing fuel dn len checked with
  | root hb h =>
    obtain ⟨fuel, rfl⟩ : ∃ k, fuel = k + 1 := ⟨fuel - 1, by omega⟩
    rw [expandLoop, h]
    rfl
  | @label b hi p l ls hb hl hn hm hd ih =>
    have hlt := hd.lt
    obtain ⟨fuel, rfl⟩ : ∃ k, fuel = k + 1 := ⟨fuel - 1, by omega⟩
    have htext : ((if dn = [] then dn else dn ++ [dot]) ++ escape l).length < length :=
      Nat.lt_of_le_of_lt length_le_appendLabels hlen
    rw [List.length_append] at htext
    have hle : l.length ≤ (escape l).length := length_le_escape
    have hdn : ¬ (dn ≠ [] ∧ length ≤ dn.length) := by
      rintro ⟨hne, hfull⟩
      rw [if_neg hne, List.length_append, List.length_singleton] at htext
      omega
    have hroom : ¬ length ≤ (if dn = [] then dn else dn ++ [dot]).length + l.length := by omega
    have hlabel : expandLabel mem eom length l.length (p + 1)
        (if dn = [] then dn else dn ++ [dot]) =
          some ((if dn = [] then dn else dn ++ [dot]) ++ escape l) := by
      have heq : expandLabel mem eom length l.length (p + 1)
          (if dn = [] then dn else dn ++ [dot]) = some ((if dn = [] then dn else dn ++ [dot]) ++
            escape (slice mem (p + 1) l.length)) :=
        expandLabel_eq (by omega) (by rw [hm]; exact htext)
      rw [hm] at heq
      exact heq
    rw [expandLoop, hn, if_neg (length_ne_zero hl), toNat_length hl,
      if_pos (length_and_indirMask hl), if_neg hdn]
    simp only [if_neg hroom, hlabel]
    exact ih (by omega) hhi (by omega) hlen
  | @pointer b hi p b' q ls hb hq hm hm' hle hne hd ih =>
    have hlt := hd.lt
    have hge := hd.le
    obtain ⟨fuel, rfl⟩ : ∃ k, fuel = k + 1 := ⟨fuel - 1, by omega⟩
    obtain ⟨hn0, hn1, hn2, -⟩ := pointer_byte hq
    have hin : ¬ eom ≤ q := by omega
    have hloop : ¬ eom ≤ checked + 2 := by omega
    rw [expandLoop, hm, if_neg hn0, if_neg hn1, if_pos hn2, hm', indirection_eq hq]
    simp only [if_neg hin, if_neg hloop]
    rw [ih (by omega) (by omega) (by omega) hlen]
    rfl

def Message.run (last : Option Nat) : Message → List Op → Option Message
  | m, [] => some m
  | m, op :: ops => (m.step last op).bind fun m => m.run last ops

/-- The operation stays in a message of 65535 bytes, and the text of a name is a C string. -/
def Message.Admits (m : Message) : Op → Prop
  | .place bytes => m.len + bytes.length ≤ 65535
  | .comp name length => m.len + length ≤ 65535 ∧ 0 ∉ name

/-- When a suffix of the name is in the message already, it is in the reach of a pointer, and
there is room for the pointer behind the labels before it. -/
def Message.PointersFit (m : Message) : Op → Prop
  | .place _ => True
  | .comp name length => ∀ k q, firstFound m.mem m.ptrs (name.length + 1) name = some (k, q) →
      k ≤ length → q < 2 ^ 14 ∧ (k = 0 ∨ k + 2 ≤ length)

/-- A property of the operations of a run, each at the message it is applied to. -/
def Message.Along (last : Option Nat) (P : Message → Op → Prop) : Message → List Op → Prop
  | _, [] => True
  | m, op :: ops => P m op ∧ ∀ m' ∈ m.step last op, Message.Along last P m' ops

instance (m : Message) (op : Op) : Decidable (m.Admits op) :=
  match op with
  | .place _ => inferInstanceAs (Decidable (_ ≤ _))
  | .comp _ _ => inferInstanceAs (Decidable (_ ∧ _))

instance (m : Message) (op : Op) : Decidable (m.PointersFit op) :=
  match op with
  | .place _ => isTrue trivial
  | .comp name length =>
    match h : firstFound m.mem m.ptrs (name.length + 1) name with
    | none => isTrue fun k q hk => by simp [h] at hk
    | some (k, q) => decidable_of_iff (k ≤ length → q < 2 ^ 14 ∧ (k = 0 ∨ k + 2 ≤ length)) (by
        simp [Message.PointersFit, h])

instance Message.decidableAlong (last : Option Nat) (P : Message → Op → Prop)
    [∀ m op, Decidable (P m op)] : (m : Message) → (ops : List Op) →
    Decidable (Message.Along last P m ops)
  | _, [] => isTrue trivial
  | m, op :: ops =>
    match h : m.step last op with
    | none => decidable_of_iff (P m op) (by simp [Message.Along, h])
    | some m' =>
      have := Message.decidableAlong last P m' ops
      decidable_of_iff (P m op ∧ Message.Along last P m' ops) (by simp [Message.Along, h])

def Plain (dn : List Byte) : Prop :=
  ∀ ls, Parses dn ls → ∀ l ∈ ls, ∀ c ∈ l, c ≠ backslash ∧ isspace c = false

/-- `dn_expand` finds the name `x` in the message, with the size `dn_comp` returned. The array
for the text holds as many characters as the name had, and a terminator. -/
def Message.Expands (m : Message) (x : Placed) : Prop :=
  ∀ eom length, m.len ≤ eom → x.name.length < length →
    ∃ text, dnExpand m.mem eom x.offset length = some (x.size, text) ∧ SameName x.name text

/-- What holds of a message while it is built. -/
structure Message.Sound (m : Message) : Prop where
  le : m.len ≤ 65535
  entries : Entries m.mem m.len m.ptrs
  names : ∀ x ∈ m.names, x.offset + x.size ≤ m.len ∧ ∃ ls ls', Parses x.name ls ∧
    lower ls' = lower ls ∧ Denotes m.mem x.offset (x.offset + x.size) x.offset ls'

variable {last : Option Nat} {m m' : Message} {op : Op} {ops : List Op} {x : Placed}

theorem Message.sound_empty (mem : Nat → Byte) : (Message.empty mem).Sound :=
  ⟨by simp [Message.empty], by simp [Message.empty, Entries], by simp [Message.empty]⟩

theorem Message.Sound.of_same (h : m.Sound) (hsame : ∀ i < m.len, m'.mem i = m.mem i)
    (hle : m.len ≤ m'.len) (hmax : m'.len ≤ 65535) (hptrs : m'.ptrs = m.ptrs)
    (hnames : m'.names = m.names) : m'.Sound := by
  refine ⟨hmax, ?_, ?_⟩
  · rw [hptrs]
    exact (h.entries.congr hsame).mono hle
  · rw [hnames]
    intro x hx
    obtain ⟨hend, ls, ls', hparse, hlow, hd⟩ := h.names x hx
    exact ⟨hend.trans hle, ls, ls', hparse, hlow, hd.congr fun i hi => hsame i (by omega)⟩

theorem Message.Sound.dnComp (last : Option Nat) {name : List Byte} {length : Nat} (h : m.Sound)
    (hadm : m.Admits (.comp name length)) (hfit : m.PointersFit (.comp name length)) :
    ∃ c, Net.dnComp last m.mem m.ptrs name m.len length = some c ∧
      Compressed m.len (m.len + length) m.ptrs m.mem m.ptrs m.len name c := by
  have hturns : m.len ≤ turns := h.le.trans (by decide)
  refine dnLoop_compressed last h.entries hturns (fun _ _ => rfl) (Nat.le_refl _)
    (Nat.le_add_right _ _) (fun _ => rfl) hadm.2 (Nat.lt_succ_self _) fun k q hk hle => ?_
  have := hfit k q hk (by omega)
  omega

theorem Message.Sound.step (last : Option Nat) (h : m.Sound) (hadm : m.Admits op) (hfit : m.PointersFit op) :
    ∃ m', m.step last op = some m' ∧ m'.Sound := by
  cases op with
  | place bytes =>
    refine ⟨_, rfl, h.of_same (fun i hi => store_of_lt hi) (Nat.le_add_right _ _) hadm rfl rfl⟩
  | comp name length =>
    obtain ⟨⟨mem, ptrs, cp⟩, hc, hdone⟩ := h.dnComp last hadm hfit
    cases cp with
    | none =>
      refine ⟨{ m with mem := mem, ptrs := ptrs }, by simp only [Message.step, hc], ?_⟩
      exact h.of_same hdone.same (Nat.le_refl _) h.le (hdone.failed rfl) rfl
    | some e =>
      refine ⟨⟨mem, e, ptrs, m.names ++ [⟨m.len, e - m.len, name⟩]⟩,
        by simp only [Message.step, hc], ?_⟩
      obtain ⟨hle, ls, ls', new, hparse, hlow, hd, hptrs, hnew⟩ := hdone.denotes e rfl
      have hlt := hd.lt
      refine ⟨?_, ?_, ?_⟩
      · exact hle.trans hadm.1
      · rw [show ptrs = m.ptrs ++ new from hptrs]
        intro p hp
        rcases List.mem_append.1 hp with hp | hp
        · exact (h.entries.congr hdone.same).mono (Nat.le_of_lt hlt) p hp
        · obtain ⟨ls, hd⟩ := hnew p hp
          exact ⟨_, _, ls, hd, Nat.le_refl _⟩
      · intro x hx
        rcases List.mem_append.1 hx with hx | hx
        · obtain ⟨hend, ls, ls', hparse, hlow, hd⟩ := h.names x hx
          have hsame := hdone.same
          exact ⟨by simp only; omega, ls, ls', hparse, hlow,
            hd.congr fun i hi => hsame i (by omega)⟩
        · rw [List.mem_singleton.1 hx]
          have heq : m.len + (e - m.len) = e := by omega
          exact ⟨by simp only; omega, ls, ls', hparse, hlow, by simp only [heq]; exact hd⟩

theorem Message.Sound.run (h : m.Sound) (hadm : Message.Along last Message.Admits m ops)
    (hfit : Message.Along last Message.PointersFit m ops) :
    ∃ m', m.run last ops = some m' ∧ m'.Sound := by
  induction ops generalizing m with
  | nil => exact ⟨m, rfl, h⟩
  | cons op ops ih =>
    obtain ⟨m₁, hstep, h₁⟩ := h.step last hadm.1 hfit.1
    obtain ⟨m', hrun, h'⟩ := ih h₁ (hadm.2 m₁ hstep) (hfit.2 m₁ hstep)
    exact ⟨m', by rw [Message.run, hstep, Option.bind_some, hrun], h'⟩

theorem plain_of_lower (hlow : lower ls' = lower ls)
    (hls : ∀ l ∈ ls, ∀ c ∈ l, c ≠ backslash ∧ isspace c = false) :
    ∀ l ∈ ls', ∀ c ∈ l, c ≠ backslash ∧ isspace c = false := by
  intro l hl c hc
  have hmem : l.map mklower ∈ lower ls := by
    rw [← hlow]
    exact List.mem_map_of_mem hl
  obtain ⟨l₀, hl₀, heq⟩ := List.mem_map.1 hmem
  have hc' : mklower c ∈ l₀.map mklower := by
    rw [heq]
    exact List.mem_map_of_mem hc
  obtain ⟨d, hd, hcd⟩ := List.mem_map.1 hc'
  obtain ⟨-, hback, hspace⟩ := special_congr hcd
  obtain ⟨hd1, hd2⟩ := hls l₀ hl₀ d hd
  exact ⟨fun h => hd1 (hback.2 h), hspace ▸ hd2⟩

theorem mem_appendLabels {c : Byte} (h : c ∈ appendLabels dn ls) :
    c ∈ dn ∨ c = dot ∨ c = backslash ∨ ∃ l ∈ ls, c ∈ l := by
  induction ls generalizing dn with
  | nil => exact Or.inl h
  | cons l ls ih =>
    rcases ih h with h | h | h | ⟨l', hl', hc⟩
    · rcases List.mem_append.1 h with h | h
      · split at h
        · exact Or.inl h
        · rcases List.mem_append.1 h with h | h
          · exact Or.inl h
          · exact Or.inr (Or.inl (List.mem_singleton.1 h))
      · rcases mem_escape h with h | h
        · exact Or.inr (Or.inr (Or.inr ⟨l, List.mem_cons_self, h⟩))
        · exact Or.inr (Or.inr (Or.inl h))
    · exact Or.inr (Or.inl h)
    · exact Or.inr (Or.inr (Or.inl h))
    · exact Or.inr (Or.inr (Or.inr ⟨l', List.mem_cons_of_mem _ hl', hc⟩))

theorem expanded_eq (size : Nat) (h : ∀ c ∈ dn, c ≠ 0 ∧ isspace c = false) :
    expanded size dn = some (size, dn) := by
  have htake : dn.takeWhile (· ≠ 0) = dn :=
    List.takeWhile_eq_self_iff.2 fun c hc => decide_eq_true (h c hc).1
  have hspace : ¬ dn.any isspace = true := by
    rw [List.any_eq_true]
    rintro ⟨c, hc, hs⟩
    rw [(h c hc).2] at hs
    exact Bool.false_ne_true hs
  simp only [expanded, htake, if_neg hspace]

theorem Message.Sound.expands (h : m.Sound) (hx : x ∈ m.names) (hplain : Plain x.name) :
    m.Expands x := by
  intro eom length heom hlen
  obtain ⟨hend, ls, ls', hparse, hlow, hd⟩ := h.names x hx
  have hls := hd.isLabel
  have hspecial := plain_of_lower hlow (hplain ls hparse)
  have hwidth : width ls' ≤ x.name.length + 1 := by
    rw [← width_lower, hlow, width_lower]
    exact width_le hparse
  have hroom : (appendLabels [] ls').length < length := by
    by_cases hnil : ls' = []
    · rw [hnil, appendLabels, List.length_nil]
      omega
    · have := length_appendLabels_lt hnil
      omega
  have htext : ∀ c ∈ appendLabels [] ls', c ≠ 0 ∧ isspace c = false := by
    intro c hc
    rcases mem_appendLabels hc with hc | rfl | rfl | ⟨l, hl, hc⟩
    · simp at hc
    · decide
    · decide
    · exact ⟨(hls l hl).2.2 c hc, (hspecial l hl c hc).2⟩
  refine ⟨appendLabels [] ls', ?_, ls, ls', hparse, ?_, hlow.symm⟩
  · rw [dnExpand, expandLoop_eq hd (by omega) (by omega) (by omega) hroom, Option.getD_none,
      Nat.add_sub_cancel_left, expanded_eq _ htext]
  · refine parses_appendLabels (fun l hl => List.length_pos_iff.1 (hls l hl).1) fun l hl hc => ?_
    exact (hspecial l hl _ hc).1 rfl

/-- However a message is built, in memory of any contents: every name that `dn_comp` accepted is
there at the end, in the size it returned, if in no call a pointer lacked room or reach. -/
theorem dn_roundtrip (last : Option Nat) (mem : Nat → Byte) (ops : List Op)
    (hadm : Message.Along last Message.Admits (Message.empty mem) ops)
    (hfit : Message.Along last Message.PointersFit (Message.empty mem) ops) :
    ∃ m, (Message.empty mem).run last ops = some m ∧
      ∀ x ∈ m.names, Plain x.name → m.Expands x := by
  obtain ⟨m, hrun, hm⟩ := (Message.sound_empty mem).run hadm hfit
  exact ⟨m, hrun, fun x hx hplain => hm.expands hx hplain⟩

/-- `a`, another byte, and `b.A`, which ends in a pointer to `a`. -/
def twoNames : List Op := [.comp [97] 10, .place [7], .comp [98, 46, 65] 10]

theorem dn_roundtrip_twoNames :
    ∃ m, (Message.empty fun _ => 0).run (some 10) twoNames = some m ∧ m.len = 8 ∧
      m.names.length = 2 ∧ ∀ x ∈ m.names, Plain x.name → m.Expands x := by
  obtain ⟨m, hrun, hnames⟩ := dn_roundtrip (some 10) (fun _ => 0) twoNames (by decide +kernel)
    (by decide +kernel)
  have hlen : ((Message.empty fun _ => 0).run (some 10) twoNames).map
      (fun m => (m.len, m.names.length)) = some (8, 2) := by decide +kernel
  rw [hrun, Option.map_some, Option.some_inj, Prod.mk.injEq] at hlen
  exact ⟨m, hrun, hlen.1, hlen.2, hnames⟩

def ValidName (dn : List Byte) : Prop :=
  ∃ ls, Parses dn ls ∧ (∀ l ∈ ls, l.length ≤ maxlabel) ∧
    (ls.map fun l => l.length + 1).sum + 1 ≤ 255

/-- `a`; then `b.a` in three bytes, where the pointer to `a` does not fit; then `b`. -/
def staleEntry : List Op := [.comp [97] 10, .comp [98, 46, 97] 3, .comp [98] 10]

theorem parses_letter {c : Byte} (hdot : c ≠ dot) (hback : c ≠ backslash)
    {ls : List (List Byte)} : Parses [c] ls ↔ ls = [[c]] := by
  have htake : takeLabel [c] = ([c], []) := by simp [takeLabel_cons hdot hback]
  constructor
  · intro h
    cases h with
    | root h => simp [htake] at h
    | label h hne hrest =>
      obtain ⟨rfl, rfl⟩ := Prod.mk.inj (htake.symm.trans h)
      cases hrest with
      | root => rfl
      | label h hne => exact absurd (Prod.mk.inj h).1.symm hne
  · rintro rfl
    exact .label htake (by simp) (.root takeLabel_nil)

/-- The entry of the `b` of the call that failed stays in the list, and `b` is compressed to a
pointer to itself. -/
theorem dn_roundtrip_lost :
    ¬ ∀ (last : Option Nat) (mem : Nat → Byte) (ops : List Op) (m : Message),
      Message.Along last Message.Admits (Message.empty mem) ops →
      (Message.empty mem).run last ops = some m →
      ∀ x ∈ m.names, ValidName x.name → Plain x.name → m.Expands x := by
  intro hall
  have hrun : ((Message.empty fun _ => 0).run (some 10) staleEntry).isSome = true := by
    decide +kernel
  obtain ⟨m, hm⟩ := Option.isSome_iff_exists.1 hrun
  have hadm : Message.Along (some 10) Message.Admits (Message.empty fun _ => 0) staleEntry := by
    decide +kernel
  have hnames : ((Message.empty fun _ => 0).run (some 10) staleEntry).map (fun m =>
      m.names.map fun x => (x.offset, x.size, x.name)) = some [(0, 3, [97]), (3, 2, [98])] := by
    decide +kernel
  have hdata : ((Message.empty fun _ => 0).run (some 10) staleEntry).map (fun m =>
      (m.len, dnExpand m.mem 5 3 256)) = some (5, none) := by decide +kernel
  rw [hm, Option.map_some, Option.some_inj] at hnames hdata
  obtain ⟨hlen, hexp⟩ := Prod.mk.inj hdata
  have hx : (⟨3, 2, [98]⟩ : Placed) ∈ m.names := by
    have hmem : (3, 2, [98]) ∈ m.names.map fun x => (x.offset, x.size, x.name) := by
      rw [hnames]
      simp
    obtain ⟨⟨o, n, name⟩, hx, heq⟩ := List.mem_map.1 hmem
    simp only [Prod.mk.injEq] at heq
    obtain ⟨rfl, rfl, rfl⟩ := heq
    exact hx
  have hparse : ∀ ls, Parses [98] ls ↔ ls = [[98]] := fun ls =>
    parses_letter (by decide) (by decide)
  have hvalid : ValidName [98] := ⟨[[98]], (hparse _).2 rfl, by decide, by decide⟩
  have hplain : Plain [98] := by
    intro ls hls
    rw [(hparse ls).1 hls]
    simp [backslash, isspace]
  obtain ⟨text, htext, -⟩ := hall _ _ _ m hadm hm _ hx hvalid hplain 5 256 (by omega) (by simp)
  simp only at htext
  rw [hexp] at htext
  simp at htext

end Bsdi.Net
