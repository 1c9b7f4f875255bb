import Bsdi.Net.ResComp
import Mathlib.Tactic.IntervalCases

/-!
# Compressed names

A place of a message denotes a sequence of labels when its labels and pointers lead to the end
of a name.
-/

namespace Bsdi.Net

open Lib

variable {mem mem' : Nat → Byte} {b hi p q eob fuel : Nat} {l r dn : List Byte}
  {ls : List (List Byte)}

def takeLabel : List Byte → List Byte × List Byte
  | [] => ([], [])
  | c :: dn =>
    if c = dot then ([], dn)
    else if c = backslash then
      match dn with
      | [] => ([], [])
      | c :: dn => (c :: (takeLabel dn).1, (takeLabel dn).2)
    else (c :: (takeLabel dn).1, (takeLabel dn).2)

/-- The labels of a text. The text may end in a dot. -/
inductive Parses : List Byte → List (List Byte) → Prop
  | root {dn : List Byte} (h : takeLabel dn = ([], [])) : Parses dn []
  | label {dn l r : List Byte} {ls : List (List Byte)} (h : takeLabel dn = (l, r))
      (hne : l ≠ []) (hrest : Parses r ls) : Parses dn (l :: ls)

@[simp] theorem takeLabel_nil : takeLabel [] = ([], []) := by rw [takeLabel.eq_def]

theorem takeLabel_dot : takeLabel (dot :: dn) = ([], dn) := by
  rw [takeLabel.eq_def]
  exact if_pos rfl

theorem takeLabel_cons {c : Byte} (hdot : c ≠ dot) (hback : c ≠ backslash) :
    takeLabel (c :: dn) = (c :: (takeLabel dn).1, (takeLabel dn).2) := by
  rw [takeLabel.eq_def]
  simp only [if_neg hdot, if_neg hback]

def lower (ls : List (List Byte)) : List (List Byte) := ls.map (List.map mklower)

def SameName (dn dn' : List Byte) : Prop :=
  ∃ ls ls', Parses dn ls ∧ Parses dn' ls' ∧ lower ls = lower ls'

theorem toNat_mklower (c : Byte) :
    (mklower c).toNat = if 65 ≤ c.toNat ∧ c.toNat ≤ 90 then c.toNat + 32 else c.toNat := by
  unfold mklower
  simp only [UInt8.le_iff_toNat_le]
  split
  case isTrue h =>
    have hadd := UInt8.toNat_add c 32
    simp only [UInt8.reduceToNat] at h hadd
    rw [if_pos h]
    omega
  case isFalse h =>
    simp only [UInt8.reduceToNat] at h
    rw [if_neg h]

theorem eq_or_letters {c d : Byte} (h : mklower c = mklower d) :
    c = d ∨ ((65 ≤ c.toNat ∧ c.toNat ≠ 92 ∧ c.toNat ≤ 122) ∧
      65 ≤ d.toNat ∧ d.toNat ≠ 92 ∧ d.toNat ≤ 122) := by
  have hnat := congrArg UInt8.toNat h
  rw [toNat_mklower, toNat_mklower] at hnat
  by_cases heq : c.toNat = d.toNat
  · exact Or.inl (UInt8.toNat_inj.1 heq)
  · right
    split at hnat <;> split at hnat <;> omega

theorem ne_zero_of_mklower {c d : Byte} (h : mklower c = mklower d) (hd : d ≠ 0) : c ≠ 0 := by
  rintro rfl
  rcases eq_or_letters h with rfl | ⟨hc, _⟩
  · exact hd rfl
  · simp at hc

theorem special_congr {c d : Byte} (h : mklower c = mklower d) :
    (c = dot ↔ d = dot) ∧ (c = backslash ↔ d = backslash) ∧ isspace c = isspace d := by
  rcases eq_or_letters h with rfl | ⟨hc, hd⟩
  · simp
  · simp only [dot, backslash, isspace, ← UInt8.toNat_inj, UInt8.le_iff_toNat_le,
      UInt8.reduceToNat, Bool.beq_eq_decide_eq]
    refine ⟨by omega, by omega, ?_⟩
    rw [Bool.eq_iff_iff]
    simp only [Bool.or_eq_true, Bool.and_eq_true, decide_eq_true_eq]
    omega

/-- `dnMatch` on the bytes of a label. -/
def matchLabel : List Byte → List Byte → Option (List Byte)
  | [], dn => some dn
  | c :: l, dn =>
    if dn.headD 0 = dot then none
    else if mklower ((unescape dn).headD 0) = mklower c then matchLabel l (unescape dn).tail
    else none

/-- `dnWalk` on labels. -/
def matchName : List (List Byte) → List Byte → Bool
  | [], dn => dn = []
  | l :: ls, dn =>
    match matchLabel l dn with
    | none => false
    | some [] => ls = []
    | some (c :: dn) => c = dot && matchName ls dn

theorem dnMatch_eq (n cp : Nat) (dn : List Byte) :
    dnMatch mem n cp dn = matchLabel (slice mem cp n) dn := by
  induction n generalizing cp dn with
  | zero => rfl
  | succ n ih => simp only [dnMatch, slice_cons, matchLabel, ih]

theorem matchLabel_cons {c : Byte} (h : matchLabel (c :: l) dn = some r) :
    dn.headD 0 ≠ dot ∧ mklower ((unescape dn).headD 0) = mklower c ∧
      matchLabel l (unescape dn).tail = some r := by
  rw [matchLabel] at h
  by_cases hdot : dn.headD 0 = dot
  · rw [if_pos hdot] at h
    simp at h
  rw [if_neg hdot] at h
  by_cases heq : mklower ((unescape dn).headD 0) = mklower c
  · rw [if_pos heq] at h
    exact ⟨hdot, heq, h⟩
  · rw [if_neg heq] at h
    simp at h

theorem takeLabel_unescape {l' r' : List Byte} (hdot : dn.headD 0 ≠ dot)
    (h0 : (unescape dn).headD 0 ≠ 0) (h : takeLabel (unescape dn).tail = (l', r')) :
    takeLabel dn = ((unescape dn).headD 0 :: l', r') := by
  cases dn with
  | nil => exact absurd rfl h0
  | cons d dn =>
    rw [List.headD_cons] at hdot
    by_cases hback : d = backslash
    · have hun : unescape (d :: dn) = dn := if_pos hback
      rw [hun] at h0 h ⊢
      cases dn with
      | nil => exact absurd rfl h0
      | cons e dn =>
        have htake : takeLabel dn = (l', r') := h
        rw [takeLabel, if_neg hdot, if_pos hback, htake, List.headD_cons]
    · have hun : unescape (d :: dn) = d :: dn := if_neg hback
      rw [hun] at h0 h ⊢
      have htake : takeLabel dn = (l', r') := h
      rw [takeLabel_cons hdot hback, htake, List.headD_cons]

theorem takeLabel_of_matchLabel (h0 : ∀ c ∈ l, c ≠ 0) (h : matchLabel l dn = some r)
    {r' : List Byte} (hr : takeLabel r = ([], r')) :
    ∃ l', takeLabel dn = (l', r') ∧ l'.map mklower = l.map mklower := by
  induction l generalizing dn with
  | nil =>
    obtain rfl := Option.some.inj h
    exact ⟨[], hr, rfl⟩
  | cons c l ih =>
    obtain ⟨hdot, heq, hmatch⟩ := matchLabel_cons h
    obtain ⟨l', htake, hlow⟩ := ih (fun c hc => h0 c (List.mem_cons_of_mem _ hc)) hmatch
    -- the terminator is no byte of a label
    have hne : (unescape dn).headD 0 ≠ 0 := ne_zero_of_mklower heq (h0 c List.mem_cons_self)
    refine ⟨_, takeLabel_unescape hdot hne htake, ?_⟩
    rw [List.map_cons, List.map_cons, heq, hlow]

def IsLabel (l : List Byte) : Prop := 0 < l.length ∧ l.length ≤ maxlabel ∧ ∀ c ∈ l, c ≠ 0

theorem IsLabel.of_map_eq {l' : List Byte} (hl : IsLabel l)
    (h : l'.map mklower = l.map mklower) : l' ≠ [] := by
  rintro rfl
  have hlen := congrArg List.length h
  simp only [List.map_nil, List.length_nil, List.length_map] at hlen
  exact absurd hl.1 (by omega)

theorem parses_of_matchName (hls : ∀ l ∈ ls, IsLabel l) (h : matchName ls dn = true) :
    ∃ ls', Parses dn ls' ∧ lower ls' = lower ls := by
  induction ls generalizing dn with
  | nil =>
    have hnil : dn = [] := by simpa [matchName] using h
    exact ⟨[], .root (by rw [hnil, takeLabel_nil]), rfl⟩
  | cons l ls ih =>
    have hl := hls l List.mem_cons_self
    rw [matchName] at h
    split at h
    case h_1 => simp at h
    case h_2 hmatch =>
      have hnil : ls = [] := by simpa using h
      obtain ⟨l', htake, hlow⟩ := takeLabel_of_matchLabel hl.2.2 hmatch takeLabel_nil
      refine ⟨[l'], .label htake (hl.of_map_eq hlow) (.root takeLabel_nil), ?_⟩
      simp [lower, hlow, hnil]
    case h_3 c rest hmatch =>
      simp only [Bool.and_eq_true, decide_eq_true_eq] at h
      rw [h.1] at hmatch
      obtain ⟨l', htake, hlow⟩ := takeLabel_of_matchLabel hl.2.2 hmatch takeLabel_dot
      obtain ⟨ls', hparse, hlow'⟩ := ih (fun l hl => hls l (List.mem_cons_of_mem _ hl)) h.2
      refine ⟨l' :: ls', .label htake (hl.of_map_eq hlow) hparse, ?_⟩
      simp only [lower, List.map_cons] at hlow' ⊢
      rw [hlow, hlow']

/-- The place `p` denotes the labels `ls`: the name it stands in starts at `b` and ends before
`hi`. A pointer leads to a name that ends before `b`. -/
inductive Denotes (mem : Nat → Byte) : Nat → Nat → Nat → List (List Byte) → Prop
  | root {b p : Nat} (hb : b ≤ p) (h : mem p = 0) : Denotes mem b (p + 1) p []
  | label {b hi p : Nat} {l : List Byte} {ls : List (List Byte)} (hb : b ≤ p) (hl : IsLabel l)
      (hn : mem p = UInt8.ofNat l.length) (hm : slice mem (p + 1) l.length = l)
      (hd : Denotes mem b hi (p + 1 + l.length) ls) : Denotes mem b hi p (l :: ls)
  | pointer {b hi p b' q : Nat} {ls : List (List Byte)} (hb : b ≤ p) (hq : q < 2 ^ 14)
      (hm : mem p = UInt8.ofNat ((q >>> 8) ||| indirMask))
      (hm' : mem (p + 1) = UInt8.ofNat (q % 256)) (hhi : hi ≤ b) (hne : ls ≠ [])
      (hd : Denotes mem b' hi q ls) : Denotes mem b (p + 2) p ls

theorem Denotes.le (h : Denotes mem b hi p ls) : b ≤ p := by
  cases h <;> assumption

theorem Denotes.lt (h : Denotes mem b hi p ls) : p < hi := by
  induction h with
  | root => exact Nat.lt_succ_self _
  | label _ _ _ _ _ ih => omega
  | pointer => omega

theorem Denotes.isLabel (h : Denotes mem b hi p ls) : ∀ l ∈ ls, IsLabel l := by
  induction h with
  | root => simp
  | label _ hl _ _ _ ih =>
    intro l hmem
    rcases List.mem_cons.1 hmem with rfl | hmem
    · exact hl
    · exact ih l hmem
  | pointer _ _ _ _ _ _ _ ih => exact ih

theorem Denotes.congr (h : Denotes mem b hi p ls) (hsame : ∀ i < hi, mem' i = mem i) :
    Denotes mem' b hi p ls := by
  induction h with
  | root hb h =>
    refine .root hb ?_
    rw [hsame _ (Nat.lt_succ_self _), h]
  | label hb hl hn hm hd ih =>
    have hlt := hd.lt
    refine .label hb hl ?_ ?_ (ih hsame)
    · rw [hsame _ (by omega), hn]
    · rw [slice_congr fun k _ _ => hsame k (by omega), hm]
  | pointer hb hq hm hm' hhi hne _ ih =>
    refine .pointer hb hq ?_ ?_ hhi hne (ih fun i hi => hsame i (by omega))
    · rw [hsame _ (by omega), hm]
    · rw [hsame _ (by omega), hm']

theorem toNat_length (hl : IsLabel l) : (UInt8.ofNat l.length).toNat = l.length := by
  have := hl.2.1
  rw [maxlabel] at this
  exact UInt8.toNat_ofNat_of_lt' (by simp [UInt8.size]; omega)

theorem length_ne_zero (hl : IsLabel l) : UInt8.ofNat l.length ≠ 0 := by
  intro h
  have hnat := congrArg UInt8.toNat h
  rw [toNat_length hl] at hnat
  exact absurd hnat (Nat.pos_iff_ne_zero.1 hl.1)

theorem length_and_indirMask (hl : IsLabel l) : l.length &&& indirMask = 0 := by
  have hle : l.length < 64 := Nat.lt_succ_of_le hl.2.1
  have hall : ∀ n : Fin 64, n.val &&& indirMask = 0 := by decide
  exact hall ⟨_, hle⟩

theorem pointer_byte (hq : q < 2 ^ 14) :
    let n := UInt8.ofNat ((q >>> 8) ||| indirMask)
    n ≠ 0 ∧ n.toNat &&& indirMask ≠ 0 ∧ Indirect n ∧ n.toNat &&& 0x3f = q >>> 8 := by
  have hlt : q >>> 8 < 64 := by
    rw [Nat.shiftRight_eq_div_pow]
    omega
  have hall : ∀ n : Fin 64, UInt8.ofNat (n.val ||| indirMask) ≠ 0 ∧
      (UInt8.ofNat (n.val ||| indirMask)).toNat &&& indirMask ≠ 0 ∧
      Indirect (UInt8.ofNat (n.val ||| indirMask)) ∧
      (UInt8.ofNat (n.val ||| indirMask)).toNat &&& 0x3f = n.val := by decide
  exact hall ⟨_, hlt⟩

theorem indirection_eq (hq : q < 2 ^ 14) :
    indirection (UInt8.ofNat ((q >>> 8) ||| indirMask)) (UInt8.ofNat (q % 256)) = q := by
  have hmod : (UInt8.ofNat (q % 256)).toNat = q % 256 := by simp
  rw [indirection, (pointer_byte hq).2.2.2, hmod,
    ← Nat.shiftLeft_add_eq_or_of_lt (show q % 256 < 2 ^ 8 by omega), Nat.shiftLeft_eq,
    Nat.shiftRight_eq_div_pow]
  omega

theorem dnWalk_eq (h : Denotes mem b hi p ls) (hfuel : b + (hi - p) ≤ fuel) :
    dnWalk mem fuel p dn = some (if matchName ls dn then .found else .next) := by
  induction h generalizing fuel dn with
  | root hb h =>
    obtain ⟨fuel, rfl⟩ : ∃ k, fuel = k + 1 := ⟨fuel - 1, by omega⟩
    rw [dnWalk, h]
    simp [matchName]
  | @label b hi p l ls hb hl hn hm hd ih =>
    obtain ⟨fuel, rfl⟩ : ∃ k, fuel = k + 1 := ⟨fuel - 1, by have := hd.lt; omega⟩
    rw [dnWalk, hn, if_neg (length_ne_zero hl), toNat_length hl, if_pos (length_and_indirMask hl),
      dnMatch_eq, hm, matchName]
    have hlt := hd.lt
    rcases hmatch : matchLabel l dn with _ | _ | ⟨c, dn⟩
    · rfl
    · -- the next byte is zero exactly at the end of the name
      cases hd with
      | root _ h => simp [h]
      | label _ hl' hn' => simp [hn', length_ne_zero hl']
      | pointer _ hq hm _ _ hne =>
        have hbyte := (pointer_byte hq).1
        rw [← hm] at hbyte
        simp [hbyte, hne]
    · by_cases hc : c = dot
      · simp only [if_pos hc]
        rw [ih (by omega)]
        simp [hc]
      · simp [hc]
  | @pointer b hi p b' q ls hb hq hm hm' hhi hne hd ih =>
    obtain ⟨fuel, rfl⟩ : ∃ k, fuel = k + 1 := ⟨fuel - 1, by omega⟩
    obtain ⟨hn0, hn1, hn2, -⟩ := pointer_byte hq
    have hle := hd.le
    have hlt := hd.lt
    rw [dnWalk, hm, if_neg hn0, if_neg hn1, if_pos hn2, hm', indirection_eq hq]
    exact ih (by omega)

/-- Every entry denotes a name that ends before `hi`. -/
def Entries (mem : Nat → Byte) (hi : Nat) (ptrs : List Nat) : Prop :=
  ∀ e ∈ ptrs, ∃ b hi' ls, Denotes mem b hi' e ls ∧ hi' ≤ hi

theorem Entries.congr {ptrs : List Nat} (h : Entries mem hi ptrs)
    (hsame : ∀ i < hi, mem' i = mem i) : Entries mem' hi ptrs := by
  intro e he
  obtain ⟨b, hi', ls, hd, hle⟩ := h e he
  exact ⟨b, hi', ls, hd.congr fun i hi => hsame i (by omega), hle⟩

theorem Entries.mono {ptrs : List Nat} {hi' : Nat} (h : Entries mem hi ptrs) (hle : hi ≤ hi') :
    Entries mem hi' ptrs := by
  intro e he
  obtain ⟨b, hi₁, ls, hd, hle₁⟩ := h e he
  exact ⟨b, hi₁, ls, hd, hle₁.trans hle⟩

theorem dnFind_spec {ptrs : List Nat} (h : Entries mem hi ptrs) (hhi : hi ≤ turns) :
    ∃ o, dnFind mem ptrs dn = some o ∧
      ∀ q ∈ o, ∃ b hi' ls, Denotes mem b hi' q ls ∧ hi' ≤ hi ∧ matchName ls dn = true := by
  induction ptrs with
  | nil => exact ⟨none, rfl, by simp⟩
  | cons e ptrs ih =>
    obtain ⟨b, hi', ls, hd, hle⟩ := h e List.mem_cons_self
    have hge := hd.le
    have hlt := hd.lt
    rw [dnFind, dnWalk_eq hd (by omega)]
    by_cases hmatch : matchName ls dn = true
    · refine ⟨some e, by simp [hmatch], ?_⟩
      rintro q ⟨⟩
      exact ⟨b, hi', ls, hd, hle, hmatch⟩
    · simp only [hmatch, Bool.false_eq_true, if_false]
      exact ih fun e he => h e (List.mem_cons_of_mem _ he)

theorem dnFind_congr {ptrs : List Nat} (h : Entries mem hi ptrs) (hhi : hi ≤ turns)
    (hsame : ∀ i < hi, mem' i = mem i) : dnFind mem' ptrs dn = dnFind mem ptrs dn := by
  induction ptrs with
  | nil => rfl
  | cons e ptrs ih =>
    obtain ⟨b, hi', ls, hd, hle⟩ := h e List.mem_cons_self
    have hge := hd.le
    have hlt := hd.lt
    have hd' := hd.congr fun i hi => hsame i (by omega)
    rw [dnFind, dnFind, dnWalk_eq hd (by omega), dnWalk_eq hd' (by omega),
      ih fun e he => h e (List.mem_cons_of_mem _ he)]

/-- The outcome of copying the label `l`, before the rest `r` of the text, to `cp`: it is
there, or there was no room for it. Nothing before `cp` changes. -/
def Copied (eob : Nat) (l r : List Byte) (mem : Nat → Byte) (cp : Nat)
    (res : (Nat → Byte) × Nat × Option (List Byte)) : Prop :=
  (cp + l.length ≤ max eob cp ∧ res = (store mem cp l, cp + l.length, some r)) ∨
    ∃ mem' cp', res = (mem', cp', none) ∧ ∀ i < cp, mem' i = mem i

theorem Copied.nil {cp : Nat} : Copied eob [] r mem cp (mem, cp, some r) :=
  Or.inl (by simp)

theorem Copied.cons {c : Byte} {cp : Nat} {res : (Nat → Byte) × Nat × Option (List Byte)}
    (h : Copied eob l r (store mem cp [c]) (cp + 1) res) :
    Copied eob (c :: l) r mem cp (if eob ≤ cp then (mem, cp, none) else res) := by
  by_cases hle : eob ≤ cp
  · rw [if_pos hle]
    exact Or.inr ⟨mem, cp, rfl, fun _ _ => rfl⟩
  rw [if_neg hle]
  rcases h with ⟨hfit, rfl⟩ | ⟨mem', cp', rfl, hsame⟩
  · refine Or.inl ⟨by simp only [List.length_cons]; omega, ?_⟩
    rw [store_cons, List.length_cons, Nat.add_assoc, Nat.add_comm 1]
  · refine Or.inr ⟨mem', cp', rfl, fun i hi => ?_⟩
    rw [hsame i (by omega), store_of_lt hi]

theorem dnLabel_spec (eob : Nat) (dn : List Byte) (mem : Nat → Byte) (cp : Nat) :
    Copied eob (takeLabel dn).1 (takeLabel dn).2 mem cp (dnLabel eob dn mem cp) := by
  induction dn using takeLabel.induct generalizing mem cp with
  | case1 =>
    rw [takeLabel_nil, dnLabel.eq_def]
    exact .nil
  | case2 dn =>
    rw [takeLabel_dot, dnLabel.eq_def]
    exact .nil
  | case3 =>
    rw [takeLabel.eq_def, dnLabel.eq_def]
    exact .nil
  | case4 hne c dn ih =>
    rw [takeLabel.eq_def, dnLabel.eq_def]
    exact (ih _ _).cons
  | case5 c dn hdot hback ih =>
    rw [takeLabel_cons hdot hback, dnLabel.eq_def]
    simp only [if_neg hdot, if_neg hback]
    exact (ih _ _).cons

theorem length_takeLabel (dn : List Byte) (hne : dn ≠ []) :
    (takeLabel dn).2.length < dn.length := by
  induction dn using takeLabel.induct with
  | case1 => exact absurd rfl hne
  | case2 dn => simp [takeLabel_dot]
  | case3 => simp [takeLabel.eq_def]
  | case4 c dn hdot ih =>
    rw [takeLabel.eq_def]
    simp only [if_neg hdot, if_true, List.length_cons]
    by_cases hnil : dn = []
    · simp [hnil]
    · exact (ih hnil).trans (by omega)
  | case5 c dn hdot hback ih =>
    rw [takeLabel_cons hdot hback, List.length_cons]
    by_cases hnil : dn = []
    · simp [hnil]
    · exact (ih hnil).trans (by omega)

theorem takeLabel_subset (dn : List Byte) :
    (takeLabel dn).1 ⊆ dn ∧ (takeLabel dn).2 ⊆ dn := by
  induction dn using takeLabel.induct with
  | case1 => simp
  | case2 dn => simp [takeLabel_dot]
  | case3 => simp [takeLabel.eq_def]
  | case4 c dn hdot ih =>
    rw [takeLabel.eq_def]
    simp only [if_neg hdot, if_true]
    refine ⟨List.cons_subset.2 ⟨by simp, fun x hx => ?_⟩, fun x hx => ?_⟩
    · simp [ih.1 hx]
    · simp [ih.2 hx]
  | case5 c dn hdot hback ih =>
    rw [takeLabel_cons hdot hback]
    exact ⟨List.cons_subset_cons _ ih.1, fun x hx => List.mem_cons_of_mem _ (ih.2 hx)⟩

/-- The first suffix of a text that is in the message already: how many bytes the labels before
it take, and where it is. -/
def firstFound (mem : Nat → Byte) (ptrs : List Nat) : Nat → List Byte → Option (Nat × Nat)
  | 0, _ => none
  | fuel + 1, dn =>
    if dn = [] then none
    else
      match dnFind mem ptrs dn with
      | some (some q) => some (0, q)
      | _ => (firstFound mem ptrs fuel (takeLabel dn).2).map fun (k, q) =>
          ((takeLabel dn).1.length + 1 + k, q)

def saved (last : Option Nat) (ptrs : List Nat) (cp : Nat) : List Nat :=
  if Saves last ptrs then [cp] else []

theorem append_saved (last : Option Nat) (ptrs : List Nat) (cp : Nat) :
    (if Saves last ptrs then ptrs ++ [cp] else ptrs) = ptrs ++ saved last ptrs cp := by
  unfold saved
  split <;> simp

theorem eq_of_mem_saved {last : Option Nat} {ptrs : List Nat} {cp e : Nat}
    (h : e ∈ saved last ptrs cp) : e = cp := by
  unfold saved at h
  split at h <;> simp_all

/-- The outcome of compressing the text `dn` at `cp`, in a name that starts at `b`: the place
denotes the text, and so do the new entries what follows them; or the call fails and the list
is as before it. -/
structure Compressed (b eob : Nat) (lpp : List Nat) (mem : Nat → Byte) (ptrs : List Nat)
    (cp : Nat) (dn : List Byte) (c : Comp) : Prop where
  same : ∀ i < cp, c.mem i = mem i
  failed : c.cp = none → c.ptrs = lpp
  denotes : ∀ e ∈ c.cp, e ≤ eob ∧ ∃ ls ls' new, Parses dn ls ∧ lower ls' = lower ls ∧
    Denotes c.mem b e cp ls' ∧ c.ptrs = ptrs ++ new ∧ ∀ x ∈ new, ∃ ls, Denotes c.mem b e x ls

theorem dnFinish_compressed {lpp ptrs : List Nat} {cp : Nat} (hb : b ≤ cp)
    (hdn : takeLabel dn = ([], [])) {new : List Nat} (hnew : ∀ x ∈ new, x = cp) :
    Compressed b eob lpp mem ptrs cp dn (dnFinish eob lpp mem (ptrs ++ new) cp) := by
  unfold dnFinish
  by_cases hle : eob ≤ cp
  · rw [if_pos hle]
    exact ⟨fun _ _ => rfl, fun _ => rfl, by simp⟩
  rw [if_neg hle]
  have hroot : Denotes (store mem cp [0]) b (cp + 1) cp [] :=
    .root hb (by simp [store])
  refine ⟨fun i hi => store_of_lt hi, by simp, ?_⟩
  rintro e ⟨⟩
  refine ⟨by omega, [], [], new, .root hdn, rfl, hroot, rfl, fun x hx => ?_⟩
  rw [hnew x hx]
  exact ⟨[], hroot⟩

theorem pointer_compressed {lpp ptrs : List Nat} {cp b' hi' : Nat} (hb : b ≤ cp)
    (hroom : ¬ eob ≤ cp + 1) (hq : q < 2 ^ 14) (hd : Denotes mem b' hi' q ls) (hle : hi' ≤ b)
    (hmatch : matchName ls dn = true) (hne : dn ≠ []) :
    Compressed b eob lpp mem ptrs cp dn
      ⟨store mem cp [UInt8.ofNat ((q >>> 8) ||| indirMask), UInt8.ofNat (q % 256)], ptrs,
        some (cp + 2)⟩ := by
  refine ⟨fun i hi => store_of_lt hi, by simp, ?_⟩
  rintro e ⟨⟩
  obtain ⟨ls', hparse, hlow⟩ := parses_of_matchName hd.isLabel hmatch
  have hls : ls ≠ [] := by
    rintro rfl
    exact hne (by simpa [matchName] using hmatch)
  refine ⟨by omega, ls', ls, [], hparse, hlow.symm, ?_, by simp, by simp⟩
  refine .pointer hb hq ?_ ?_ hle hls (hd.congr fun i hi => store_of_lt (by omega))
  · simp [store]
  · simp [store]

theorem Compressed.label {lpp ptrs new : List Nat} {cp : Nat} {c : Comp}
    (h : Compressed b eob lpp (store (store mem (cp + 1) l) cp [UInt8.ofNat l.length])
      (ptrs ++ new) (cp + 1 + l.length) r c)
    (hb : b ≤ cp) (hdn : takeLabel dn = (l, r)) (hl : IsLabel l) (hnew : ∀ x ∈ new, x = cp) :
    Compressed b eob lpp mem ptrs cp dn c := by
  refine ⟨fun i hi => ?_, h.failed, fun e he => ?_⟩
  · rw [h.same i (by omega), store_of_lt hi, store_of_lt (by omega)]
  obtain ⟨hle, ls, ls', new', hparse, hlow, hd, hptrs, hnew'⟩ := h.denotes e he
  have hlen : c.mem cp = UInt8.ofNat l.length := by
    rw [h.same cp (by omega)]
    simp [store]
  have hbytes : slice c.mem (cp + 1) l.length = l := by
    rw [slice_congr fun k _ hk => h.same k hk]
    have hkeep : slice (store (store mem (cp + 1) l) cp [UInt8.ofNat l.length]) (cp + 1) l.length =
        slice (store mem (cp + 1) l) (cp + 1) l.length := by
      refine slice_congr fun k hk _ => ?_
      obtain ⟨j, rfl⟩ := Nat.exists_eq_add_of_le hk
      have hnot : ¬ cp + 1 + j < cp := by omega
      have hsub : cp + 1 + j - cp = j + 1 := by omega
      rw [store, if_neg hnot, hsub, List.getD_cons_succ, List.getD_nil]
    rw [hkeep, slice_store]
  have hcp : Denotes c.mem b e cp (l :: ls') := .label hb hl hlen hbytes hd
  have hne : l ≠ [] := List.length_pos_iff.1 hl.1
  refine ⟨hle, l :: ls, l :: ls', new ++ new', .label hdn hne hparse, ?_, hcp, ?_, ?_⟩
  · simp only [lower, List.map_cons] at hlow ⊢
    rw [hlow]
  · rw [hptrs, List.append_assoc]
  · intro x hx
    rcases List.mem_append.1 hx with hx | hx
    · rw [hnew x hx]
      exact ⟨_, hcp⟩
    · exact hnew' x hx

theorem dnLoop_compressed (last : Option Nat) {lpp : List Nat} {mem₀ : Nat → Byte}
    (hentries : Entries mem₀ b lpp) (hturns : b ≤ turns) {fuel : Nat} {ptrs : List Nat} {cp : Nat}
    (hsame : ∀ i < b, mem i = mem₀ i) (hb : b ≤ cp) (hcp : cp ≤ eob)
    (hkeep : cp = b → ptrs = lpp) (h0 : 0 ∉ dn) (hfuel : dn.length < fuel)
    (hfit : ∀ k q, firstFound mem₀ lpp fuel dn = some (k, q) → cp + k ≤ eob →
      q < 2 ^ 14 ∧ (cp + k = b ∨ cp + k + 2 ≤ eob)) :
    ∃ c, dnLoop last eob lpp fuel mem ptrs cp dn = some c ∧
      Compressed b eob lpp mem ptrs cp dn c := by
  induction fuel generalizing mem ptrs cp dn with
  | zero => exact absurd hfuel (by omega)
  | succ fuel ih =>
    rw [dnLoop]
    by_cases hnil : dn = []
    · rw [if_pos hnil]
      have hdone : Compressed b eob lpp mem ptrs cp dn (dnFinish eob lpp mem (ptrs ++ []) cp) :=
        dnFinish_compressed hb (by rw [hnil, takeLabel_nil]) (by simp)
      rw [List.append_nil] at hdone
      exact ⟨_, rfl, hdone⟩
    rw [if_neg hnil]
    rw [firstFound, if_neg hnil] at hfit
    have hentries' : Entries mem b lpp := hentries.congr hsame
    obtain ⟨o, ho, hspec⟩ := dnFind_spec hentries' hturns
    rw [← dnFind_congr hentries hturns hsame, ho] at hfit
    rw [ho]
    cases o with
    | some q =>
      obtain ⟨hq, hroom⟩ := hfit 0 q rfl hcp
      obtain ⟨b', hi', ls, hd, hle, hmatch⟩ := hspec q rfl
      by_cases hfull : eob ≤ cp + 1
      · -- no room for the pointer, and the list was not changed yet
        refine ⟨⟨mem, ptrs, none⟩, by simp [hfull], ⟨fun _ _ => rfl, fun _ => ?_, by simp⟩⟩
        exact hkeep (by omega)
      · exact ⟨_, by simp only [if_neg hfull], pointer_compressed hb hfull hq hd hle hmatch hnil⟩
    | none =>
      simp only [append_saved]
      have hnew := fun x (hx : x ∈ saved last ptrs cp) => eq_of_mem_saved hx
      rcases dnLabel_spec eob dn mem (cp + 1) with ⟨hroom, heq⟩ | ⟨mem', cp', heq, hsame'⟩
      · rw [heq]
        have hlen : cp + 1 + (takeLabel dn).1.length - cp - 1 = (takeLabel dn).1.length := by omega
        simp only [hlen]
        by_cases hroot : (takeLabel dn).1.length = 0 ∧ (takeLabel dn).2 = []
        · have hl : (takeLabel dn).1 = [] := List.length_eq_zero_iff.1 hroot.1
          rw [if_pos hroot, hl, store_nil]
          exact ⟨_, rfl, dnFinish_compressed hb (Prod.ext hl hroot.2) hnew⟩
        rw [if_neg hroot]
        by_cases hbad : (takeLabel dn).1.length = 0 ∨ maxlabel < (takeLabel dn).1.length
        · rw [if_pos hbad]
          refine ⟨_, rfl, ⟨fun i hi => ?_, fun _ => rfl, by simp⟩⟩
          exact store_of_lt (by omega)
        rw [if_neg hbad]
        have hl : IsLabel (takeLabel dn).1 := by
          refine ⟨by omega, by omega, fun c hc hc0 => h0 ?_⟩
          rw [← hc0]
          exact (takeLabel_subset dn).1 hc
        have hless := length_takeLabel dn hnil
        have hpos := hl.1
        have hsame' : ∀ i < b, store (store mem (cp + 1) (takeLabel dn).1) cp
            [UInt8.ofNat (takeLabel dn).1.length] i = mem₀ i := by
          intro i hi
          rw [store_of_lt (by omega), store_of_lt (by omega), hsame i hi]
        have hfit' : ∀ k q, firstFound mem₀ lpp fuel (takeLabel dn).2 = some (k, q) →
            cp + 1 + (takeLabel dn).1.length + k ≤ eob →
            q < 2 ^ 14 ∧ (cp + 1 + (takeLabel dn).1.length + k = b ∨
              cp + 1 + (takeLabel dn).1.length + k + 2 ≤ eob) := by
          intro k q hk hle
          have := hfit ((takeLabel dn).1.length + 1 + k) q (by rw [hk]; rfl) (by omega)
          omega
        obtain ⟨c, hc, hdone⟩ := ih hsame' (by omega) (by omega)
          (fun h => absurd h (by omega)) (fun hmem => h0 ((takeLabel_subset dn).2 hmem)) (by omega) hfit'
        exact ⟨c, hc, hdone.label hb rfl hl hnew⟩
      · rw [heq]
        refine ⟨⟨mem', lpp, none⟩, rfl, ⟨fun i hi => hsame' i (by omega), fun _ => rfl, by simp⟩⟩

end Bsdi.Net
