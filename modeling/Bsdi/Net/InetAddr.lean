import Mathlib.Tactic.Ring

/-!
# Internet addresses as texts

`inet_aton` of `inet_addr.c`. A C string is the list of its characters before the terminator, and a
`u_long` has 32 bits.
-/

namespace Bsdi.Inet

abbrev Byte := UInt8

def isascii (c : Byte) : Bool := c < 128

def isdigit (c : Byte) : Bool := 48 ≤ c ∧ c ≤ 57

def islower (c : Byte) : Bool := 97 ≤ c ∧ c ≤ 122

def isxdigit (c : Byte) : Bool := isdigit c ∨ (65 ≤ c ∧ c ≤ 70) ∨ (97 ≤ c ∧ c ≤ 102)

def isspace (c : Byte) : Bool := (9 ≤ c ∧ c ≤ 13) ∨ c = 32

def dot : Byte := 46

/-- The loop over the digits of a part: the value, and `cp`. -/
def collect (base : UInt32) : UInt32 → List Byte → UInt32 × List Byte
  | val, [] => (val, [])
  | val, c :: cp =>
    if isascii c && isdigit c then collect base (val * base + (c.toUInt32 - 48)) cp
    else if base = 16 && isascii c && isxdigit c then
      collect base ((val <<< 4) + (c.toUInt32 + 10 - (if islower c then 97 else 65))) cp
    else (val, c :: cp)

/-- `0x` is at the start of a number. -/
def hexPrefixed (cp : List Byte) : Bool :=
  cp[0]? = some 48 ∧ (cp[1]? = some 120 ∨ cp[1]? = some 88)

def number (cp : List Byte) : UInt32 × List Byte :=
  if hexPrefixed cp then collect 16 0 (cp.drop 2)
  else if cp[0]? = some 48 then collect 8 0 (cp.drop 1) else collect 10 0 cp

/-- The loop over the parts, of which `left` may still be followed by a dot. -/
def collectParts : Nat → List UInt32 → List Byte → Option (List UInt32 × UInt32 × List Byte)
  | left, parts, cp =>
    match (number cp).2 with
    | 46 :: cp' =>
      match left with
      | 0 => none
      | left + 1 =>
        if 255 < (number cp).1 then none else collectParts left (parts ++ [(number cp).1]) cp'
    | cp' => some (parts, (number cp).1, cp')

def concoct (val : UInt32) : List UInt32 → Option UInt32
  | [] => some val
  | [a] => if 0xffffff < val then none else some (val ||| (a <<< 24))
  | [a, b] => if 0xffff < val then none else some (val ||| ((a <<< 24) ||| (b <<< 16)))
  | a :: b :: c :: _ =>
    if 0xff < val then none else some (val ||| ((a <<< 24) ||| (b <<< 16) ||| (c <<< 8)))

def htonl (x : UInt32) : UInt32 :=
  (x <<< 24) ||| ((x &&& (0xff00 : UInt32)) <<< 8) ||| ((x >>> 8) &&& (0xff00 : UInt32)) |||
    (x >>> 24)

/-- Whether the string is an address, and `*addr`, if there is one. -/
def inetAton (cp : List Byte) (addr : Option UInt32) : Bool × Option UInt32 :=
  let val := do
    let (parts, val, cp) ← collectParts 3 [] cp
    if ∃ c ∈ cp.head?, !isascii c ∨ !isspace c then none else concoct val parts
  match val with
  | none => (false, addr)
  | some val => (true, addr.map fun _ => htonl val)

/-! ## Addresses -/

def digit (c : Byte) : Nat :=
  if isdigit c then c.toNat - 48 else if islower c then c.toNat - 87 else c.toNat - 55

def cbase (t : List Byte) : Nat :=
  if hexPrefixed t then 16 else if t[0]? = some 48 then 8 else 10

def digits (t : List Byte) : List Byte := if hexPrefixed t then t.drop 2 else t

def value (base : Nat) (ds : List Byte) : Nat := ds.foldl (fun v c => v * base + digit c) 0

def IsNumber (t : List Byte) : Prop :=
  digits t ≠ [] ∧ ∀ c ∈ digits t, isxdigit c ∧ digit c < cbase t

def numeral (t : List Byte) : Nat := value (cbase t) (digits t)

def combine (parts : List Nat) (last : Nat) : Nat :=
  parts.foldl (fun a p => a * 256 + p) 0 * 256 ^ (4 - parts.length) + last

/-- The string is one to four numbers with dots between them, the others at most 255 and the last
one below the bound, and white space; the address is what they make up. -/
def Denotes (s : List Byte) (a : Nat) : Prop :=
  ∃ (ts : List (List Byte)) (t rest : List Byte), ts.length ≤ 3 ∧
    (∀ u ∈ ts, IsNumber u ∧ numeral u ≤ 255) ∧ IsNumber t ∧
    numeral t < 256 ^ (4 - ts.length) ∧ (∀ c ∈ rest, isspace c) ∧
    s = ts.flatMap (· ++ [dot]) ++ t ++ rest ∧ a = combine (ts.map numeral) (numeral t)

/-! ## The texts of the parts -/

def text (cp : List Byte) : List Byte :=
  if hexPrefixed cp then cp.take 2 ++ (cp.drop 2).takeWhile isxdigit else cp.takeWhile isdigit

def split : Nat → List Byte → Option (List (List Byte) × List Byte × List Byte)
  | left, cp =>
    match cp.drop (text cp).length with
    | 46 :: cp' =>
      match left with
      | 0 => none
      | left + 1 => (split left cp').map fun (ts, t, rest) => (text cp :: ts, t, rest)
    | rest => some ([], text cp, rest)

/-- The value that is read, modulo the size of a `u_long`. -/
def wrapped (t : List Byte) : UInt32 := (number t).1

def Stops (l : List Byte) : Prop := ∀ c ∈ l.head?, isxdigit c = false ∧ c ≠ 88 ∧ c ≠ 120

variable {s t cp l rest : List Byte} {ts : List (List Byte)} {base val : UInt32} {c : Byte}
  {left : Nat}

/-! ### Digits -/

def taken (base : UInt32) (c : Byte) : Bool := isdigit c || (base = 16 && isxdigit c)

def step (base val : UInt32) (c : Byte) : UInt32 :=
  if isdigit c then val * base + (c.toUInt32 - 48)
  else (val <<< 4) + (c.toUInt32 + 10 - (if islower c then 97 else 65))

theorem isascii_of_isxdigit (h : isxdigit c) : isascii c := by
  simp only [isxdigit, isdigit, isascii, decide_eq_true_eq, UInt8.le_iff_toNat_le,
    UInt8.lt_iff_toNat_lt, UInt8.reduceToNat] at *
  omega

theorem collect_cons (h : taken base c) :
    collect base val (c :: cp) = collect base (step base val c) cp := by
  rw [collect, step]
  by_cases hd : isdigit c
  · have ha := isascii_of_isxdigit (c := c) (by simp [isxdigit, hd])
    simp [hd, ha]
  · have hx : base = 16 ∧ isxdigit c := by simpa [taken, hd] using h
    simp [hd, hx.1, hx.2, isascii_of_isxdigit hx.2]

theorem collect_stop (h : taken base c = false) : collect base val (c :: cp) = (val, c :: cp) := by
  rw [taken, Bool.or_eq_false_iff] at h
  rw [collect, h.1]
  rcases Bool.and_eq_false_iff.1 h.2 with hb | hx
  · simp [hb]
  · simp [hx]

theorem collect_append {ds : List Byte} (hd : ∀ c ∈ ds, taken base c)
    (hl : ∀ c ∈ l.head?, taken base c = false) :
    collect base val (ds ++ l) = ((collect base val ds).1, l) := by
  induction ds generalizing val with
  | nil =>
    cases l with
    | nil => rfl
    | cons c l => exact collect_stop (hl c rfl)
  | cons d ds ih =>
    have htaken := hd d (by simp)
    rw [List.cons_append, collect_cons htaken, collect_cons htaken,
      ih fun c hc => hd c (List.mem_cons_of_mem _ hc)]

theorem step_toNat (h : taken base c) :
    (step base val c).toNat = (val.toNat * base.toNat + digit c) % 2 ^ 32 := by
  have hc : c.toNat < 256 := c.toNat_lt
  rw [step, digit]
  by_cases hd : isdigit c
  · have hle : 48 ≤ c.toNat := by
      simp only [isdigit, decide_eq_true_eq, UInt8.le_iff_toNat_le, UInt8.reduceToNat] at hd
      exact hd.1
    rw [if_pos hd, if_pos hd, UInt32.toNat_add, UInt32.toNat_mul, UInt32.toNat_sub,
      UInt8.toNat_toUInt32]
    simp only [UInt32.reduceToNat]
    omega
  · have hx : base = 16 ∧ isxdigit c := by simpa [taken, hd] using h
    have hrange : 65 ≤ c.toNat ∧ c.toNat ≤ 70 ∨ 97 ≤ c.toNat ∧ c.toNat ≤ 102 := by
      have hx := hx.2
      simp only [isxdigit, hd, Bool.false_eq_true, false_or, decide_eq_true_eq,
        UInt8.le_iff_toNat_le, UInt8.reduceToNat] at hx
      exact hx
    have hlower : islower c = decide (97 ≤ c.toNat) := by
      simp only [islower, UInt8.le_iff_toNat_le, UInt8.reduceToNat, decide_eq_decide]
      omega
    rw [if_neg hd, if_neg hd, hx.1, hlower, UInt32.toNat_add, UInt32.toNat_shiftLeft,
      UInt32.toNat_sub, UInt32.toNat_add, UInt8.toNat_toUInt32]
    simp only [Nat.shiftLeft_eq, decide_eq_true_eq]
    split <;> simp only [UInt32.reduceToNat, Nat.reduceMod, Nat.reducePow] <;> omega

theorem foldl_mod {f : Nat → Byte → Nat} {b m : Nat} (hf : ∀ v c, f v c = v * b + digit c)
    (ds : List Byte) (v : Nat) : ds.foldl f (v % m) % m = ds.foldl f v % m := by
  induction ds generalizing v with
  | nil => exact Nat.mod_mod v m
  | cons c ds ih =>
    rw [List.foldl_cons, List.foldl_cons, ← ih (f (v % m) c), ← ih (f v c)]
    simp [hf, Nat.add_mod, Nat.mul_mod]

theorem collect_value {ds : List Byte} (hd : ∀ c ∈ ds, taken base c) :
    (collect base val ds).1.toNat =
      ds.foldl (fun v c => v * base.toNat + digit c) val.toNat % 2 ^ 32 := by
  induction ds generalizing val with
  | nil => exact (Nat.mod_eq_of_lt val.toNat_lt).symm
  | cons d ds ih =>
    have htaken := hd d (by simp)
    rw [collect_cons htaken, ih fun c hc => hd c (List.mem_cons_of_mem _ hc), step_toNat htaken,
      List.foldl_cons]
    exact foldl_mod (fun _ _ => rfl) ds _

/-! ### Numbers -/

theorem taken_hex : taken 16 c = isxdigit c := by
  by_cases h : isdigit c <;> simp [taken, isxdigit, h]

theorem taken_decimal (h : base ≠ 16) : taken base c = isdigit c := by simp [taken, h]

theorem head_takeWhile (cp : List Byte) :
    (cp.takeWhile isdigit)[0]? = some 48 ↔ cp[0]? = some 48 := by
  cases cp with
  | nil => rfl
  | cons c cp =>
    by_cases h : isdigit c
    · simp [h]
    · have hc : c ≠ 48 := by
        rintro rfl
        exact h (by decide)
      simp [h, hc]

theorem hexPrefixed_takeWhile (cp : List Byte) : hexPrefixed (cp.takeWhile isdigit) = false := by
  have hx : ∀ c, isdigit c = false → (cp.takeWhile isdigit)[1]? ≠ some c := fun c h hc => by
    have := List.all_eq_true.1 List.all_takeWhile c (List.mem_of_getElem? hc)
    rw [h] at this
    cases this
  simp [hexPrefixed, hx 120 (by decide), hx 88 (by decide)]

theorem text_initial (cp : List Byte) : text cp <+: cp := by
  rw [text]
  split
  · refine ⟨(cp.drop 2).dropWhile isxdigit, ?_⟩
    rw [List.append_assoc, List.takeWhile_append_dropWhile, List.take_append_drop]
  · exact List.takeWhile_prefix _

theorem collect_takeWhile (base val : UInt32) (cp : List Byte) :
    collect base val cp = ((collect base val (cp.takeWhile (taken base))).1,
      cp.drop (cp.takeWhile (taken base)).length) := by
  have hdrop : cp.drop (cp.takeWhile (taken base)).length = cp.dropWhile (taken base) := by
    conv_lhs => arg 2; rw [← List.takeWhile_append_dropWhile (p := taken base) (l := cp)]
    exact List.drop_left
  rw [hdrop, ← collect_append (fun c hc => List.all_eq_true.1 List.all_takeWhile c hc)
    (fun c hc => by
      have := List.head?_dropWhile_not (taken base) cp
      rw [Option.mem_def.1 hc] at this
      simpa using this), List.takeWhile_append_dropWhile]

theorem exists_cons_zero (h : cp[0]? = some 48) : ∃ l, cp = 48 :: l := by
  cases cp with
  | nil => exact nomatch h
  | cons c l => exact ⟨l, by simpa using h⟩

theorem number_eq (cp : List Byte) : number cp = (wrapped (text cp), cp.drop (text cp).length) := by
  have hx : taken 16 = isxdigit := funext fun c => taken_hex
  have h8 : taken 8 = isdigit := funext fun c => taken_decimal (by decide)
  have h10 : taken 10 = isdigit := funext fun c => taken_decimal (by decide)
  by_cases hhex : hexPrefixed cp
  · match cp, hhex with
    | [a], hhex => simp [hexPrefixed] at hhex
    | a :: b :: l, hhex =>
      have htext : text (a :: b :: l) = a :: b :: l.takeWhile isxdigit := by
        rw [text, if_pos hhex]
        rfl
      rw [htext, wrapped, number, number, if_pos hhex,
        if_pos (show hexPrefixed (a :: b :: l.takeWhile isxdigit) from hhex), ← hx]
      exact collect_takeWhile 16 0 l
  · have htext : text cp = cp.takeWhile isdigit := if_neg hhex
    rw [htext, wrapped, number, number, if_neg hhex, hexPrefixed_takeWhile,
      if_neg Bool.false_ne_true]
    simp only [head_takeWhile]
    by_cases hzero : cp[0]? = some 48
    · rw [if_pos hzero, if_pos hzero]
      obtain ⟨l, rfl⟩ := exists_cons_zero hzero
      rw [List.takeWhile_cons_of_pos (by decide), ← h8]
      exact collect_takeWhile 8 0 l
    · rw [if_neg hzero, if_neg hzero, ← h10]
      exact collect_takeWhile 10 0 cp

theorem isdigit_of_digit (h : isxdigit c) (hlt : digit c < 10) : isdigit c := by
  by_contra hd
  have hc : c.toNat < 256 := c.toNat_lt
  simp only [isxdigit, hd, false_or, decide_eq_true_eq, UInt8.le_iff_toNat_le,
    UInt8.reduceToNat] at h
  rw [digit, if_neg hd] at hlt
  simp only [islower, decide_eq_true_eq, UInt8.le_iff_toNat_le, UInt8.reduceToNat] at hlt
  split at hlt <;> omega

theorem wrapped_toNat (h : IsNumber t) : (wrapped t).toNat = numeral t % 2 ^ 32 := by
  obtain ⟨-, hall⟩ := h
  by_cases hhex : hexPrefixed t
  · simp only [digits, cbase, if_pos hhex] at hall
    rw [wrapped, number, numeral, value, cbase, digits, if_pos hhex, if_pos hhex, if_pos hhex,
      collect_value fun c hc => by rw [taken_hex]; exact (hall c hc).1]
    rfl
  · simp only [digits, cbase, if_neg hhex] at hall
    rw [wrapped, number, numeral, value, cbase, digits, if_neg hhex, if_neg hhex, if_neg hhex]
    by_cases hzero : t[0]? = some 48
    · obtain ⟨l, rfl⟩ := exists_cons_zero hzero
      rw [if_pos hzero] at hall
      rw [if_pos hzero, if_pos hzero, List.drop_one, List.tail_cons, collect_value fun c hc => by
        have hc := hall c (List.mem_cons_of_mem _ hc)
        rw [taken_decimal (by decide)]
        exact isdigit_of_digit hc.1 (by omega)]
      rfl
    · rw [if_neg hzero] at hall
      rw [if_neg hzero, if_neg hzero, collect_value fun c hc => by
        rw [taken_decimal (by decide)]
        exact isdigit_of_digit (hall c hc).1 (hall c hc).2]
      rfl

theorem IsNumber.text_append (h : IsNumber t) (hl : Stops l) : text (t ++ l) = t := by
  obtain ⟨hne, hall⟩ := h
  have hpos : 0 < t.length := by
    cases t with
    | nil => exact absurd rfl hne
    | cons c t => simp
  have hhead : hexPrefixed (t ++ l) = hexPrefixed t := by
    rw [hexPrefixed, hexPrefixed, List.getElem?_append_left hpos]
    by_cases hlen : 1 < t.length
    · rw [List.getElem?_append_left hlen]
    · have hnone : t[1]? = none := List.getElem?_eq_none (by omega)
      have hone : 1 - t.length = 0 := by omega
      rw [List.getElem?_append_right (by omega), hone, hnone]
      cases l with
      | nil => rfl
      | cons d l =>
        obtain ⟨-, hX, hx⟩ := hl d rfl
        simp [hX, hx]
  have hstop : ∀ p : Byte → Bool, (∀ c, p c → isxdigit c) → l.takeWhile p = [] := fun p hp => by
    cases l with
    | nil => rfl
    | cons d l =>
      have hd := (hl d rfl).1
      refine List.takeWhile_cons_of_neg fun h => ?_
      rw [hp d h] at hd
      exact nomatch hd
  rw [text, hhead]
  split
  · rename_i hhex
    simp only [digits, if_pos hhex] at hne hall
    have hlen : 2 ≤ t.length := by
      by_contra hlt
      exact hne (List.drop_of_length_le (by omega))
    rw [List.take_append_of_le_length hlen, List.drop_append_of_le_length hlen,
      List.takeWhile_append_of_pos fun c hc => (hall c hc).1, hstop _ fun _ => id, List.append_nil,
      List.take_append_drop]
  · rename_i hhex
    simp only [digits, cbase, if_neg hhex] at hall
    have hdigit : ∀ c ∈ t, isdigit c := fun c hc => by
      refine isdigit_of_digit (hall c hc).1 ((hall c hc).2.trans_le ?_)
      split <;> decide
    rw [List.takeWhile_append_of_pos hdigit, hstop _ fun c h => by simp [isxdigit, h],
      List.append_nil]

/-! ### The parts -/

theorem split_zero (h : cp.drop (text cp).length = dot :: l) : split 0 cp = none := by
  rw [split, h]
  rfl

theorem split_succ (h : cp.drop (text cp).length = dot :: l) : split (left + 1) cp =
    (split left l).map fun (ts, t, rest) => (text cp :: ts, t, rest) := by
  rw [split, h]
  rfl

theorem split_end (h : ∀ cp', cp.drop (text cp).length ≠ dot :: cp') :
    split left cp = some ([], text cp, cp.drop (text cp).length) := by
  unfold split
  split
  · rename_i heq
    exact absurd heq (h _)
  · rfl

theorem append_drop (cp : List Byte) : text cp ++ cp.drop (text cp).length = cp :=
  List.prefix_iff_eq_append.1 (text_initial cp)

theorem split_join (h : split left cp = some (ts, t, rest)) :
    ts.length ≤ left ∧ cp = ts.flatMap (· ++ [dot]) ++ t ++ rest := by
  induction left, cp using split.induct generalizing ts with
  | case1 cp l hdot =>
    rw [split_zero hdot] at h
    cases h
  | case2 cp l hdot left ih =>
    rw [split_succ hdot] at h
    obtain ⟨⟨ts', t', rest'⟩, hsplit, heq⟩ := Option.map_eq_some_iff.1 h
    simp only [Prod.mk.injEq] at heq
    obtain ⟨rfl, rfl, rfl⟩ := heq
    obtain ⟨hlen, rfl⟩ := ih hsplit
    refine ⟨Nat.succ_le_succ hlen, ?_⟩
    conv_lhs => rw [← append_drop cp, hdot]
    simp [dot]
  | case3 left cp hdot =>
    rw [split_end hdot] at h
    simp only [Option.some.injEq, Prod.mk.injEq] at h
    obtain ⟨rfl, rfl, rfl⟩ := h
    exact ⟨Nat.zero_le _, (append_drop cp).symm⟩

theorem stops_space (h : ∀ c ∈ rest, isspace c) : Stops rest ∧ ∀ l, rest ≠ dot :: l := by
  have hspace : ∀ c, isspace c → isxdigit c = false ∧ c ≠ 88 ∧ c ≠ 120 ∧ c ≠ dot := by
    intro c hc
    refine ⟨?_, by rintro rfl; exact absurd hc (by decide),
      by rintro rfl; exact absurd hc (by decide), by rintro rfl; exact absurd hc (by decide)⟩
    rw [← Bool.not_eq_true]
    intro hx
    simp only [isspace, isxdigit, isdigit, decide_eq_true_eq, UInt8.le_iff_toNat_le,
      ← UInt8.toNat_inj, UInt8.reduceToNat] at hc hx
    omega
  constructor
  · intro c hc
    have := hspace c (h c (List.mem_of_mem_head? hc))
    exact ⟨this.1, this.2.1, this.2.2.1⟩
  · rintro l rfl
    exact (hspace dot (h dot (by simp))).2.2.2 rfl

theorem split_numbers (hts : ∀ u ∈ ts, IsNumber u) (ht : IsNumber t) (hrest : ∀ c ∈ rest, isspace c)
    (hlen : ts.length ≤ left) :
    split left (ts.flatMap (· ++ [dot]) ++ t ++ rest) = some (ts, t, rest) := by
  obtain ⟨hstops, hdot⟩ := stops_space hrest
  induction ts generalizing left with
  | nil =>
    have htext := ht.text_append hstops
    rw [List.flatMap_nil, List.nil_append, split_end (by rwa [htext, List.drop_left]), htext,
      List.drop_left]
  | cons u ts ih =>
    obtain ⟨left, rfl⟩ := Nat.exists_eq_succ_of_ne_zero (by simp at hlen; omega : left ≠ 0)
    have hstop : Stops (dot :: (ts.flatMap (· ++ [dot]) ++ t ++ rest)) := by
      rintro c ⟨⟩
      decide
    have hcp : (u :: ts).flatMap (· ++ [dot]) ++ t ++ rest =
        u ++ dot :: (ts.flatMap (· ++ [dot]) ++ t ++ rest) := by simp
    have htext := (hts u (by simp)).text_append hstop
    rw [hcp, split_succ (by rw [htext, List.drop_left]), htext,
      ih (fun v hv => hts v (List.mem_cons_of_mem _ hv)) (Nat.le_of_succ_le_succ hlen)]
    rfl

theorem collectParts_eq (left : Nat) (parts : List UInt32) (cp : List Byte) :
    collectParts left parts cp = (split left cp).bind fun (ts, t, rest) =>
      if ∀ u ∈ ts, wrapped u ≤ 255 then some (parts ++ ts.map wrapped, wrapped t, rest)
      else none := by
  induction left, cp using split.induct generalizing parts with
  | case1 cp l hdot =>
    rw [split_zero hdot, collectParts, number_eq]
    dsimp only
    rw [hdot]
    rfl
  | case2 cp l hdot left ih =>
    rw [split_succ hdot, collectParts, number_eq]
    dsimp only
    rw [hdot]
    change (if 255 < wrapped (text cp) then none else collectParts left _ l) = _
    rw [ih]
    cases split left l with
    | none => simp
    | some p =>
      by_cases hbig : 255 < wrapped (text cp)
      · simp [hbig, UInt32.not_le.2 hbig]
      · simp [hbig, UInt32.not_lt.1 hbig]
  | case3 left cp hdot =>
    rw [split_end hdot]
    unfold collectParts
    rw [number_eq]
    split
    · rename_i heq
      exact absurd heq (hdot _)
    · simp

theorem or_shiftLeft {x n : Nat} (y : Nat) (h : x < 2 ^ n) : y <<< n ||| x = y * 2 ^ n + x := by
  rw [← Nat.shiftLeft_add_eq_or_of_lt h, Nat.shiftLeft_eq]

theorem shiftLeft_toNat {p : UInt32} (h : p ≤ 255) {n : UInt32} (hn : n.toNat ≤ 24) :
    (p <<< n).toNat = p.toNat <<< n.toNat := by
  have hp : p.toNat ≤ 255 := UInt32.le_iff_toNat_le.1 h
  have hpow : 2 ^ n.toNat ≤ 2 ^ 24 := Nat.pow_le_pow_right (by decide) hn
  rw [UInt32.toNat_shiftLeft, Nat.mod_eq_of_lt (show n.toNat < 32 by omega), Nat.mod_eq_of_lt]
  rw [Nat.shiftLeft_eq]
  calc p.toNat * 2 ^ n.toNat ≤ 255 * 2 ^ 24 := Nat.mul_le_mul hp hpow
    _ < 2 ^ 32 := by decide

theorem concoct_eq {parts : List UInt32} {v : UInt32} (hlen : parts.length ≤ 3)
    (hparts : ∀ p ∈ parts, p ≤ 255) :
    concoct v parts = if v.toNat < 256 ^ (4 - parts.length) then
      some (UInt32.ofNat (combine (parts.map UInt32.toNat) v.toNat)) else none := by
  have hv := v.toNat_lt
  have hnat : ∀ p ∈ parts, p.toNat ≤ 255 := fun p hp => UInt32.le_iff_toNat_le.1 (hparts p hp)
  have h24 : ∀ p ∈ parts, (p <<< 24).toNat = p.toNat <<< 24 := fun p hp =>
    shiftLeft_toNat (hparts p hp) (by decide)
  have h16 : ∀ p ∈ parts, (p <<< 16).toNat = p.toNat <<< 16 := fun p hp =>
    shiftLeft_toNat (hparts p hp) (by decide)
  have h8 : ∀ p ∈ parts, (p <<< 8).toNat = p.toNat <<< 8 := fun p hp =>
    shiftLeft_toNat (hparts p hp) (by decide)
  have hcongr : ∀ {w : UInt32} {n : Nat}, n < 2 ^ 32 → w.toNat = n → some w = some (.ofNat n) :=
    fun hn hw => by rw [← UInt32.toNat_inj.1 (hw.trans (UInt32.toNat_ofNat_of_lt' hn).symm)]
  match parts, hlen with
  | [], _ => simp [concoct, combine, hv]
  | [a], _ =>
    have ha := hnat a (by simp)
    simp only [concoct, combine, UInt32.lt_iff_toNat_lt, UInt32.reduceToNat, List.length_singleton,
      List.map_cons, List.map_nil, List.foldl_cons, List.foldl_nil]
    by_cases hle : v.toNat < 256 ^ 3
    · rw [if_neg (by omega), if_pos hle]
      apply hcongr (by omega)
      rw [UInt32.toNat_or, h24 a (by simp), Nat.or_comm, or_shiftLeft _ hle]
      omega
    · rw [if_pos (by omega), if_neg hle]
  | [a, b], _ =>
    have ha := hnat a (by simp)
    have hb := hnat b (by simp)
    simp only [concoct, combine, UInt32.lt_iff_toNat_lt, UInt32.reduceToNat, List.length_cons,
      List.length_nil, List.map_cons, List.map_nil, List.foldl_cons, List.foldl_nil]
    by_cases hle : v.toNat < 256 ^ 2
    · rw [if_neg (by omega), if_pos hle]
      apply hcongr (by omega)
      rw [UInt32.toNat_or, UInt32.toNat_or, h24 a (by simp), h16 b (by simp), Nat.or_comm,
        Nat.or_assoc, or_shiftLeft (n := 16) _ hle, or_shiftLeft (n := 24) _ (by omega)]
      omega
    · rw [if_pos (by omega), if_neg hle]
  | [a, b, c], _ =>
    have ha := hnat a (by simp)
    have hb := hnat b (by simp)
    have hc := hnat c (by simp)
    simp only [concoct, combine, UInt32.lt_iff_toNat_lt, UInt32.reduceToNat, List.length_cons,
      List.length_nil, List.map_cons, List.map_nil, List.foldl_cons, List.foldl_nil]
    by_cases hle : v.toNat < 256 ^ 1
    · rw [if_neg (by omega), if_pos hle]
      apply hcongr (by omega)
      rw [UInt32.toNat_or, UInt32.toNat_or, UInt32.toNat_or, h24 a (by simp), h16 b (by simp),
        h8 c (by simp), Nat.or_comm, Nat.or_assoc, Nat.or_assoc, or_shiftLeft (n := 8) _ hle,
        or_shiftLeft (n := 16) _ (by omega), or_shiftLeft (n := 24) _ (by omega)]
      omega
    · rw [if_pos (by omega), if_neg hle]

/-! ## What is accepted -/

/-- The string is cut into at most four numbers, of which the code finds nothing wrong: white space
or nothing is behind them, and what is read of them, modulo the size of a word, is below the
bounds. -/
def Passes (s : List Byte) (ts : List (List Byte)) (t rest : List Byte) : Prop :=
  split 3 s = some (ts, t, rest) ∧ (∀ c ∈ rest.head?, isspace c) ∧ (∀ u ∈ ts, wrapped u ≤ 255) ∧
    (wrapped t).toNat < 256 ^ (4 - ts.length)

theorem isascii_of_isspace (h : isspace c) : isascii c := by
  simp only [isspace, isascii, decide_eq_true_eq, UInt8.le_iff_toNat_le, UInt8.lt_iff_toNat_lt,
    ← UInt8.toNat_inj, UInt8.reduceToNat] at *
  omega

theorem inetAton_cases (s : List Byte) (addr : Option UInt32) :
    (∃ ts t rest, Passes s ts t rest ∧ inetAton s addr = (true, addr.map fun _ =>
      htonl (.ofNat (combine (ts.map fun u => (wrapped u).toNat) (wrapped t).toNat)))) ∨
      (∀ ts t rest, ¬ Passes s ts t rest) ∧ inetAton s addr = (false, addr) := by
  rw [inetAton, collectParts_eq]
  cases hsplit : split 3 s with
  | none => exact .inr ⟨fun ts t rest h => by simp [Passes, hsplit] at h, rfl⟩
  | some p =>
    obtain ⟨ts, t, rest⟩ := p
    have honly : ∀ ts' t' rest', Passes s ts' t' rest' → Passes s ts t rest := by
      rintro ts' t' rest' h
      obtain ⟨rfl, rfl, rfl⟩ : ts = ts' ∧ t = t' ∧ rest = rest' := by simpa [hsplit] using h.1
      exact h
    have hspace : (∃ c ∈ rest.head?, !isascii c ∨ !isspace c) ↔ ¬ ∀ c ∈ rest.head?, isspace c := by
      constructor
      · rintro ⟨c, hc, hbad⟩ hall
        simp [hall c hc, isascii_of_isspace (hall c hc)] at hbad
      · intro h
        by_contra hno
        exact h fun c hc => by
          by_contra hbad
          exact hno ⟨c, hc, .inr (by simpa using hbad)⟩
    simp only [Option.bind_eq_bind, Option.bind_some, List.nil_append]
    by_cases hts : ∀ u ∈ ts, wrapped u ≤ 255
    · have hlen := (split_join hsplit).1
      rw [if_pos hts]
      simp only [Option.bind_some, hspace]
      rw [concoct_eq (by simpa using hlen) (by simpa using hts), List.length_map, List.map_map]
      by_cases hpass : (∀ c ∈ rest.head?, isspace c) ∧ (wrapped t).toNat < 256 ^ (4 - ts.length)
      · refine .inl ⟨ts, t, rest, ⟨hsplit, hpass.1, hts, hpass.2⟩, ?_⟩
        rw [if_neg (not_not_intro hpass.1), if_pos hpass.2]
        rfl
      · refine .inr ⟨fun ts' t' rest' h => hpass ⟨(honly _ _ _ h).2.1, (honly _ _ _ h).2.2.2⟩, ?_⟩
        rcases not_and_or.1 hpass with h | h
        · rw [if_pos h]
        · rw [if_neg h, ite_self]
    · rw [if_neg hts]
      exact .inr ⟨fun ts' t' rest' h => hts (honly _ _ _ h).2.2.1, rfl⟩

theorem Denotes.passes {a : Nat} (h : Denotes s a) : ∃ ts t rest, Passes s ts t rest ∧
    (∀ u ∈ ts ++ [t], IsNumber u ∧ numeral u < 2 ^ 32) ∧ (∀ c ∈ rest, isspace c) ∧
    a = combine (ts.map fun u => (wrapped u).toNat) (wrapped t).toNat := by
  obtain ⟨ts, t, rest, hlen, hts, ht, hlt, hrest, rfl, rfl⟩ := h
  have hpow : 256 ^ (4 - ts.length) ≤ 2 ^ 32 :=
    (Nat.pow_le_pow_right (by decide) (Nat.sub_le 4 _)).trans (by decide)
  have hwrap : ∀ u, IsNumber u → numeral u < 2 ^ 32 → (wrapped u).toNat = numeral u :=
    fun u h h' => by rw [wrapped_toNat h, Nat.mod_eq_of_lt h']
  have hval := hwrap t ht (hlt.trans_le hpow)
  have hvals : ∀ u ∈ ts, (wrapped u).toNat = numeral u := fun u hu =>
    hwrap u (hts u hu).1 ((hts u hu).2.trans_lt (by decide))
  refine ⟨ts, t, rest, ⟨split_numbers (fun u hu => (hts u hu).1) ht hrest hlen,
    fun c hc => hrest c (List.mem_of_mem_head? hc), fun u hu => ?_, by rwa [hval]⟩, ?_, hrest, ?_⟩
  · rw [UInt32.le_iff_toNat_le, hvals u hu]
    exact (hts u hu).2
  · simp only [List.mem_append, List.mem_singleton]
    rintro u (hu | rfl)
    · exact ⟨(hts u hu).1, (hts u hu).2.trans_lt (by decide)⟩
    · exact ⟨ht, hlt.trans_le hpow⟩
  · rw [hval, List.map_congr_left hvals]

theorem Passes.denotes (h : Passes s ts t rest)
    (hnum : ∀ u ∈ ts ++ [t], IsNumber u ∧ numeral u < 2 ^ 32) (hrest : ∀ c ∈ rest, isspace c) :
    Denotes s (combine (ts.map fun u => (wrapped u).toNat) (wrapped t).toNat) := by
  obtain ⟨hsplit, -, hts, hlt⟩ := h
  obtain ⟨hlen, hs⟩ := split_join hsplit
  have hwrap : ∀ u ∈ ts ++ [t], (wrapped u).toNat = numeral u := fun u hu => by
    rw [wrapped_toNat (hnum u hu).1, Nat.mod_eq_of_lt (hnum u hu).2]
  have hval := hwrap t (by simp)
  rw [hval] at hlt
  refine ⟨ts, t, rest, hlen, fun u hu => ⟨(hnum u (by simp [hu])).1, ?_⟩, (hnum t (by simp)).1, hlt,
    hrest, hs, ?_⟩
  · rw [← hwrap u (by simp [hu])]
    exact UInt32.le_iff_toNat_le.1 (hts u hu)
  · rw [hval, List.map_congr_left fun u hu => hwrap u (by simp [hu])]

end Bsdi.Inet
