import Bsdi.Lib.Memory
import Bsdi.Lib.Numerals

/-!
# Archive members

What pax keeps of a member of an archive (`ARCHD`, with the part of `struct stat` the formats
store), and the conversions of `gen_subs.c` and `tar.c` between numbers, names and header
fields. A `u_long` has 32 bits and a `u_quad_t` 64.
-/

namespace Bsdi.Pax

open Lib

abbrev Chr := UInt8

def paxpathlen : Nat := 3072

/-- The values of `type` in an `ARCHD`. -/
inductive PaxType
  | dir | chr | blk | reg | slk | sck | fif | hlk | hrg | ctg
  deriving DecidableEq, Repr

/-- The fields of `struct stat`; times and sizes as their bits. -/
structure Stat where
  dev : UInt32
  ino : UInt32
  mode : UInt16
  nlink : UInt16
  uid : UInt32
  gid : UInt32
  rdev : UInt32
  size : UInt64
  mtime : UInt32

/-- `ARCHD`. Names are character arrays with a terminating zero. -/
structure Archd where
  nlen : Nat
  name : Nat → Chr
  lnNlen : Nat
  lnName : Nat → Chr
  sb : Stat
  pad : Nat
  skip : UInt64
  crc : UInt32
  type : PaxType

def Archd.path (a : Archd) : List Chr := slice a.name 0 a.nlen

def Archd.link (a : Archd) : List Chr := slice a.lnName 0 a.lnNlen

/-- Names are as long as the lengths say. -/
structure Archd.Named (a : Archd) : Prop where
  nlen : a.nlen ≤ paxpathlen
  path : 0 ∉ a.path
  ends : a.name a.nlen = 0
  lnNlen : a.lnNlen ≤ paxpathlen
  link : 0 ∉ a.link
  lnEnds : a.lnName a.lnNlen = 0

def major (x : UInt32) : Nat := x.toNat / 2 ^ 20 % 2 ^ 12

def minor (x : UInt32) : Nat := x.toNat % 2 ^ 20

def todev (x y : Nat) : UInt32 := UInt32.ofNat (x <<< 20 ||| y)

theorem todev_major_minor (x : UInt32) : todev (major x) (minor x) = x := by
  have hlt := x.toNat_lt
  have hmajor : major x = x.toNat / 2 ^ 20 := by
    rw [major, Nat.mod_eq_of_lt]
    omega
  have hminor : minor x < 2 ^ 20 := Nat.mod_lt _ (by decide)
  rw [todev, hmajor, Nat.shiftLeft_eq, Nat.mul_comm, ← Nat.two_pow_add_eq_or_of_lt hminor, minor,
    Nat.div_add_mod, UInt32.ofNat_toNat]

def octal : Digits Chr where
  base := 8
  digit d := UInt8.ofNat (48 + d)
  value ch := if 48 ≤ ch ∧ ch ≤ 55 then some (ch.toNat - 48) else none
  skip ch := ch == 32 || ch == 48

def hex : Digits Chr where
  base := 16
  digit d := if d < 10 then UInt8.ofNat (48 + d) else UInt8.ofNat (97 + (d - 10))
  value ch :=
    if 48 ≤ ch ∧ ch ≤ 57 then some (ch.toNat - 48)
    else if 65 ≤ ch ∧ ch ≤ 70 then some (10 + (ch.toNat - 65))
    else if 97 ≤ ch ∧ ch ≤ 102 then some (10 + (ch.toNat - 97))
    else none
  skip ch := ch == 32 || ch == 48

theorem octal_lawful : octal.Lawful where
  base := by decide
  value_digit := by decide
  skip_zero := by decide
  skip_digit := by decide

theorem hex_lawful : hex.Lawful where
  base := by decide
  value_digit := by decide
  skip_zero := by decide
  skip_digit := by decide

/-- `asc_ul(str, len, base)` on the characters of a field. -/
def ascUl (base : Digits Chr) (field : List Chr) : UInt32 :=
  UInt32.ofNat (readNumeral base (2 ^ 32) field)

/-- `asc_uqd(str, len, base)` on the characters of a field. -/
def ascUqd (base : Digits Chr) (field : List Chr) : UInt64 :=
  UInt64.ofNat (readNumeral base (2 ^ 64) field)

/-- `ul_asc(val, str, len, base)` and `uqd_asc`: the field, or nothing when the number does not
fit. -/
def ulAsc (base : Digits Chr) (val len : Nat) : Option (List Chr) := writeNumeral base 48 len val

/-- The characters `ul_oct` puts at the end of a field. -/
def octTerm : Nat → List Chr
  | 3 => [0]
  | 2 => [0, 32]
  | 1 => [32]
  | _ => [32, 0]

/-- `ul_oct(val, str, len, term)` and `uqd_oct`. -/
def ulOct (val len term : Nat) : Option (List Chr) :=
  (writeNumeral octal 32 (len - (octTerm term).length) val).map (· ++ octTerm term)

variable {val len term : Nat} {f : List Chr}

theorem length_ulAsc {base : Digits Chr} (h : ulAsc base val len = some f) : f.length = len :=
  length_writeNumeral h

theorem length_ulOct (hlen : (octTerm term).length ≤ len) (h : ulOct val len term = some f) :
    f.length = len := by
  obtain ⟨l, hl, rfl⟩ := Option.map_eq_some_iff.1 h
  rw [List.length_append, length_writeNumeral hl]
  omega

theorem read_ulOct {word : Nat} (h : ulOct val len term = some f) :
    readNumeral octal word f = val % word := by
  obtain ⟨l, hl, rfl⟩ := Option.map_eq_some_iff.1 h
  have hends : Ends octal [0] ∧ Ends octal [0, 32] ∧ Ends octal [] := by
    refine ⟨?_, ?_, ?_⟩ <;> simp [Ends, octal]
  -- a zero ends the number, a blank may stand in front of one too
  unfold octTerm at hl ⊢
  split at hl
  · exact read_writeNumeral octal_lawful (by decide) hl hends.1
  · exact read_writeNumeral octal_lawful (by decide) hl hends.2.1
  · exact read_writeNumeral_skip octal_lawful (by decide) hl (by decide) (by decide) hends.2.2
  · exact read_writeNumeral_skip octal_lawful (by decide) hl (by decide) (by decide) hends.1

theorem read_ulAsc {word : Nat} {base : Digits Chr} (hbase : base.Lawful)
    (hzero : base.skip 48 = true) (h : ulAsc base val len = some f) :
    readNumeral base word f = val % word := by
  have hread : readNumeral base word (f ++ []) = val % word :=
    read_writeNumeral hbase hzero h (by simp [Ends])
  rwa [List.append_nil] at hread

theorem ascUl_of_read {base : Digits Chr} {x : UInt32}
    (h : readNumeral base (2 ^ 32) f = x.toNat % 2 ^ 32) : ascUl base f = x := by
  rw [ascUl, h, Nat.mod_eq_of_lt x.toNat_lt, UInt32.ofNat_toNat]

/-- `zf_strncpy(dest, src, len)`: the field that holds the string at `src`. -/
def zfStrncpy (src : List Chr) (len : Nat) : List Chr :=
  let s := (src.take len).takeWhile (· != 0)
  s ++ List.replicate (len - s.length) 0

/-- The string `l_strncpy` copies from a field. -/
def fieldString (field : List Chr) : List Chr := field.takeWhile (· != 0)

/-- `l_strncpy(dest, src, len)` with a field of `len` characters as `src`, and `dest` at offset
`i` of an array: the number of characters copied, and the array. -/
def lStrncpy (mem : Nat → Chr) (i : Nat) (field : List Chr) : Nat × (Nat → Chr) :=
  let s := fieldString field
  (s.length, store mem i (s ++ if s.length < field.length then [0] else []))

theorem length_zfStrncpy (src : List Chr) (len : Nat) : (zfStrncpy src len).length = len := by
  have h : ((src.take len).takeWhile (· != 0)).length ≤ len :=
    Nat.le_trans (List.takeWhile_prefix _).length_le (by rw [List.length_take]; exact Nat.min_le_left _ _)
  simp only [zfStrncpy, List.length_append, List.length_replicate]
  omega

theorem takeWhile_nonzero {s : List Chr} (rest : List Chr) (h : 0 ∉ s) :
    (s ++ rest).takeWhile (· != 0) = s ++ rest.takeWhile (· != 0) := by
  refine List.takeWhile_append_of_pos fun ch hch => ?_
  simp only [bne_iff_ne, ne_eq]
  rintro rfl
  exact h hch

theorem fieldString_zfStrncpy {s : List Chr} {len : Nat} (rest : List Chr) (hs : 0 ∉ s)
    (hlen : s.length ≤ len) (hrest : s.length < len → rest.head? = some 0) :
    fieldString (zfStrncpy (s ++ rest) len) = s := by
  have htake : ((s ++ rest).take len).takeWhile (· != 0) = s := by
    rw [List.take_append, List.take_of_length_le hlen, takeWhile_nonzero _ hs]
    rcases Nat.lt_or_ge s.length len with hlt | hge
    · have hhead := hrest hlt
      cases rest with
      | nil => simp at hhead
      | cons ch rest =>
        obtain rfl : ch = 0 := by simpa using hhead
        obtain ⟨k, hk⟩ : ∃ k, len - s.length = k + 1 := ⟨len - s.length - 1, by omega⟩
        simp [hk]
    · simp [Nat.sub_eq_zero_of_le hge]
  rw [zfStrncpy, htake, fieldString, takeWhile_nonzero _ hs]
  cases hk : len - s.length with
  | zero => simp
  | succ k => simp [List.replicate_succ]

theorem lStrncpy_spec (mem : Nat → Chr) (field : List Chr) :
    let r := lStrncpy mem 0 field
    r.1 = (fieldString field).length ∧ slice (store r.2 r.1 [0]) 0 r.1 = fieldString field ∧
      store r.2 r.1 [0] r.1 = 0 := by
  refine ⟨rfl, ?_, by simp [store]⟩
  rw [slice_store_before (by omega)]
  simp only [lStrncpy]
  generalize (if (fieldString field).length < field.length then [(0 : Chr)] else []) = e
  have h : slice (store mem 0 (fieldString field ++ e)) 0 (fieldString field ++ e).length =
      fieldString field ++ e := slice_store
  rw [List.length_append] at h
  rw [← take_slice (Nat.le_add_right _ e.length), h, List.take_left]

theorem fieldString_slice {mem : Nat → Chr} {n len : Nat} (hs : 0 ∉ slice mem 0 n) (hend : mem n = 0)
    (hlen : n ≤ len) : fieldString (zfStrncpy (slice mem 0 len) len) = slice mem 0 n := by
  obtain ⟨k, rfl⟩ := Nat.exists_eq_add_of_le hlen
  rw [slice_append]
  refine fieldString_zfStrncpy _ hs (by simp) fun hlt => ?_
  obtain ⟨m, rfl⟩ : ∃ m, k = m + 1 := ⟨k - 1, by simp at hlt; omega⟩
  simp [slice, List.range_succ_eq_map, hend]

def chars (l : List Chr) : Nat → Chr := fun i => l.getD i 0

def linkA : Archd :=
  ⟨1, chars [97], 1, chars [98], ⟨1, 2, 0o120777, 1, 100, 20, 0, 1, 800000000⟩, 0, 0, 0, .slk⟩

def dirD : Archd :=
  ⟨1, chars [100], 0, chars [], ⟨1, 3, 0o040755, 2, 100, 20, 0, 512, 800000000⟩, 0, 0, 0, .dir⟩

theorem named_linkA : linkA.Named := by
  constructor <;> decide

theorem named_dirD : dirD.Named := by
  constructor <;> decide

end Bsdi.Pax
