import Mathlib.Data.Nat.ModEq

/-!
# Numerals in fields

A number is written right-aligned in a field of fixed width, filled up with pads, and read
back by skipping what may stand in front and collecting digits modulo the size of a machine
word.
-/

namespace Bsdi.Lib

variable {χ : Type*}

/-- The characters of a positional notation. -/
structure Digits (χ : Type*) where
  base : Nat
  /-- The character of a digit. -/
  digit : Nat → χ
  /-- The digit of a character. -/
  value : χ → Option Nat
  /-- What a reader skips in front of a number. -/
  skip : χ → Bool

/-- The digits read back as they were written, and only zero is skipped. -/
structure Digits.Lawful (N : Digits χ) : Prop where
  base : 1 < N.base
  value_digit : ∀ d, d < N.base → N.value (N.digit d) = some d
  skip_zero : N.skip (N.digit 0) = true
  skip_digit : ∀ d, d < N.base → 0 < d → N.skip (N.digit d) = false

/-- Write `val` in a field of the given width, `pad` in front of it. -/
def writeNumeral (N : Digits χ) (pad : χ) : Nat → Nat → Option (List χ)
  | 0, val => if val = 0 then some [] else none
  | width + 1, val =>
    if val / N.base = 0 then
      some (List.replicate width pad ++ [N.digit (val % N.base)])
    else
      (writeNumeral N pad width (val / N.base)).map (· ++ [N.digit (val % N.base)])

/-- Collect digits modulo `word` up to the first character that is none. -/
def readDigits (N : Digits χ) (word : Nat) : Nat → List χ → Nat
  | val, [] => val
  | val, ch :: rest =>
    match N.value ch with
    | some d => readDigits N word ((val * N.base + d) % word) rest
    | none => val

/-- Read a number. -/
def readNumeral (N : Digits χ) (word : Nat) (field : List χ) : Nat :=
  readDigits N word 0 (field.dropWhile N.skip)

/-- A number ends here. -/
def Ends (N : Digits χ) (rest : List χ) : Prop :=
  ∀ ch ∈ rest.head?, N.skip ch = false ∧ N.value ch = none

variable {N : Digits χ} {pad : χ} {word width val : Nat} {l rest : List χ}

theorem length_writeNumeral (h : writeNumeral N pad width val = some l) : l.length = width := by
  induction width generalizing val l with
  | zero =>
    rw [writeNumeral] at h
    split_ifs at h
    obtain rfl := Option.some.inj h
    rfl
  | succ width ih =>
    rw [writeNumeral] at h
    split_ifs at h
    · obtain rfl := Option.some.inj h
      simp
    · obtain ⟨l', hl', rfl⟩ := Option.map_eq_some_iff.1 h
      simp [ih hl']

/-- A number that fits is below the power of the base. -/
theorem writeNumeral_lt (hbase : 0 < N.base) (h : writeNumeral N pad width val = some l) :
    val < N.base ^ width := by
  induction width generalizing val l with
  | zero =>
    rw [writeNumeral] at h
    split_ifs at h with hval
    simp [hval]
  | succ width ih =>
    rw [Nat.pow_succ, ← Nat.div_lt_iff_lt_mul hbase]
    rw [writeNumeral] at h
    split_ifs at h with hzero
    · rw [hzero]
      exact Nat.pow_pos hbase
    · obtain ⟨l', hl', -⟩ := Option.map_eq_some_iff.1 h
      exact ih hl'

theorem readDigits_digit {d : Nat} (hN : N.Lawful) (hd : d < N.base) :
    readDigits N word val (N.digit d :: rest) = readDigits N word ((val * N.base + d) % word) rest := by
  rw [readDigits, hN.value_digit d hd]

/-- In front of the rest a positive number is read as itself. -/
theorem read_writeNumeral_pos (hN : N.Lawful) (hpad : N.skip pad = true) (hval : 0 < val)
    (h : writeNumeral N pad width val = some l) :
    readNumeral N word (l ++ rest) = readDigits N word (val % word) rest := by
  have hbase : 0 < N.base := Nat.lt_trans Nat.zero_lt_one hN.base
  induction width generalizing val l rest with
  | zero =>
    rw [writeNumeral, if_neg (Nat.pos_iff_ne_zero.1 hval)] at h
    cases h
  | succ width ih =>
    have hd := Nat.mod_lt val hbase
    rw [writeNumeral] at h
    split_ifs at h with hzero
    · obtain rfl := Option.some.inj h
      have hlt : val < N.base := (Nat.div_eq_zero_iff_lt hbase).1 hzero
      rw [Nat.mod_eq_of_lt hlt, readNumeral, List.append_assoc,
        List.dropWhile_append_of_pos (by simp [hpad]), List.singleton_append,
        List.dropWhile_cons_of_neg (by simp [hN.skip_digit val hlt hval]),
        readDigits_digit hN hlt, Nat.zero_mul, Nat.zero_add]
    · -- the digits in front are those of the quotient
      obtain ⟨l', hl', rfl⟩ := Option.map_eq_some_iff.1 h
      rw [List.append_assoc, ih (Nat.pos_of_ne_zero hzero) hl', List.singleton_append,
        readDigits_digit hN hd]
      congr 1
      rw [Nat.add_mod, Nat.mul_mod, Nat.mod_mod, ← Nat.mul_mod, ← Nat.add_mod]
      congr 1
      rw [Nat.mul_comm]
      exact Nat.div_add_mod val N.base

/-- Zero is written with characters that a reader skips. -/
theorem skip_of_mem_writeNumeral_zero (hN : N.Lawful) (hpad : N.skip pad = true)
    (h : writeNumeral N pad width 0 = some l) : ∀ ch ∈ l, N.skip ch = true := by
  cases width with
  | zero =>
    obtain rfl : [] = l := by simpa [writeNumeral] using h
    simp
  | succ width =>
    rw [writeNumeral, if_pos (Nat.zero_div _)] at h
    obtain rfl := Option.some.inj h
    simp only [List.mem_append, List.mem_replicate, List.mem_singleton, Nat.zero_mod]
    rintro ch (⟨-, rfl⟩ | rfl)
    · exact hpad
    · exact hN.skip_zero

theorem readNumeral_of_skip (hskip : ∀ ch ∈ l, N.skip ch = true) (hends : Ends N rest) :
    readNumeral N word (l ++ rest) = 0 := by
  rw [readNumeral, List.dropWhile_append_of_pos hskip]
  cases rest with
  | nil => rfl
  | cons ch rest =>
    obtain ⟨hch, hvalue⟩ := hends ch rfl
    rw [List.dropWhile_cons_of_neg (by simp [hch]), readDigits, hvalue]

/-- A number is read as it was written, modulo the size of the word. -/
theorem read_writeNumeral (hN : N.Lawful) (hpad : N.skip pad = true)
    (h : writeNumeral N pad width val = some l) (hends : Ends N rest) :
    readNumeral N word (l ++ rest) = val % word := by
  rcases Nat.eq_zero_or_pos val with rfl | hval
  · rw [readNumeral_of_skip (skip_of_mem_writeNumeral_zero hN hpad h) hends, Nat.zero_mod]
  · rw [read_writeNumeral_pos hN hpad hval h]
    cases rest with
    | nil => rfl
    | cons ch rest => rw [readDigits, (hends ch rfl).2]

/-- A number may also end at a character that is skipped in front of one. -/
theorem read_writeNumeral_skip {ch : χ} (hN : N.Lawful) (hpad : N.skip pad = true)
    (h : writeNumeral N pad width val = some l) (hch : N.skip ch = true) (hvalue : N.value ch = none)
    (hends : Ends N rest) : readNumeral N word (l ++ ch :: rest) = val % word := by
  rcases Nat.eq_zero_or_pos val with rfl | hval
  · have hskip : ∀ c ∈ l ++ [ch], N.skip c = true := by
      intro c hc
      rcases List.mem_append.1 hc with hc | hc
      · exact skip_of_mem_writeNumeral_zero hN hpad h c hc
      · rwa [List.mem_singleton.1 hc]
    rw [← List.singleton_append, ← List.append_assoc, readNumeral_of_skip hskip hends, Nat.zero_mod]
  · rw [read_writeNumeral_pos hN hpad hval h, readDigits, hvalue]

end Bsdi.Lib
