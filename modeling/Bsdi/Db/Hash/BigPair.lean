import Bsdi.Db.Hash.Chain

/-!
# Reading big pairs

The routines that go along the pages of a big pair, and when they find what was inserted.
-/

namespace Bsdi.Db.Hash.Big

open Bsdi.Lib

variable {bsize i m e nx fuel len past size : ℕ} {ovfl : ℕ → ℕ} {pages : ℕ → Page} {s s' : Pages}
  {p : Page} {piece key val rest data : List UInt8}

theorem Data.le (h : Data bsize ovfl pages i m data) : i ≤ m := by
  induction h with
  | last _ => exact Nat.le_refl _
  | more _ _ ih => omega

theorem Data.used (h : Data bsize ovfl pages i m data) : (pages (ovfl m)).entries ≠ [] := by
  induction h with
  | last hp =>
    rw [hp.entries]
    exact List.cons_ne_nil _ _
  | more _ _ ih => exact ih

theorem collectData_spec (h : Data bsize ovfl pages i m data) (hfuel : m < i + fuel) :
    collectData bsize pages fuel (ovfl i) len = some data := by
  induction h generalizing fuel len with
  | last hp =>
    obtain ⟨fuel, rfl⟩ : ∃ f, fuel = f + 1 := ⟨fuel - 1, by omega⟩
    rw [collectData, hp.word_two, if_pos rfl, hp.slice_eq]
  | more hp behind ih =>
    have hle := behind.le
    obtain ⟨fuel, rfl⟩ : ∃ f, fuel = f + 1 := ⟨fuel - 1, by omega⟩
    have hpos := hp.pos
    have hne : fullKey ≠ fullKeyData := by decide
    rw [collectData]
    rw [hp.word_two, if_neg hne, hp.next, hp.slice_eq]
    dsimp only
    rw [ih (by omega)]
    exact if_neg (by omega)

theorem findLastPage_data (h : Data bsize ovfl pages i m data) (hfuel : m < i + fuel) :
    findLastPage pages fuel (ovfl i) = some (0, ovfl m) := by
  induction h generalizing fuel with
  | last hp =>
    obtain ⟨fuel, rfl⟩ : ∃ f, fuel = f + 1 := ⟨fuel - 1, by omega⟩
    rw [findLastPage]
    rw [hp.word_two, hp.n_two, if_pos ⟨rfl, Or.inl rfl⟩, if_neg (Nat.lt_irrefl 2)]
  | more hp behind ih =>
    have hle := behind.le
    obtain ⟨fuel, rfl⟩ : ∃ f, fuel = f + 1 := ⟨fuel - 1, by omega⟩
    have hne : fullKey ≠ fullKeyData := by decide
    rw [findLastPage]
    rw [hp.word_two, if_neg fun h => hne h.1, hp.next]
    exact ih (by omega)

/-- `last_bfp` at page `i` of a pair. -/
def lastAt (ovfl : ℕ → ℕ) (i : ℕ) : Option ℕ := if i = 0 then none else some (ovfl i)

/-- The pages behind the first one and before page `i`. -/
def freedAt (ovfl : ℕ → ℕ) (i : ℕ) : List ℕ := (List.range (i - 1)).map fun k => ovfl (k + 1)

theorem freedAt_succ (ovfl : ℕ → ℕ) (i : ℕ) :
    freedAt ovfl i ++ (lastAt ovfl i).toList = freedAt ovfl (i + 1) := by
  cases i with
  | zero => rfl
  | succ i =>
    rw [freedAt, freedAt, lastAt, if_neg (Nat.succ_ne_zero i), Nat.add_sub_cancel,
      Nat.add_sub_cancel, List.range_succ, List.map_append]
    rfl

theorem deleteLoop_data (h : Data bsize ovfl pages i m data) (hfuel : m < i + fuel) :
    deleteLoop pages fuel (ovfl i) (lastAt ovfl i) true (freedAt ovfl i) =
      some (ovfl m, lastAt ovfl m, freedAt ovfl m) := by
  induction h generalizing fuel with
  | last hp =>
    obtain ⟨fuel, rfl⟩ : ∃ f, fuel = f + 1 := ⟨fuel - 1, by omega⟩
    rw [deleteLoop]
    dsimp only
    rw [hp.word_two, if_neg (by simp)]
  | more hp behind ih =>
    have hle := behind.le
    obtain ⟨fuel, rfl⟩ : ∃ f, fuel = f + 1 := ⟨fuel - 1, by omega⟩
    have hne : fullKey ≠ fullKeyData := by decide
    rw [deleteLoop]
    dsimp only
    rw [hp.word_two, if_pos (Or.inr hne), if_neg fun h => hne h.1, hp.next]
    dsimp only
    rw [freedAt_succ]
    exact ih (by omega)

/-- The pages of a pair: the key from page `i` to page `e`, and the data behind it. -/
abbrev Laid (bsize : ℕ) (ovfl : ℕ → ℕ) (pages : ℕ → Page) (e : ℕ) (val rest : List UInt8) :
    ℕ → List UInt8 → Prop :=
  Key bsize ovfl pages fun k piece =>
    k = e ∧ EndPage bsize (ovfl (e + 1)) (pages (ovfl e)) piece val rest

theorem Laid.le (h : Laid bsize ovfl pages e val rest i key) : i ≤ e := by
  induction h with
  | last h => exact Nat.le_of_eq h.1
  | more _ _ _ ih => omega

theorem Laid.congr {pages' : ℕ → Page} (h : Laid bsize ovfl pages e val rest i key)
    (hsame : ∀ k, k ≤ e → pages' (ovfl k) = pages (ovfl k)) :
    Laid bsize ovfl pages' e val rest i key := by
  induction h with
  | last h =>
    refine Key.last ⟨h.1, ?_⟩
    rw [hsame e (Nat.le_refl e)]
    exact h.2
  | more hp full behind ih =>
    have hle := Laid.le behind
    refine Key.more ?_ full ih
    rw [hsame _ (by omega)]
    exact hp

theorem Laid.ends (h : Laid bsize ovfl pages e val rest i key) :
    ∃ piece t, EndPage bsize (ovfl (e + 1)) (pages (ovfl e)) piece val rest ∧
      key.length = (bsize - 14) * t + piece.length ∧ (i = e → key = piece) := by
  induction h with
  | last h => exact ⟨_, 0, h.2, by omega, fun _ => rfl⟩
  | more hp full behind ih =>
    obtain ⟨piece, t, hend, hlen, -⟩ := ih
    have hle := Laid.le behind
    refine ⟨piece, t + 1, hend, ?_, fun h => by omega⟩
    rw [List.length_append, hlen, Nat.mul_succ]
    omega

theorem EndPage.piece_spec (h : EndPage bsize nx p piece val rest) :
    ∃ tag more, Piece bsize p piece tag more ∧ tag ≠ partialKey := by
  cases h with
  | apart _ h _ _ => exact ⟨fullKey, _, h, by decide⟩
  | shared _ _ _ h _ _ _ => exact ⟨fullKeyData, _, h, by decide⟩

theorem bigReturn_key (h : Laid bsize ovfl pages e val rest i key) :
    bigReturn bsize pages (fuel + 1 + (e - i)) (ovfl i) 1 =
      returnEnd bsize pages fuel (ovfl e) 1 := by
  induction h with
  | last h =>
    obtain ⟨rfl, hend⟩ := h
    obtain ⟨tag, more, hp, htag⟩ := hend.piece_spec
    rw [Nat.sub_self, Nat.add_zero, bigReturn, hp.word_two, if_neg htag]
  | @more i piece rest' hp full behind ih =>
    have hle := Laid.le behind
    rw [show fuel + 1 + (e - i) = fuel + 1 + (e - (i + 1)) + 1 by omega, bigReturn, hp.word_two,
      if_pos rfl, hp.next]
    exact ih

theorem findLastPage_key (h : Laid bsize ovfl pages e val rest i key) :
    findLastPage pages (fuel + (e - i)) (ovfl i) = findLastPage pages fuel (ovfl e) := by
  induction h with
  | last h =>
    rw [h.1, Nat.sub_self, Nat.add_zero]
  | @more i piece rest' hp full behind ih =>
    have hle := Laid.le behind
    have hne : partialKey ≠ fullKeyData := by decide
    rw [show fuel + (e - i) = fuel + (e - (i + 1)) + 1 by omega, findLastPage]
    rw [hp.word_two, if_neg fun h => hne h.1, hp.next]
    exact ih

theorem deleteLoop_key (fuel : ℕ) (h : Laid bsize ovfl pages e val rest i key) :
    deleteLoop pages (fuel + (e - i)) (ovfl i) (lastAt ovfl i) false (freedAt ovfl i) =
      deleteLoop pages fuel (ovfl e) (lastAt ovfl e) false (freedAt ovfl e) := by
  induction h with
  | last h =>
    rw [h.1, Nat.sub_self, Nat.add_zero]
  | @more i piece rest' hp full behind ih =>
    have hle := Laid.le behind
    have hne : partialKey ≠ fullKeyData := by decide
    rw [show fuel + (e - i) = fuel + (e - (i + 1)) + 1 by omega, deleteLoop]
    dsimp only
    rw [hp.word_two, if_pos (Or.inr hne), if_neg fun h => hne h.1, hp.next]
    dsimp only
    rw [freedAt_succ]
    exact ih

theorem findBigpair_key (hb : bsize ≤ 2 ^ 16) (kkey : ℕ → UInt8)
    (h : Laid bsize ovfl pages e val rest i key) :
    findBigpair bsize pages kkey size (fuel + 1 + (e - i)) (ovfl i) 1 past =
      some (if key.length + past = size ∧ slice kkey past key.length = key then some 1
        else none) := by
  induction h generalizing past with
  | @last i piece h =>
    obtain ⟨rfl, hend⟩ := h
    obtain ⟨tag, more, hp, htag⟩ := hend.piece_spec
    rw [Nat.sub_self, Nat.add_zero, findBigpair]
    rw [hp.word_two, if_neg fun h => htag h.2, hp.bytes_eq hb, hp.word_one, hp.bytes]
    by_cases hsize : piece.length + past = size
    · by_cases hsame : slice kkey past piece.length = piece
      · rw [if_neg (not_or.2 ⟨not_not.2 hsize, not_not.2 hsame.symm⟩), if_pos ⟨hsize, hsame⟩]
      · rw [if_pos (Or.inr fun h => hsame h.symm), if_neg fun h => hsame h.2]
    · rw [if_pos (Or.inl hsize), if_neg fun h => hsize h.1]
  | @more i piece rest' hp full behind ih =>
    have hle := Laid.le behind
    rw [show fuel + 1 + (e - i) = fuel + 1 + (e - (i + 1)) + 1 by omega, findBigpair]
    rw [hp.word_two, hp.bytes_eq hb, hp.word_one, hp.bytes, hp.word_three, List.length_append,
      slice_append]
    by_cases hsize : piece.length ≤ size
    · rw [if_pos ⟨hsize, rfl⟩]
      by_cases hsame : slice kkey past piece.length = piece
      · rw [if_neg (not_not.2 hsame.symm), ih]
        congr 1
        refine if_congr ?_ rfl rfl
        rw [hsame, List.append_cancel_left_eq, Nat.add_comm past, ← Nat.add_assoc,
          Nat.add_comm rest'.length]
      · rw [if_pos fun h => hsame h.symm, if_neg fun h => hsame ?_]
        exact List.append_inj_left h.2 length_slice
    · rw [if_neg fun h => hsize h.1, if_pos (Or.inl (by omega)), if_neg fun h => by omega]

end Bsdi.Db.Hash.Big
