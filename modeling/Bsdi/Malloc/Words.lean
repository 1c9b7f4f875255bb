import Bsdi.Malloc.Heap

/-!
# Words, lists of blocks and sizes

How stores to memory show in the words of it, the free lists as chains of words, and the arithmetic of
the sizes of blocks.
-/

namespace Bsdi.Malloc

variable {mem mem' : Nat → Byte} {a b v x : Nat} {l : List Nat}

theorem setByte_of_ne (h : b ≠ a) : setByte mem a v b = mem b := if_neg h

theorem setByte_self : (setByte mem a v a).toNat = v % 2 ^ 8 := by
  simp [setByte]

theorem setWord_of_notMem (h : b < a ∨ a + 4 ≤ b) : setWord mem a v b = mem b := by
  unfold setWord
  rw [setByte_of_ne (by omega), setByte_of_ne (by omega), setByte_of_ne (by omega),
    setByte_of_ne (by omega)]

theorem getWord_congr (h : ∀ i, a ≤ i → i < a + 4 → mem' i = mem i) :
    getWord mem' a = getWord mem a := by
  unfold getWord
  rw [h a (by omega) (by omega), h (a + 1) (by omega) (by omega), h (a + 2) (by omega) (by omega),
    h (a + 3) (by omega) (by omega)]

theorem getWord_setWord (hv : v < 2 ^ 32) : getWord (setWord mem a v) a = v := by
  have h₀ : (setWord mem a v a).toNat = v % 2 ^ 8 := by
    unfold setWord
    rw [setByte_of_ne (by omega), setByte_of_ne (by omega), setByte_of_ne (by omega), setByte_self]
  have h₁ : (setWord mem a v (a + 1)).toNat = v / 2 ^ 8 % 2 ^ 8 := by
    unfold setWord
    rw [setByte_of_ne (by omega), setByte_of_ne (by omega), setByte_self]
  have h₂ : (setWord mem a v (a + 2)).toNat = v / 2 ^ 16 % 2 ^ 8 := by
    unfold setWord
    rw [setByte_of_ne (by omega), setByte_self]
  have h₃ : (setWord mem a v (a + 3)).toNat = v / 2 ^ 24 % 2 ^ 8 := by
    unfold setWord
    rw [setByte_self]
  unfold getWord
  rw [h₀, h₁, h₂, h₃]
  omega

/-- The blocks of a list that starts at an address and ends with a null pointer. -/
def Chain (mem : Nat → Byte) : Nat → List Nat → Prop
  | x, [] => x = 0
  | x, a :: l => x = a ∧ a ≠ 0 ∧ Chain mem (getWord mem a) l

theorem Chain.congr (h : ∀ a ∈ l, getWord mem' a = getWord mem a) (hc : Chain mem x l) :
    Chain mem' x l := by
  induction l generalizing x with
  | nil => exact hc
  | cons a l ih =>
    obtain ⟨rfl, h0, hc⟩ := hc
    refine ⟨rfl, h0, ?_⟩
    rw [h x (by simp)]
    exact ih (fun b hb => h b (by simp [hb])) hc

theorem Chain.nil_of_zero (hc : Chain mem 0 l) : l = [] := by
  cases l with
  | nil => rfl
  | cons a l => exact absurd hc.1.symm hc.2.1

theorem Chain.cons_of_ne (hc : Chain mem x l) (h : x ≠ 0) : ∃ l', l = x :: l' ∧ Chain mem (getWord mem x) l' := by
  cases l with
  | nil => exact absurd hc h
  | cons a l =>
    obtain ⟨rfl, -, hc⟩ := hc
    exact ⟨l, rfl, hc⟩

theorem Chain.lt (hc : Chain mem x l) (h : ∀ a ∈ l, a < v) (hv : 0 < v) : x < v := by
  cases l with
  | nil => exact hc ▸ hv
  | cons a l => exact hc.1 ▸ h a (by simp)

theorem link_of_notMem {sz n op j : Nat} (hsz : 4 ≤ sz) (h : j < op ∨ op + n * sz ≤ j) :
    link sz n op mem j = mem j := by
  induction n generalizing op mem with
  | zero => rfl
  | succ n ih =>
    rw [Nat.succ_mul] at h
    rw [link, ih (by omega), setWord_of_notMem (by omega)]

theorem chain_link {sz n op : Nat} (hsz : 4 ≤ sz) (hop : 0 < op) (hlt : op + (n + 1) * sz ≤ 2 ^ 32)
    (hzero : ∀ j, op ≤ j → j < op + (n + 1) * sz → mem j = 0) :
    Chain (link sz n op mem) op ((List.range (n + 1)).map fun i => op + i * sz) := by
  induction n generalizing op mem with
  | zero =>
    have hword : getWord mem op = 0 := by
      unfold getWord
      rw [hzero op (by omega) (by omega), hzero (op + 1) (by omega) (by omega),
        hzero (op + 2) (by omega) (by omega), hzero (op + 3) (by omega) (by omega)]
      rfl
    simp [Chain, link, hword]
    omega
  | succ n ih =>
    have hmul : (n + 1 + 1) * sz = (n + 1) * sz + sz := Nat.succ_mul _ _
    have hmul' : (n + 1) * sz = n * sz + sz := Nat.succ_mul _ _
    have hrest : Chain (link sz n (op + sz) (setWord mem op (op + sz))) (op + sz)
        ((List.range (n + 1)).map fun i => op + sz + i * sz) := by
      apply ih (by omega) (by omega)
      intro j hj hj'
      rw [setWord_of_notMem (by omega)]
      exact hzero j (by omega) (by omega)
    have hlist : (List.range (n + 1 + 1)).map (fun i => op + i * sz) =
        op :: (List.range (n + 1)).map fun i => op + sz + i * sz := by
      rw [List.range_succ_eq_map, List.map_cons, List.map_map]
      congr 1
      · omega
      · apply List.map_congr_left
        intro i _
        simp only [Function.comp, Nat.succ_eq_add_one, Nat.succ_mul]
        omega
    rw [hlist, link]
    refine ⟨rfl, by omega, ?_⟩
    have hword : getWord (link sz n (op + sz) (setWord mem op (op + sz))) op = op + sz := by
      have hsame : getWord (link sz n (op + sz) (setWord mem op (op + sz))) op =
          getWord (setWord mem op (op + sz)) op :=
        getWord_congr fun i _ hi => link_of_notMem hsz (by omega)
      rw [hsame, getWord_setWord (by omega)]
    rw [hword]
    exact hrest

def blockSize (page bucket : Nat) : Nat :=
  if 2 ^ (bucket + 3) < page then 2 ^ (bucket + 3) else 2 ^ (bucket + 3) + page

theorem blockSize_ge (page bucket : Nat) : 8 ≤ blockSize page bucket := by
  have h := Nat.pow_le_pow_right (n := 2) (by decide) (Nat.le_add_left 3 bucket)
  unfold blockSize
  split <;> omega

theorem blocks_fit {page bucket i : Nat} (hi : i < nblks page bucket) :
    i * 2 ^ (bucket + 3) + blockSize page bucket ≤ coreSize page bucket := by
  unfold nblks blockSize coreSize at *
  by_cases h : 2 ^ (bucket + 3) < page
  · rw [if_pos h] at hi ⊢
    rw [if_pos h]
    calc i * 2 ^ (bucket + 3) + 2 ^ (bucket + 3) = (i + 1) * 2 ^ (bucket + 3) := (Nat.succ_mul _ _).symm
      _ ≤ page / 2 ^ (bucket + 3) * 2 ^ (bucket + 3) := Nat.mul_le_mul_right _ hi
      _ ≤ page := Nat.div_mul_le_self _ _
  · rw [if_neg h] at hi ⊢
    rw [if_neg h]
    have : i = 0 := by omega
    subst this
    omega

theorem nblks_pos (page bucket : Nat) : 0 < nblks page bucket := by
  unfold nblks
  split
  · exact Nat.div_pos (by omega) (Nat.two_pow_pos _)
  · exact Nat.one_pos

theorem blockSize_le_of_nblks {page bucket : Nat} (h : 1 < nblks page bucket) :
    blockSize page bucket = 2 ^ (bucket + 3) := by
  unfold nblks at h
  unfold blockSize
  split at h
  · rw [if_pos ‹_›]
  · omega

theorem findPagebucket_eq {k n i : Nat} (hi : i ≤ k) (hn : k - i ≤ n) :
    findPagebucket (2 ^ (k + 3)) n (2 ^ (i + 3)) i = k := by
  induction n generalizing i with
  | zero =>
    have : i = k := by omega
    simp [findPagebucket, this]
  | succ n ih =>
    rw [findPagebucket]
    by_cases hik : i = k
    · rw [if_neg (by simp [hik]), hik]
    · have hlt : 2 ^ (i + 3) < 2 ^ (k + 3) := Nat.pow_lt_pow_right (by decide) (by omega)
      rw [if_pos hlt, show 2 ^ (i + 3) * 2 = 2 ^ (i + 1 + 3) from (Nat.pow_succ 2 (i + 3)).symm.trans
        (by rw [Nat.add_right_comm])]
      exact ih (by omega) (by omega)

theorem findBucket_spec {nbytes k b : Nat} {n : Int} (bucket : Nat) (hb : bucket + 3 ≤ 31)
    (h : findBucket nbytes n k (2 ^ (bucket + 3)) bucket = some b) :
    bucket ≤ b ∧ b + 3 ≤ 31 ∧ (nbytes : Int) ≤ 2 ^ (b + 3) + n := by
  induction k generalizing bucket with
  | zero => simp [findBucket] at h
  | succ k ih =>
    rw [findBucket] at h
    split at h
    · cases h
      exact ⟨Nat.le_refl _, hb, by simpa using ‹_›⟩
    · have hpow : 2 ^ (bucket + 3) * 2 = 2 ^ (bucket + 1 + 3) := by
        rw [← Nat.pow_succ, Nat.add_right_comm]
      split at h
      · cases h
      · rename_i hne
        rw [hpow] at h hne
        by_cases hlast : bucket + 1 + 3 = 32
        · rw [hlast] at hne
          exact absurd (Nat.mod_self _) hne
        · have hlt : 2 ^ (bucket + 1 + 3) < 2 ^ 32 := Nat.pow_lt_pow_right (by decide) (by omega)
          rw [Nat.mod_eq_of_lt hlt] at h
          obtain ⟨h₁, h₂, h₃⟩ := ih _ (by omega) h
          exact ⟨by omega, h₂, h₃⟩

theorem bucketOf_spec {k nbytes b : Nat} (hk : k + 3 ≤ 31)
    (h : bucketOf (2 ^ (k + 3)) k nbytes = some b) :
    b + 3 ≤ 31 ∧ nbytes + 4 ≤ blockSize (2 ^ (k + 3)) b := by
  unfold bucketOf overhead at h
  unfold blockSize
  split at h
  · obtain ⟨-, hb, hle⟩ := findBucket_spec 0 (by decide) h
    refine ⟨hb, ?_⟩
    have hle' : nbytes + 4 ≤ 2 ^ (b + 3) := by
      have : (nbytes : Int) + 4 ≤ (2 ^ (b + 3) : Nat) := by
        push_cast
        omega
      exact_mod_cast this
    split <;> omega
  · obtain ⟨hkb, hb, hle⟩ := findBucket_spec k hk h
    refine ⟨hb, ?_⟩
    have hpow : 2 ^ (k + 3) ≤ 2 ^ (b + 3) := Nat.pow_le_pow_right (by decide) (by omega)
    rw [if_neg (Nat.not_lt.2 hpow)]
    have : (nbytes : Int) + 4 ≤ (2 ^ (b + 3) + 2 ^ (k + 3) : Nat) := by
      push_cast at hle ⊢
      omega
    exact_mod_cast this

theorem capacity_eq (page : Nat) {b : Nat} (hb : b + 3 ≤ 31) :
    Heap.capacity page b + 4 = blockSize page b := by
  have hge := blockSize_ge page b
  have hmod : (b + 3) % 32 = b + 3 := Nat.mod_eq_of_lt (by omega)
  unfold Heap.capacity blockSize overhead at *
  rw [hmod]
  dsimp only
  split <;> rename_i h <;> simp only [h, if_true, if_false] at hge <;> omega

end Bsdi.Malloc
