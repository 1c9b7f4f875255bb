import Bsdi.Db.Hash.BigPair

/-!
# Exact fits

A page on which a key ends cannot tell data that fill it from data that go on. So the pair is read
back unless the data end where that page does.
-/

namespace Bsdi.Db.Hash.Big

open Bsdi.Lib

variable {bsize i m e fuel : ℕ} {ovfl : ℕ → ℕ} {pages : ℕ → Page} {s s' : Pages} {p : Page}
  {piece key val rest : List UInt8} {count : ℕ}

/-- The pages behind page `e`, on which the key ends: page `m` is the last one in use. -/
inductive Behind (bsize : ℕ) (ovfl : ℕ → ℕ) (pages : ℕ → Page) (count e : ℕ) (rest : List UInt8) :
    ℕ → Prop
  | data {m : ℕ} (ne : rest ≠ []) (h : Data bsize ovfl pages (e + 1) m rest)
    (last : count = m + 1) : Behind bsize ovfl pages count e rest m
  | nothing (nil : rest = []) (fresh : Fresh bsize (pages (ovfl (e + 1)))) (last : count = e + 2) :
    Behind bsize ovfl pages count e rest e

theorem Behind.le (h : Behind bsize ovfl pages count e rest m) : e ≤ m ∧ m < count := by
  cases h with
  | data _ h last =>
    have := h.le
    omega
  | nothing _ _ last => omega

theorem bigInsert_spec (val : List UInt8) (hb : bsize ≤ 2 ^ 16) (hinj : Function.Injective ovfl)
    (hb₁ : 16 ≤ bsize) (hkey : key ≠ []) (hfresh : Fresh bsize (s.page (ovfl 0))) (hcount : s.count = 1) :
    ∃ s' e rest m, bigInsert bsize ovfl (ovfl 0) key val s = some s' ∧
      Laid bsize ovfl s'.page e val rest 0 key ∧
      Behind bsize ovfl s'.page s'.count e rest m := by
  obtain ⟨s₁, e, rest, hmove, hlaid, -, hfresh₁, hcount₁, -⟩ :=
    moveKey_spec hb hinj val hb₁ hkey (Nat.le_refl _) hfresh hcount
  rw [bigInsert, hmove]
  dsimp only
  by_cases hrest : rest = []
  · subst hrest
    refine ⟨s₁, e, [], e, ?_, hlaid, Behind.nothing rfl hfresh₁ hcount₁⟩
    rw [moveData]
  · obtain ⟨s', m, heq, hdata, hcount', -, hfrom⟩ :=
      moveData_spec hb hinj val.length hb₁ hrest (Nat.le_succ rest.length)
        hfresh₁ hcount₁
    refine ⟨s', e, rest, m, heq, Laid.congr hlaid fun k hk => ?_, Behind.data hrest hdata hcount'⟩
    exact hfrom.before hinj (Nat.lt_succ_of_le hk)

/-- The data are told apart: if they end on the page of the key, there is free space left. -/
def Told (pages : ℕ → Page) (ovfl : ℕ → ℕ) (e : ℕ) (rest : List UInt8) : Prop :=
  rest = [] → (pages (ovfl e)).freespace ≠ 0

theorem told_iff {t : ℕ} (hb : 16 ≤ bsize)
    (h : EndPage bsize (ovfl (e + 1)) (pages (ovfl e)) piece val rest)
    (hlen : key.length = (bsize - 14) * t + piece.length) :
    Told pages ovfl e rest ↔
      ¬((key.length + val.length) % (bsize - 14) = 0 ∧ val.length < bsize - 14) := by
  rw [hlen, Nat.add_assoc, Nat.mul_add_mod, Told]
  cases h with
  | apart full hp same free =>
    subst same
    have hcut : piece.length = bsize - 14 := by omega
    rw [hcut, Nat.add_mod_left]
    constructor
    · intro htold hzero
      rw [Nat.mod_eq_of_lt hzero.2] at hzero
      exact htold (List.eq_nil_of_length_eq_zero hzero.1) free
    · intro hnot hnil
      rw [hnil] at hnot
      exact absurd ⟨Nat.zero_mod _, by simp; omega⟩ hnot
  | shared v split room hp bytes free stop =>
    have hpos := hp.pos
    have hval : val.length = v.length + rest.length := by rw [split, List.length_append]
    have hmod : ∀ x, x < bsize - 14 → x % (bsize - 14) = x := fun x => Nat.mod_eq_of_lt
    constructor
    · rintro htold ⟨hzero, hlt⟩
      by_cases hrest : rest = []
      · have hfree := htold hrest
        rw [hrest, List.length_nil] at hval
        rw [hmod _ (by omega)] at hzero
        omega
      · have hfree := stop hrest
        have := List.length_pos_iff.2 hrest
        obtain ⟨y, hy⟩ : ∃ y, piece.length + val.length = bsize - 14 + y :=
          ⟨piece.length + val.length - (bsize - 14), by omega⟩
        rw [hy, Nat.add_mod_left, hmod _ (by omega)] at hzero
        omega
    · intro hnot hrest hfree
      rw [hrest, List.length_nil] at hval
      refine hnot ⟨?_, by omega⟩
      rw [show piece.length + val.length = bsize - 14 by omega, Nat.mod_self]

theorem returnEnd_told (h : EndPage bsize (ovfl (e + 1)) (pages (ovfl e)) piece val rest)
    (hbehind : Behind bsize ovfl pages count e rest m) (htold : Told pages ovfl e rest)
    (hfuel : m < e + 1 + fuel) : returnEnd bsize pages fuel (ovfl e) 1 = some val := by
  have hcollect : ∀ {len : ℕ}, rest ≠ [] →
      collectData bsize pages fuel (ovfl (e + 1)) len = some rest := fun {len} hrest => by
    cases hbehind with
    | data _ hdata _ => exact collectData_spec hdata hfuel
    | nothing hnil _ _ => exact absurd hnil hrest
  cases h with
  | apart full hp same free =>
    rw [returnEnd]
    dsimp only
    rw [hp.word_two, if_pos rfl, hp.next]
    dsimp only
    rw [hcollect fun hnil => htold hnil free, same]
  | shared v split room hp bytes free stop =>
    have hne : fullKeyData ≠ fullKey := by decide
    have hlen : bsize - piece.length - (bsize - piece.length - v.length) = v.length := by omega
    rw [returnEnd]
    dsimp only
    rw [hp.word_two, if_neg hne, hp.n_four, hp.word_four, hp.word_one, hlen, bytes]
    by_cases hzero : (pages (ovfl e)).freespace = 0
    · rw [if_pos hzero, hp.next]
      dsimp only
      rw [hcollect fun hnil => htold hnil hzero, split]
      rfl
    · rw [if_neg hzero]
      have hnil : rest = [] := not_not.1 fun hrest => hzero (stop hrest)
      rw [split, hnil, List.append_nil]

theorem collectData_fresh (hb : 16 ≤ bsize) (hb' : bsize ≤ 2 ^ 16)
    (h : Fresh bsize (pages (ovfl i))) {len : ℕ} :
    collectData bsize pages fuel (ovfl i) len = none := by
  have hn : (pages (ovfl i)).n = 0 := by
    rw [Page.n, h.entries]
    rfl
  have hword : (pages (ovfl i)).word 2 = bsize % 2 ^ 16 := by
    rw [Page.word, h.entries]
    exact h.offset
  have hne : bsize % 2 ^ 16 ≠ fullKeyData := by
    rw [fullKeyData]
    omega
  cases fuel with
  | zero => rfl
  | succ fuel =>
    rw [collectData]
    rw [hword, if_neg hne, next, hn, if_pos rfl]

theorem returnEnd_untold (hb : 16 ≤ bsize) (hb' : bsize ≤ 2 ^ 16)
    (h : EndPage bsize (ovfl (e + 1)) (pages (ovfl e)) piece val rest)
    (hbehind : Behind bsize ovfl pages count e rest m) (htold : ¬Told pages ovfl e rest) :
    returnEnd bsize pages fuel (ovfl e) 1 = none := by
  obtain ⟨hnil, hzero⟩ := Classical.not_imp.1 htold
  have hzero' := not_not.1 hzero
  have hcollect : ∀ {len : ℕ}, collectData bsize pages fuel (ovfl (e + 1)) len = none :=
    fun {len} => by
      cases hbehind with
      | data hrest _ _ => exact absurd hnil hrest
      | nothing _ hfresh _ => exact collectData_fresh hb hb' hfresh
  cases h with
  | apart full hp same free =>
    rw [returnEnd]
    dsimp only
    rw [hp.word_two, if_pos rfl, hp.next]
    exact hcollect
  | shared v split room hp bytes free stop =>
    have hne : fullKeyData ≠ fullKey := by decide
    rw [returnEnd]
    dsimp only
    rw [hp.word_two, if_neg hne, if_pos hzero', hp.next]
    dsimp only
    rw [hcollect]
    rfl

theorem findLastPage_told (h : EndPage bsize (ovfl (e + 1)) (pages (ovfl e)) piece val rest)
    (hbehind : Behind bsize ovfl pages count e rest m) (htold : Told pages ovfl e rest)
    (hfuel : m < e + fuel) :
    (findLastPage pages fuel (ovfl e)).map Prod.snd = some (ovfl m) := by
  have hle := hbehind.le
  obtain ⟨fuel, rfl⟩ : ∃ f, fuel = f + 1 := ⟨fuel - 1, by omega⟩
  have hdata : rest ≠ [] →
      (findLastPage pages fuel (ovfl (e + 1))).map Prod.snd = some (ovfl m) := fun hrest => by
    cases hbehind with
    | data _ hdata _ =>
      rw [findLastPage_data hdata (by omega)]
      rfl
    | nothing hnil _ _ => exact absurd hnil hrest
  cases h with
  | apart full hp same free =>
    have hne : fullKey ≠ fullKeyData := by decide
    rw [findLastPage]
    rw [hp.word_two, if_neg fun h => hne h.1, hp.next]
    exact hdata fun hnil => htold hnil free
  | shared v split room hp bytes free stop =>
    have hoff : bsize - piece.length - v.length ≠ ovflpage := by
      rw [ovflpage]
      omega
    rw [findLastPage]
    rw [hp.word_two, hp.n_four, hp.word_four]
    by_cases hzero : (pages (ovfl e)).freespace = 0
    · rw [if_neg fun h => ?_, hp.next]
      · exact hdata fun hnil => htold hnil hzero
      · rcases h.2 with h | h | h
        · omega
        · exact hoff h
        · exact h hzero
    · rw [if_pos ⟨rfl, Or.inr (Or.inr hzero)⟩]
      cases hbehind with
      | data hrest _ _ => exact absurd (stop hrest) hzero
      | nothing _ _ _ => rfl

theorem deleteLoop_told (h : EndPage bsize (ovfl (e + 1)) (pages (ovfl e)) piece val rest)
    (hbehind : Behind bsize ovfl pages count e rest m) (htold : Told pages ovfl e rest)
    (hfuel : m < e + fuel) :
    deleteLoop pages fuel (ovfl e) (lastAt ovfl e) false (freedAt ovfl e) =
      some (ovfl m, lastAt ovfl m, freedAt ovfl m) := by
  have hle := hbehind.le
  obtain ⟨fuel, rfl⟩ : ∃ f, fuel = f + 1 := ⟨fuel - 1, by omega⟩
  have hdata : rest ≠ [] → deleteLoop pages fuel (ovfl (e + 1)) (some (ovfl (e + 1))) true
      (freedAt ovfl (e + 1)) = some (ovfl m, lastAt ovfl m, freedAt ovfl m) := fun hrest => by
    cases hbehind with
    | data _ hdata _ => exact deleteLoop_data hdata (by omega)
    | nothing hnil _ _ => exact absurd hnil hrest
  cases h with
  | apart full hp same free =>
    have hne : fullKey ≠ fullKeyData := by decide
    rw [deleteLoop]
    dsimp only
    rw [hp.word_two, if_pos (Or.inr hne), if_neg fun h => hne h.1, hp.next]
    dsimp only
    rw [freedAt_succ]
    exact hdata fun hnil => htold hnil free
  | shared v split room hp bytes free stop =>
    rw [deleteLoop]
    dsimp only
    rw [hp.word_two, if_pos (Or.inl Bool.false_ne_true)]
    by_cases hzero : (pages (ovfl e)).freespace = 0
    · rw [if_neg fun h => h.2 hzero, hp.next]
      dsimp only
      rw [freedAt_succ]
      exact hdata fun hnil => htold hnil hzero
    · rw [if_pos ⟨rfl, hzero⟩]
      cases hbehind with
      | data hrest _ _ => exact absurd (stop hrest) hzero
      | nothing _ _ _ => rfl

/-- Page `m` is the last one in use of the pages that were handed out. -/
def LastUsed (ovfl : ℕ → ℕ) (s : Pages) (m : ℕ) : Prop :=
  m < s.count ∧ (s.page (ovfl m)).entries ≠ [] ∧
    ∀ i, m < i → i < s.count → (s.page (ovfl i)).entries = []

/-- A pair is found under its key only, its data are returned, its last page is found, and a
deletion frees its pages except the first one. -/
structure Reads (bsize : ℕ) (ovfl : ℕ → ℕ) (key val : List UInt8) (s : Pages) : Prop where
  find : ∀ kkey size, findBigpair bsize s.page kkey size s.count (ovfl 0) 1 0 =
    some (if slice kkey 0 size = key then some 1 else none)
  data : bigReturn bsize s.page s.count (ovfl 0) 1 = some val
  pages : ∃ m, LastUsed ovfl s m ∧
    (findLastPage s.page s.count (ovfl 0)).map Prod.snd = some (ovfl m) ∧
    (bigDelete bsize s.page s.count (ovfl 0)).map Prod.fst =
      some ((List.range m).map fun i => ovfl (i + 1))

def Stores (bsize : ℕ) (ovfl : ℕ → ℕ) (key val : List UInt8) (s : Pages) : Prop :=
  ∃ s', bigInsert bsize ovfl (ovfl 0) key val s = some s' ∧ Reads bsize ovfl key val s'

theorem Behind.lastUsed (h : Behind bsize ovfl s.page s.count e rest m)
    (hend : EndPage bsize (ovfl (e + 1)) (s.page (ovfl e)) piece val rest) : LastUsed ovfl s m := by
  cases h with
  | data _ hdata last => exact ⟨by omega, hdata.used, fun i h₁ h₂ => by omega⟩
  | nothing _ hfresh last =>
    refine ⟨by omega, ?_, fun i h₁ h₂ => ?_⟩
    · obtain ⟨tag, more, hp, -⟩ := hend.piece_spec
      rw [hp.entries]
      exact List.cons_ne_nil _ _
    · obtain rfl : i = m + 1 := by omega
      exact hfresh.entries

theorem reads_of_told (hb : bsize ≤ 2 ^ 16) (hlaid : Laid bsize ovfl s.page e val rest 0 key)
    (hbehind : Behind bsize ovfl s.page s.count e rest m) (htold : Told s.page ovfl e rest)
    (hbig : bsize < key.length + val.length + 14) : Reads bsize ovfl key val s := by
  obtain ⟨piece, t, hend, -, halone⟩ := Laid.ends hlaid
  have hle := hbehind.le
  have hused := hbehind.lastUsed hend
  have hpos : m ≠ 0 := fun hm => by
    -- a pair on one page is not big
    cases hbehind with
    | data _ hdata _ =>
      have := hdata.le
      omega
    | nothing hnil _ _ =>
      rw [halone hm.symm] at hbig
      cases hend with
      | apart full hp same free => exact htold hnil free
      | shared v split room hp bytes free stop =>
        rw [split, hnil, List.append_nil] at hbig
        omega
  obtain ⟨fuel, hfuel⟩ : ∃ f, s.count = f + 1 + (e - 0) := ⟨s.count - 1 - e, by omega⟩
  refine ⟨fun kkey size => ?_, ?_, m, hused, ?_, ?_⟩
  · rw [hfuel, findBigpair_key hb kkey hlaid, Nat.add_zero]
    congr 1
    refine if_congr ⟨fun h => h.1 ▸ h.2, fun h => ?_⟩ rfl rfl
    have hlen : key.length = size := by rw [← h, length_slice]
    exact ⟨hlen, hlen ▸ h⟩
  · rw [hfuel, bigReturn_key hlaid]
    exact returnEnd_told hend hbehind htold (by omega)
  · rw [hfuel, findLastPage_key hlaid]
    exact findLastPage_told hend hbehind htold (by omega)
  · have hloop := deleteLoop_key (fuel + 1) hlaid
    rw [← hfuel, deleteLoop_told hend hbehind htold (by omega)] at hloop
    have hlast : lastAt ovfl m = some (ovfl m) := if_neg hpos
    have hnext : ∃ pageno, next s.page (ovfl m) = some pageno := by
      have hn : (s.page (ovfl m)).n ≠ 0 := fun h => hused.2.1 (List.eq_nil_of_length_eq_zero h)
      exact ⟨_, if_neg hn⟩
    obtain ⟨pageno, hpageno⟩ := hnext
    have hfreed : freedAt ovfl m ++ [ovfl m] = (List.range m).map fun i => ovfl (i + 1) := by
      have := freedAt_succ ovfl m
      rwa [hlast] at this
    have hstart : deleteLoop s.page s.count (ovfl 0) none false [] =
        some (ovfl m, lastAt ovfl m, freedAt ovfl m) := hloop
    rw [bigDelete, hstart]
    dsimp only
    rw [hpageno, hlast, ← hfreed]
    simp

theorem bigInsert_small (hb : bsize < 10) (h : Fresh bsize (s.page (ovfl 0)))
    (hne : key ≠ [] ∨ val ≠ []) : bigInsert bsize ovfl (ovfl 0) key val s = none := by
  have hpush : ∀ piece tag, (s.page (ovfl 0)).push bsize piece tag = none := fun piece tag => by
    have hn : (s.page (ovfl 0)).n = 0 := by
      rw [Page.n, h.entries]
      rfl
    rw [Page.push, hn]
    exact if_neg (by rw [pageMeta]; omega)
  rw [bigInsert]
  cases key with
  | cons x xs =>
    rw [List.length_cons, moveKey]
    · dsimp only
      rw [hpush]
    · exact List.cons_ne_nil x xs
  | nil =>
    cases val with
    | nil => simp at hne
    | cons x xs =>
      rw [List.length_nil, moveKey, List.length_cons]
      dsimp only
      rw [moveData]
      · dsimp only
        rw [hpush]
      · exact List.cons_ne_nil x xs

theorem findBigpair_nil {kkey : ℕ → UInt8} {a : ℕ} (h : sub16 bsize ((pages a).word 1) ≠ 0) :
    findBigpair bsize pages kkey 0 fuel a 1 0 ≠ some (some 1) := by
  cases fuel with
  | zero => exact (Option.some_ne_none _).symm
  | succ fuel =>
    rw [findBigpair]
    rw [if_neg fun h' => h (Nat.le_zero.1 h'.1), Nat.add_zero, if_pos (Or.inl h)]
    simp

theorem not_stores_nil (hb : bsize ≤ 2 ^ 16) (hinj : Function.Injective ovfl)
    (hpage : 16 ≤ bsize ∨ bsize < 10) (hfresh : Fresh bsize (s.page (ovfl 0)))
    (hcount : s.count = 1) : ¬Stores bsize ovfl [] val s := by
  rintro ⟨s', hinsert, hreads⟩
  refine findBigpair_nil ?_ (hreads.find (fun _ => 0) 0)
  by_cases hval : val = []
  · -- nothing is stored, so the first word is the free space
    subst hval
    rw [bigInsert, List.length_nil, moveKey] at hinsert
    obtain rfl : s = s' := Option.some.inj hinsert
    have hword : (s.page (ovfl 0)).word 1 = sub16 bsize 6 := by
      rw [Page.word, hfresh.entries]
      exact hfresh.freespace
    rw [hword, sub16, sub16]
    omega
  · have hlarge : 16 ≤ bsize := hpage.resolve_right fun hsmall => by
      rw [bigInsert_small hsmall hfresh (Or.inr hval)] at hinsert
      cases hinsert
    obtain ⟨s₁, m, heq, hdata, -⟩ := moveData_spec hb hinj val.length hlarge hval
      (Nat.le_succ val.length) hfresh hcount
    rw [bigInsert, List.length_nil, moveKey] at hinsert
    obtain rfl := Option.some.inj (heq.symm.trans hinsert)
    cases hdata with
    | last hp =>
      rw [hp.bytes_eq hb]
      exact Nat.ne_of_gt hp.pos
    | more hp _ =>
      rw [hp.bytes_eq hb]
      exact Nat.ne_of_gt hp.pos

theorem not_stores_full (hb : bsize ≤ 2 ^ 16) (hinj : Function.Injective ovfl) (hlarge : 16 ≤ bsize)
    (hkey : key ≠ []) (hfresh : Fresh bsize (s.page (ovfl 0))) (hcount : s.count = 1)
    (hfull : (key.length + val.length) % (bsize - 14) = 0 ∧ val.length < bsize - 14) :
    ¬Stores bsize ovfl key val s := by
  rintro ⟨s', hinsert, hreads⟩
  obtain ⟨s₁, e, rest, m, heq, hlaid, hbehind⟩ :=
    bigInsert_spec val hb hinj hlarge hkey hfresh hcount
  obtain rfl := Option.some.inj (heq.symm.trans hinsert)
  obtain ⟨piece, t, hend, hlen, -⟩ := Laid.ends hlaid
  have htold : ¬Told s₁.page ovfl e rest := fun h => (told_iff hlarge hend hlen).1 h hfull
  have hle := hbehind.le
  obtain ⟨fuel, hfuel⟩ : ∃ f, s₁.count = f + 1 + (e - 0) := ⟨s₁.count - 1 - e, by omega⟩
  have hdata := hreads.data
  rw [hfuel, bigReturn_key hlaid, returnEnd_untold hlarge hb hend hbehind htold] at hdata
  cases hdata

/-- A big pair is stored and read exactly if its page has room for a piece, its key is not empty
and its data do not end where the page of the key does. -/
theorem stores_iff {k : ℕ} (hk : k ≤ 16) (hbsize : bsize = 2 ^ k) (hinj : Function.Injective ovfl)
    (hfresh : Fresh bsize (s.page (ovfl 0))) (hcount : s.count = 1)
    (hbig : bsize < key.length + val.length + 14) :
    Stores bsize ovfl key val s ↔ 16 ≤ bsize ∧ key ≠ [] ∧
      ¬((key.length + val.length) % (bsize - 14) = 0 ∧ val.length < bsize - 14) := by
  have hb : bsize ≤ 2 ^ 16 := hbsize ▸ Nat.pow_le_pow_right Nat.two_pos hk
  have hpage : 16 ≤ bsize ∨ bsize < 10 := by
    by_cases hk' : 4 ≤ k
    · exact Or.inl (hbsize ▸ Nat.pow_le_pow_right Nat.two_pos hk')
    · have hle : 2 ^ k ≤ 2 ^ 3 := Nat.pow_le_pow_right Nat.two_pos (by omega)
      exact Or.inr (by omega)
  constructor
  · intro hstores
    have hkey : key ≠ [] := fun hkey =>
      not_stores_nil hb hinj hpage hfresh hcount (hkey ▸ hstores)
    have hlarge : 16 ≤ bsize := hpage.resolve_right fun hsmall => by
      obtain ⟨s', hinsert, -⟩ := hstores
      rw [bigInsert_small hsmall hfresh (Or.inl hkey)] at hinsert
      cases hinsert
    exact ⟨hlarge, hkey, fun hfull =>
      not_stores_full hb hinj hlarge hkey hfresh hcount hfull hstores⟩
  · rintro ⟨hlarge, hkey, hfit⟩
    obtain ⟨s', e, rest, m, heq, hlaid, hbehind⟩ :=
      bigInsert_spec val hb hinj hlarge hkey hfresh hcount
    obtain ⟨piece, t, hend, hlen, -⟩ := Laid.ends hlaid
    exact ⟨s', heq, reads_of_told hb hlaid hbehind ((told_iff hlarge hend hlen).2 hfit) hbig⟩

def firstPage (bsize : ℕ) : Pages := ⟨fun _ => pageInit bsize ⟨[], 0, 0, fun _ => 0⟩, 1⟩

theorem stores_thirtySeven :
    Stores 32 (100 + ·) (List.replicate 20 1) (List.replicate 17 2) (firstPage 32) :=
  (stores_iff (k := 5) (by decide) rfl (fun _ _ => Nat.add_left_cancel) ⟨rfl, rfl, rfl⟩ rfl
    (by decide)).2 ⟨by decide, List.cons_ne_nil _ _, by decide⟩

/-- Sixteen bytes of data end where the second page of the key does. -/
theorem not_stores_thirtySix :
    ¬Stores 32 (100 + ·) (List.replicate 20 1) (List.replicate 16 2) (firstPage 32) :=
  not_stores_full (by decide) (fun _ _ => Nat.add_left_cancel) (by decide) (List.cons_ne_nil _ _)
    ⟨rfl, rfl, rfl⟩ rfl (by decide)

end Bsdi.Db.Hash.Big
