import Bsdi.Db.Btree.Compare

/-!
# Separators cut short

`__bt_split` keeps of the first key of a right half only what `__bt_defpfx` asks for to tell
it from the last key on its left.
-/

namespace Bsdi.Db

open Bsdi.Lib

variable {a b k : Dbt}

theorem lexCmp_nil_right : lexCmp a [] = a.length := by cases a <;> simp [lexCmp]

theorem btDefpfx_le (h : lexCmp a b < 0) : btDefpfx a b ≤ b.length := by
  induction a generalizing b with
  | nil =>
    cases b with
    | nil => simp [lexCmp] at h
    | cons y bs => simp [btDefpfx]
  | cons x as ih =>
    cases b with
    | nil =>
      rw [lexCmp_nil_right] at h
      omega
    | cons y bs =>
      rw [btDefpfx, List.length_cons]
      split_ifs with hxy
      · omega
      · obtain rfl : x = y := not_not.1 hxy
        have := ih (lexCmp_cons_self ▸ h)
        omega

theorem lexCmp_take_of_lt {n : Nat} (hn : n < btDefpfx a b) : ¬ lexCmp a (b.take n) < 0 := by
  induction a generalizing b n with
  | nil =>
    cases b with
    | nil => simp [btDefpfx] at hn
    | cons y bs =>
      obtain rfl : n = 0 := by simpa [btDefpfx] using hn
      simp [lexCmp]
  | cons x as ih =>
    cases n with
    | zero =>
      rw [List.take_zero, lexCmp_nil_right]
      omega
    | succ n =>
      cases b with
      | nil =>
        rw [List.take_nil, lexCmp_nil_right]
        omega
      | cons y bs =>
        rw [btDefpfx] at hn
        split_ifs at hn with hxy
        · omega
        · obtain rfl : x = y := not_not.1 hxy
          rw [List.take_succ_cons, lexCmp_cons_self]
          exact ih (by omega)

namespace Btree

/-- The entries of an internal page designate the given separators, which are in order from
the second one on. -/
structure Separates (c : Config) (t : Btree) (h : Page) (keys : List Dbt) : Prop where
  type : h.type = .binternal
  length : h.nextindex = keys.length
  slots : ∀ i k, keys[i]? = some k →
    ∃ bi, h.getBinternal i = .ok bi ∧ fullKey c t bi.key bi.bigkey = .ok k
  short : ∀ k ∈ keys, k.length < intMod
  sorted : (keys.drop 1).Pairwise fun k k' => btDefcmp k k' < 0

/-- The entry `__bt_search` follows from a page, after its binary search. -/
def followed (r : Nat × Bool) : Nat := if r.2 then r.1 else r.1 - 1

variable {c : Config} {t : Btree} {pg : Page} {keys : List Dbt} {sep : Dbt}

/-- The comparison of a key with entry `i`. -/
def keyCmp (key : Dbt) (prev : Pgno) (keys : List Dbt) (i : Nat) : Int :=
  if i = 0 ∧ prev = pInvalid then 1 else btDefcmp key (keys[i]?.getD [])

theorem keyCmp_of_pos {prev : Pgno} {i : Nat} (hi : 0 < i) (hsep : keys[i]? = some sep) :
    keyCmp k prev keys i = btDefcmp k sep := by
  rw [keyCmp, if_neg (by omega), hsep, Option.getD_some]

theorem Separates.btCmp_eq (hc : c.cmp = btDefcmp) (h : Separates c t pg keys) {i : Nat}
    (hi : i < keys.length) : btCmp c t k pg i = .ok (keyCmp k pg.prevpg keys i) := by
  have hget : keys[i]? = some keys[i] := List.getElem?_eq_getElem hi
  obtain ⟨bi, hbi, hfull⟩ := h.slots i _ hget
  rw [btCmp, h.type, keyCmp, hget, Option.getD_some]
  by_cases hfirst : i = 0 ∧ pg.prevpg = pInvalid
  · rw [if_pos hfirst, if_pos ⟨hfirst.1, hfirst.2, by decide⟩]
  · rw [if_neg hfirst, if_neg fun hall => hfirst ⟨hall.1, hall.2.1⟩, if_neg (by decide), hbi,
      ok_bind, hfull, ok_bind, hc]

theorem Separates.descends (h : Separates c t pg keys) (hk : k.length < intMod) :
    Descends (keyCmp k pg.prevpg keys) 1 keys.length := by
  intro i j hi hij hj hle
  have hgeti : keys[i]? = some keys[i] := List.getElem?_eq_getElem (by omega)
  have hgetj : keys[j]? = some keys[j] := List.getElem?_eq_getElem hj
  have hshort : ∀ i (hi : i < keys.length), (keys[i]).length < intMod :=
    fun i hi => h.short _ (List.getElem_mem hi)
  have hlt : btDefcmp keys[i] keys[j] < 0 := by
    have hpair := List.pairwise_iff_getElem.1 h.sorted (i - 1) (j - 1) (by simp; omega)
      (by simp; omega) (by omega)
    simpa only [List.getElem_drop, Nat.add_sub_cancel' hi,
      Nat.add_sub_cancel' (Nat.le_trans hi (Nat.le_of_lt hij))] using hpair
  rw [keyCmp_of_pos (by omega) hgeti, btDefcmp_eq hk (hshort i (by omega))] at hle
  rw [btDefcmp_eq (hshort i (by omega)) (hshort j hj)] at hlt
  rw [keyCmp_of_pos (by omega) hgetj, btDefcmp_eq hk (hshort j hj)]
  refine totalCmp_lexCmp.trans_le_lt (fun hneg => ?_) hlt
  have := (totalCmp_lexCmp.neg_swap keys[i] k).1 hneg
  omega

theorem Separates.follows (hc : c.cmp = btDefcmp) (h : Separates c t pg keys)
    (hk : k.length < intMod) {j : Nat} (hj : 0 < j) (hsep : keys[j]? = some sep) :
    ∃ r, btBsearch c t k pg pg.nextindex 0 pg.nextindex = .ok r ∧
      (btDefcmp k sep < 0 → followed r < j) ∧ (¬ btDefcmp k sep < 0 → j ≤ followed r) := by
  have hlt : j < keys.length := (List.getElem?_eq_some_iff.1 hsep).1
  have hfound : Found (keyCmp k pg.prevpg keys) 1 keys.length _ :=
    bsearch_found (Nat.le_refl 1) (h.descends hk)
  rw [h.length]
  refine ⟨_, btBsearch_eq (fun i hi => h.btCmp_eq hc hi) keys.length 0 keys.length (by omega), ?_⟩
  generalize bsearch (keyCmp k pg.prevpg keys) keys.length 0 keys.length = r at hfound ⊢
  have hbelow := hfound.below j hj
  have habove := fun hr => hfound.above j hj hr hlt
  have hhit : r.2 = true → r.1 = j → btDefcmp k sep = 0 := fun hr heq => by
    have hzero := (hfound.hit hr).2
    rwa [heq, keyCmp_of_pos hj hsep] at hzero
  have hhere : r.2 = false → r.1 = j → btDefcmp k sep < 0 := fun hr heq => by
    have hneg := hfound.here hr (by omega) (by omega)
    rwa [heq, keyCmp_of_pos hj hsep] at hneg
  rw [keyCmp_of_pos hj hsep] at hbelow habove
  rw [followed]
  cases hr : r.2 with
  | false =>
    have := hhere hr
    simp only [Bool.false_eq_true, if_false]
    constructor <;> intro hcmp <;> by_contra hcon <;> omega
  | true =>
    have := hhit hr
    simp only [if_true]
    constructor <;> intro hcmp <;> by_contra hcon <;> omega

theorem parentKey_default (hpfx : c.pfx = some btDefpfx) {tbl bl : BLeaf} (first : Bool)
    (skip : Nat) (hlt : lexCmp tbl.key bl.key < 0) :
    ∃ sep, parentKey c first skip tbl bl = .ok sep ∧ lexCmp tbl.key sep < 0 ∧
      ¬ lexCmp bl.key sep < 0 ∧ sep.length ≤ bl.key.length := by
  obtain ⟨hne, habove, hbelow⟩ := btDefpfx_spec hlt
  have hwhole : ¬ lexCmp bl.key bl.key < 0 := totalCmp_lexCmp.irrefl _
  simp only [parentKey, hpfx, hne, if_false]
  split_ifs
  · exact ⟨_, rfl, habove, hbelow, List.length_take_le' _ _⟩
  · exact ⟨_, rfl, hlt, hwhole, Nat.le_refl _⟩
  · exact ⟨_, rfl, hlt, hwhole, Nat.le_refl _⟩

/-- `__bt_defcmp` is a total order, `__bt_defpfx` finds the shortest prefix of the greater key
above the smaller one, and a separator cut by `__bt_split` divides the keys between the two
halves wherever it stands on a page. -/
theorem btDefpfx_separates :
    (∀ a b : Dbt, a.length < intMod → b.length < intMod →
      (btDefcmp a b = 0 ↔ a = b) ∧ (btDefcmp a b < 0 ↔ 0 < btDefcmp b a)) ∧
    (∀ a b d : Dbt, a.length < intMod → b.length < intMod → d.length < intMod →
      btDefcmp a b < 0 → btDefcmp b d < 0 → btDefcmp a d < 0) ∧
    ∀ a b : Dbt, a.length < intMod → b.length < intMod → btDefcmp a b < 0 →
      btDefpfx a b ≤ b.length ∧
      btDefcmp a (b.take (btDefpfx a b)) < 0 ∧
      btDefcmp (b.take (btDefpfx a b)) b ≤ 0 ∧
      (∀ p, p <+: b → p.length < btDefpfx a b → ¬ btDefcmp a p < 0) ∧
      ∀ c first skip tbl bl, c.cmp = btDefcmp → c.pfx = some btDefpfx → tbl.key = a → bl.key = b →
        ∃ sep, parentKey c first skip tbl bl = .ok sep ∧
          ∀ t pg keys j k, Separates c t pg keys → 0 < j → keys[j]? = some sep →
            k.length < intMod →
            ∃ r, btBsearch c t k pg pg.nextindex 0 pg.nextindex = .ok r ∧
              (btDefcmp k a ≤ 0 → followed r < j) ∧ (0 ≤ btDefcmp k b → j ≤ followed r) := by
  refine ⟨fun a b ha hb => ?_, fun a b d ha hb hd hab hbd => ?_, fun a b ha hb hab => ?_⟩
  · rw [btDefcmp_eq ha hb, btDefcmp_eq hb ha]
    exact ⟨lexCmp_eq_zero a b, totalCmp_lexCmp.neg_swap a b⟩
  · rw [btDefcmp_eq ha hb] at hab
    rw [btDefcmp_eq hb hd] at hbd
    rw [btDefcmp_eq ha hd]
    exact lexCmp_trans a b d hab hbd
  · rw [btDefcmp_eq ha hb] at hab
    obtain ⟨-, habove, hbelow⟩ := btDefpfx_spec hab
    have htake : (b.take (btDefpfx a b)).length < intMod :=
      Nat.lt_of_le_of_lt (List.length_take_le' _ _) hb
    refine ⟨btDefpfx_le hab, ?_, ?_, fun p hp hlen => ?_, ?_⟩
    · rwa [btDefcmp_eq ha htake]
    · rw [btDefcmp_eq htake hb]
      have := totalCmp_lexCmp.neg_swap b (b.take (btDefpfx a b))
      omega
    · rw [btDefcmp_eq ha (Nat.lt_of_le_of_lt hp.length_le hb), List.prefix_iff_eq_take.1 hp]
      exact lexCmp_take_of_lt hlen
    · rintro c first skip tbl bl hc hpfx rfl rfl
      obtain ⟨sep, heq, hleft, hright, hlen⟩ := parentKey_default hpfx first skip hab
      refine ⟨sep, heq, fun t pg keys j k hkeys hj hsep hk => ?_⟩
      obtain ⟨r, hr, hlt, hge⟩ := hkeys.follows hc hk hj hsep
      have hsepLen : sep.length < intMod := Nat.lt_of_le_of_lt hlen hb
      rw [btDefcmp_eq hk hsepLen] at hlt hge
      rw [btDefcmp_eq hk ha, btDefcmp_eq hk hb]
      refine ⟨r, hr, fun hle => hlt ?_, fun hle => hge fun hcon => ?_⟩
      · refine totalCmp_lexCmp.trans_le_lt (fun hneg => ?_) hleft
        have := (totalCmp_lexCmp.neg_swap tbl.key k).1 hneg
        omega
      · refine hright (totalCmp_lexCmp.trans_le_lt (fun hneg => ?_) hcon)
        omega

/-- A root page over two leaf pages, the second one behind the separator `[2]`. -/
def cutRoot : Page :=
  { pgno := pRoot, prevpg := pInvalid, nextpg := pInvalid, type := .binternal, preserve := false,
    linp := [some (.bi ⟨[], 2, false⟩), some (.bi ⟨[2], 3, false⟩)], dead := none, bytes := [] }

theorem separates_cutRoot (c : Config) (t : Btree) : Separates c t cutRoot [[], [2]] where
  type := rfl
  length := rfl
  slots i k hk := by
    rcases i with _ | _ | i
    · exact ⟨⟨[], 2, false⟩, rfl, by simpa [fullKey] using hk⟩
    · exact ⟨⟨[2], 3, false⟩, rfl, by simpa [fullKey] using hk⟩
    · simp at hk
  short := by decide
  sorted := by simp

/-- Of `[2, 7, 9, 9]`, behind `[1, 5]`, only `[2]` is kept. -/
theorem btDefpfx_separates_cut :
    parentKey (openConfig ⟨false, 512, 2, none, none⟩ 8192 1000) false 1 ⟨[1, 5], [], false, false⟩
        ⟨[2, 7, 9, 9], [], false, false⟩ = .ok [2] ∧
      ∃ r, btBsearch (openConfig ⟨false, 512, 2, none, none⟩ 8192 1000) (newTree .bleaf) [1, 5]
        cutRoot 2 0 2 = .ok r ∧ followed r < 1 := by
  obtain ⟨-, -, hsep⟩ := btDefpfx_separates
  obtain ⟨-, -, -, -, hcut⟩ := hsep [1, 5] [2, 7, 9, 9] (by decide) (by decide) (by decide)
  obtain ⟨sep, heq, hroute⟩ := hcut (openConfig ⟨false, 512, 2, none, none⟩ 8192 1000) false 1
    ⟨[1, 5], [], false, false⟩ ⟨[2, 7, 9, 9], [], false, false⟩ rfl rfl rfl rfl
  have hkept : parentKey (openConfig ⟨false, 512, 2, none, none⟩ 8192 1000) false 1
      ⟨[1, 5], [], false, false⟩ ⟨[2, 7, 9, 9], [], false, false⟩ = .ok [2] := by decide
  obtain rfl := Except.ok.inj (hkept.symm.trans heq)
  obtain ⟨r, hr, hleft, -⟩ := hroute (newTree .bleaf) cutRoot [[], [2]] 1 [1, 5]
    (separates_cutRoot _ _) (by decide) rfl (by decide)
  exact ⟨hkept, r, hr, hleft (by decide)⟩

end Btree

end Bsdi.Db
