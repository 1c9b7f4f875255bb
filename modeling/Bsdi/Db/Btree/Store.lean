import Bsdi.Db.Btree.Shape

/-!
# Chains that come and go

A pair that is too big moves to overflow chains before it is inserted, and the chains of
a record are deleted with it. Items that refer to other chains stand for the same bytes
before and after.
-/

namespace Bsdi.Db

open Bsdi.Lib

namespace Btree

variable {c : Config} {t t₀ : Btree} {cs cs' : List Chain} {fs fs' : List Pgno}
variable {leaves : List Node} {levels levels' ups : List (List Node)} {raw : Dbt}
variable {size size' : Nat} {ps ps' : List Page} {free free' : Pgno} {P Q : Bool → Prop}

theorem HasRef.mono (h : HasRef cs P raw) (hPQ : ∀ b, P b → Q b) : HasRef cs Q raw := by
  obtain ⟨ch, hch, hhead, hlen, hP⟩ := h
  exact ⟨ch, hch, hhead, hlen, hPQ _ hP⟩

theorem HasRef.keep (h : HasRef cs P raw)
    (hkeep : ∀ ch ∈ cs, ch.pgnos.head? = some (ofLe32 raw) → P ch.preserve → ch ∈ cs') :
    HasRef cs' P raw := by
  obtain ⟨ch, hch, hhead, hlen, hP⟩ := h
  exact ⟨ch, hkeep ch hch hhead hP, hhead, hlen, hP⟩

theorem full_keep (h : Rep size ps free ⟨levels, cs, fs⟩) (h' : Rep size' ps' free' ⟨levels', cs', fs'⟩)
    (href : HasRef cs P raw)
    (hkeep : ∀ ch ∈ cs, ch.pgnos.head? = some (ofLe32 raw) → P ch.preserve → ch ∈ cs') :
    full cs' true raw = full cs true raw := by
  obtain ⟨ch, hch, hhead, -, hP⟩ := href
  rw [full_of_mem h hch hhead, full_of_mem h' (hkeep ch hch hhead hP) hhead]

/-- The chains of `cs` that are preserved or not named in `refs` are in `cs'`. -/
def Keeps (cs cs' : List Chain) (refs : List Pgno) : Prop :=
  ∀ ch ∈ cs, (∀ q ∈ refs, ch.pgnos.head? ≠ some q) ∨ ch.preserve = true → ch ∈ cs'

/-- Both pools have a slot's chains. -/
structure SameSlot (cs cs' : List Chain) (s : Option Item) : Prop where
  key : slotKey cs' s = slotKey cs s
  pair : slotPair cs' s = slotPair cs s

section

variable {refs : List Pgno} {s : Option Item}

theorem Keeps.chain {q : Pgno} {ch : Chain} (hkeep : Keeps cs cs' refs) (hq : q ∉ refs)
    (hch : ch ∈ cs) (hhead : ch.pgnos.head? = some q) : ch ∈ cs' := by
  refine hkeep ch hch (.inl fun q' hq' heq => hq ?_)
  rwa [Option.some.inj (hhead.symm.trans heq)]

theorem refs_apart {bl : BLeaf} (hapart : ∀ q ∈ slotRefs (some (.bl bl)), q ∉ refs) :
    (bl.bigkey = true → ofLe32 bl.key ∉ refs) ∧ (bl.bigdata = true → ofLe32 bl.data ∉ refs) :=
  ⟨fun hb => hapart _ (by simp [slotRefs, hb]), fun hb => hapart _ (by simp [slotRefs, hb])⟩

theorem Keeps.leafSlot (hkeep : Keeps cs cs' refs) (h : LeafSlot c cs s)
    (hapart : ∀ q ∈ slotRefs s, q ∉ refs) : LeafSlot c cs' s := by
  obtain ⟨bl, rfl, hlen, hkey, hdata⟩ := h
  obtain ⟨hk, hd⟩ := refs_apart hapart
  exact ⟨bl, rfl, hlen, fun hb => (hkey hb).keep fun ch hch hhead _ => hkeep.chain (hk hb) hch hhead,
    fun hb => (hdata hb).keep fun ch hch hhead _ => hkeep.chain (hd hb) hch hhead⟩

theorem Keeps.internalSlot (hkeep : Keeps cs cs' refs) (h : InternalSlot c cs s) :
    InternalSlot c cs' s := by
  obtain ⟨bi, rfl, hlen, hkey⟩ := h
  exact ⟨bi, rfl, hlen, fun hb => (hkey hb).keep fun ch hch _ hP => hkeep ch hch (.inr hP)⟩

theorem Keeps.sameLeaf (hkeep : Keeps cs cs' refs) (h : Rep size ps free ⟨levels, cs, fs⟩)
    (h' : Rep size' ps' free' ⟨levels', cs', fs'⟩) (hs : LeafSlot c cs s)
    (hapart : ∀ q ∈ slotRefs s, q ∉ refs) : SameSlot cs cs' s := by
  obtain ⟨bl, rfl, -, hkey, hdata⟩ := hs
  obtain ⟨hk, hd⟩ := refs_apart hapart
  have hsame : ∀ {big raw} {P : Bool → Prop}, (big = true → HasRef cs P raw) →
      (big = true → ofLe32 raw ∉ refs) → full cs' big raw = full cs big raw := by
    intro big raw P href hraw
    cases big with
    | false => rfl
    | true => exact full_keep h h' (href rfl) fun ch hch hhead _ => hkeep.chain (hraw rfl) hch hhead
  exact ⟨by simp [slotKey, itemKey, hsame hkey hk],
    by simp [slotPair, recordPair, hsame hkey hk, hsame hdata hd]⟩

theorem Keeps.sameInternal (hkeep : Keeps cs cs' refs) (h : Rep size ps free ⟨levels, cs, fs⟩)
    (h' : Rep size' ps' free' ⟨levels', cs', fs'⟩) (hs : InternalSlot c cs s) :
    SameSlot cs cs' s := by
  obtain ⟨bi, rfl, -, hkey⟩ := hs
  refine ⟨?_, rfl⟩
  cases hb : bi.bigkey with
  | false => simp [slotKey, itemKey, hb]
  | true =>
    have := full_keep h h' (hkey hb) fun ch hch _ hP => hkeep ch hch (.inr hP)
    simp [slotKey, itemKey, hb, this]

theorem Shape.rechain (hshape : Shape c cs leaves ups) (hkeep : Keeps cs cs' refs)
    (hapart : ∀ n ∈ leaves, ∀ s ∈ n.linp, ∀ q ∈ slotRefs s, q ∉ refs) : Shape c cs' leaves ups where
  tower := hshape.tower
  leaf n hn :=
    { hshape.leaf n hn with
      slots := fun s hs => hkeep.leafSlot ((hshape.leaf n hn).slots s hs) (hapart n hn s hs) }
  internal up hup n hn :=
    { hshape.internal up hup n hn with
      slots := fun s hs => hkeep.internalSlot ((hshape.internal up hup n hn).slots s hs) }
  refs := hshape.refs

theorem Shape.same (hshape : Shape c cs leaves ups) (hkeep : Keeps cs cs' refs)
    (hapart : ∀ n ∈ leaves, ∀ s ∈ n.linp, ∀ q ∈ slotRefs s, q ∉ refs)
    (h : Rep size ps free ⟨levels, cs, fs⟩) (h' : Rep size' ps' free' ⟨levels', cs', fs'⟩) :
    ∀ level ∈ leaves :: ups, ∀ n ∈ level, ∀ s ∈ n.linp, SameSlot cs cs' s := by
  intro level hlevel n hn s hs
  rcases List.mem_cons.1 hlevel with rfl | hup
  · exact hkeep.sameLeaf h h' ((hshape.leaf n hn).slots s hs) (hapart n hn s hs)
  · exact hkeep.sameInternal h h' ((hshape.internal level hup n hn).slots s hs)

theorem nodeKeys_congr {n : Node} (h : ∀ s ∈ n.linp, SameSlot cs cs' s) :
    nodeKeys cs' n = nodeKeys cs n := List.filterMap_congr fun s hs => (h s hs).key

theorem contents_congr (h : ∀ n ∈ leaves, ∀ s ∈ n.linp, SameSlot cs cs' s) :
    contents cs' leaves = contents cs leaves := by
  rw [contents, contents]
  exact List.flatMap_congr fun n hn => List.filterMap_congr fun s hs => (h n hn s hs).pair

theorem leafFences_congr (h : ∀ up ∈ ups, ∀ n ∈ up, ∀ s ∈ n.linp, SameSlot cs cs' s) :
    leafFences cs' ups = leafFences cs ups :=
  fences_congr fun up hup n hn s hs => (h up hup n hn s hs).key

theorem Ordered.rechain {ord : Dbt → Dbt → Int} {dom : Dbt → Prop}
    (h : Ordered ord dom cs leaves ups)
    (hsame : ∀ level ∈ leaves :: ups, ∀ n ∈ level, ∀ s ∈ n.linp, SameSlot cs cs' s) :
    Ordered ord dom cs' leaves ups where
  fenced := by
    have hkeys : leaves.map (nodeKeys cs') = leaves.map (nodeKeys cs) :=
      List.map_congr_left fun n hn => nodeKeys_congr (hsame leaves (by simp) n hn)
    rw [hkeys, leafFences_congr fun up hup => hsame up (List.mem_cons_of_mem _ hup)]
    exact h.fenced
  dom level hlevel n hn s hs k hk :=
    h.dom level hlevel n hn s hs k (by rwa [(hsame level hlevel n hn s hs).key] at hk)

end

theorem Put.ref {bytes : Dbt} {pgs : List Pgno} {r : Pgno × Btree}
    (h : Put c t ⟨levels, cs, fs⟩ none bytes pgs fs' r) (hlen : bytes.length < u32Mod) :
    ofLe32 (ovflRef r.1 bytes.length) = r.1 ∧
      HasRef (⟨pgs, bytes, false⟩ :: cs) (· = false) (ovflRef r.1 bytes.length) ∧
      full (⟨pgs, bytes, false⟩ :: cs) true (ovflRef r.1 bytes.length) = bytes := by
  have hmem := List.mem_of_mem_head? h.head
  have hlt : r.1 < u32Mod := Nat.lt_of_lt_of_le (h.chain.lt_length _ hmem) h.rep.max
  have hpg : ofLe32 (ovflRef r.1 bytes.length) = r.1 := ofLe32_ovflRef hlt
  have hhead : pgs.head? = some (ofLe32 (ovflRef r.1 bytes.length)) := by rw [hpg, h.head]
  exact ⟨hpg, ⟨_, List.mem_cons_self .., hhead, ofLe32_drop_ovflRef hlen, rfl⟩,
    full_of_mem h.rep_cons (List.mem_cons_self ..) hhead⟩

/-- A pair on its way to a leaf page, after the chains `new` were stored for it. -/
structure Pending (c : Config) (t₀ : Btree) (levels : List (List Node)) (cs : List Chain)
    (fs : List Pgno) (key data : Dbt) (new : List Chain) (fs' : List Pgno) (t : Btree) (bl : BLeaf) :
    Prop where
  eq : t = { t₀ with pages := t.pages, free := t.free }
  rep : Rep (plen c) t.pages t.free ⟨levels, new ++ cs, fs'⟩
  suffix : fs' <:+ fs
  le : t₀.pages.length ≤ t.pages.length
  same : ∀ q < t₀.pages.length, q ∉ new.flatMap Chain.pgnos → t.pages[q]? = t₀.pages[q]?
  pair : recordPair (new ++ cs) bl = (key, data)
  key : bl.bigkey = true → HasRef (new ++ cs) (· = false) bl.key
  data : bl.bigdata = true → HasRef (new ++ cs) (· = false) bl.data
  nodup : (slotRefs (some (.bl bl))).Nodup
  refs : ∀ q ∈ slotRefs (some (.bl bl)), q ∈ new.flatMap Chain.pgnos
  plain : ∀ ch ∈ new, ch.preserve = false

section

variable {key data : Dbt} {new : List Chain} {bl : BLeaf}

theorem full_cons {ch : Chain} {big : Bool} (h : Rep size ps free ⟨levels, cs, fs⟩)
    (h' : Rep size' ps' free' ⟨levels', ch :: cs, fs'⟩) (href : big = true → HasRef cs P raw) :
    full (ch :: cs) big raw = full cs big raw := by
  cases big with
  | false => rfl
  | true => exact full_keep h h' (href rfl) fun _ hch _ _ => List.mem_cons_of_mem ch hch

theorem HasRef.cons (h : HasRef cs P raw) (ch : Chain) : HasRef (ch :: cs) P raw :=
  h.keep fun _ hch _ _ => List.mem_cons_of_mem ch hch

theorem Pending.put {bytes : Dbt} {pgs fs'' : List Pgno} {r : Pgno × Btree}
    (h : Pending c t₀ levels cs fs key data new fs' t bl)
    (hput : Put c t ⟨levels, new ++ cs, fs'⟩ none bytes pgs fs'' r) :
    r.2 = { t₀ with pages := r.2.pages, free := r.2.free } ∧ fs'' <:+ fs ∧
      t₀.pages.length ≤ r.2.pages.length ∧
      (∀ q < t₀.pages.length, q ∉ (⟨pgs, bytes, false⟩ :: new).flatMap Chain.pgnos →
        r.2.pages[q]? = t₀.pages[q]?) ∧
      (∀ q ∈ new.flatMap Chain.pgnos, q ≠ r.1) := by
  have heq := hput.eq
  rw [h.eq] at heq
  refine ⟨heq, hput.suffix.trans h.suffix, Nat.le_trans h.le hput.le, fun q hq hnot => ?_, ?_⟩
  · simp only [List.flatMap_cons, List.mem_append, not_or] at hnot
    rw [hput.same q (Nat.lt_of_lt_of_le hq h.le) hnot.1 (by simp), h.same q hq hnot.2]
  · rintro q hq rfl
    refine (hput.loose _ (List.mem_of_mem_head? hput.head)).1 ?_
    simp only [View.pgnos, List.flatMap_append, List.mem_append]
    tauto

theorem ovflKey_spec (hsize : 0 < plen c) (hpages : c.maxpages ≤ u32Mod)
    (h : Pending c t₀ levels cs fs key data new fs' t bl) (hsmall : bl.bigkey = false)
    (hlen : bl.key.length < u32Mod) :
    Ensures (· = .nospace) (ovflKey c t bl) fun r => ∃ new' fs'',
      Pending c t₀ levels cs fs key data new' fs'' r.1 r.2 ∧
      r.2 = { bl with key := r.2.key, bigkey := true } ∧ r.2.key.length = novflsize := by
  rw [ovflKey]
  refine (ovflPut_spec hsize hpages h.rep).bind ?_
  rintro ⟨pg, t₁⟩ ⟨pgs, fs'', hput⟩
  obtain ⟨heq, hsuffix, hle, hsame, hapart⟩ := h.put hput
  obtain ⟨hpg, href, hfull⟩ := hput.ref hlen
  have hpair := h.pair
  simp only [recordPair, hsmall, full_false, Prod.mk.injEq] at hpair
  refine ⟨⟨pgs, bl.key, false⟩ :: new, fs'', ?_, rfl, length_ovflRef ..⟩
  exact
    { eq := heq
      rep := hput.rep_cons
      suffix := hsuffix
      le := hle
      same := hsame
      pair := by
        rw [List.cons_append, recordPair, full_cons h.rep hput.rep_cons h.data, hfull, hpair.1,
          hpair.2]
      key := fun _ => href
      data := fun hb => (h.data hb).cons _
      nodup := by
        have hdata : ∀ q ∈ (if bl.bigdata then [ofLe32 bl.data] else []), q ≠ pg := fun q hq =>
          hapart q (h.refs q (by simp only [slotRefs, List.mem_append]; exact .inr hq))
        have hown := h.nodup
        simp only [slotRefs, hsmall, Bool.false_eq_true, if_false, List.nil_append] at hown
        simp only [slotRefs, hpg, if_true, List.singleton_append, List.nodup_cons]
        exact ⟨fun hmem => hdata _ hmem rfl, hown⟩
      refs := fun q hq => by
        simp only [slotRefs, hpg, if_true, List.singleton_append, List.mem_cons] at hq
        simp only [List.flatMap_cons, List.mem_append]
        rcases hq with rfl | hq
        · exact .inl (List.mem_of_mem_head? hput.head)
        · exact .inr (h.refs q (by simp only [slotRefs, List.mem_append]; exact .inr hq))
      plain := List.forall_mem_cons.2 ⟨rfl, h.plain⟩ }

theorem ovflData_spec (hsize : 0 < plen c) (hpages : c.maxpages ≤ u32Mod)
    (h : Pending c t₀ levels cs fs key data new fs' t bl) (hsmall : bl.bigdata = false)
    (hlen : bl.data.length < u32Mod) :
    Ensures (· = .nospace) (ovflData c t bl) fun r => ∃ new' fs'',
      Pending c t₀ levels cs fs key data new' fs'' r.1 r.2 ∧
      r.2 = { bl with data := r.2.data, bigdata := true } ∧ r.2.data.length = novflsize := by
  rw [ovflData]
  refine (ovflPut_spec hsize hpages h.rep).bind ?_
  rintro ⟨pg, t₁⟩ ⟨pgs, fs'', hput⟩
  obtain ⟨heq, hsuffix, hle, hsame, hapart⟩ := h.put hput
  obtain ⟨hpg, href, hfull⟩ := hput.ref hlen
  have hpair := h.pair
  simp only [recordPair, hsmall, full_false, Prod.mk.injEq] at hpair
  have hkeys : ∀ q ∈ (if bl.bigkey then [ofLe32 bl.key] else []),
      q ∈ new.flatMap Chain.pgnos := fun q hq =>
    h.refs q (by simp only [slotRefs, List.mem_append]; exact .inl hq)
  refine ⟨⟨pgs, bl.data, false⟩ :: new, fs'', ?_, rfl, length_ovflRef ..⟩
  exact
    { eq := heq
      rep := hput.rep_cons
      suffix := hsuffix
      le := hle
      same := hsame
      pair := by
        rw [List.cons_append, recordPair, full_cons h.rep hput.rep_cons h.key, hfull, hpair.1,
          hpair.2]
      key := fun hb => (h.key hb).cons _
      data := fun _ => href
      nodup := by
        have hown := h.nodup
        simp only [slotRefs, hsmall, Bool.false_eq_true, if_false, List.append_nil] at hown
        simp only [slotRefs, hpg, if_true]
        refine List.nodup_append.2 ⟨hown, by simp, fun q hq q' hq' heq' => ?_⟩
        obtain rfl : q' = pg := by simpa using hq'
        exact hapart q (hkeys q hq) heq'
      refs := fun q hq => by
        simp only [slotRefs, hpg, if_true, List.mem_append, List.mem_singleton] at hq
        simp only [List.flatMap_cons, List.mem_append]
        rcases hq with hq | rfl
        · exact .inr (hkeys q hq)
        · exact .inl (List.mem_of_mem_head? hput.head)
      plain := List.forall_mem_cons.2 ⟨rfl, h.plain⟩ }

theorem Pending.start (hrep : Rep (plen c) t.pages t.free ⟨levels, cs, fs⟩) :
    Pending c t levels cs fs key data [] fs t ⟨key, data, false, false⟩ where
  eq := rfl
  rep := hrep
  suffix := List.suffix_refl fs
  le := Nat.le_refl _
  same _ _ _ := rfl
  pair := rfl
  key := by simp
  data := by simp
  nodup := by simp [slotRefs]
  refs := by simp [slotRefs]
  plain := by simp

def dataOnPage (c : Config) (key data : Dbt) : Nat :=
  if tooBig c ⟨key, data, false, false⟩ then novflsize else data.length

theorem storePair_spec (hs : Sound c) (hrep : Rep (plen c) t.pages t.free ⟨levels, cs, fs⟩)
    (hkey : key.length < u32Mod) (hdata : data.length < u32Mod) :
    Ensures (· = .nospace) (storePair c t key data) fun r => ∃ new fs',
      Pending c t levels cs fs key data new fs' r.1 r.2 ∧
      r.2.key.length + r.2.data.length ≤ c.ovflsize ∧
      (key.length + novflsize ≤ c.ovflsize →
        r.2.bigkey = false ∧ r.2.data.length = dataOnPage c key data) := by
  have hstart : Pending c t levels cs fs key data [] fs t ⟨key, data, false, false⟩ :=
    Pending.start hrep
  have hovfl := hs.ovflsize
  rw [storePair, dataOnPage]
  split_ifs with hbig
  · simp only [tooBig, decide_eq_true_eq] at hbig
    by_cases hstore : c.ovflsize < key.length
    · -- the key goes first, the data follows if the reference does not leave room for it
      simp only [hstore, decide_true]
      rw [storeLoop, if_pos rfl]
      refine (ovflKey_spec hs.plen_pos hs.maxpages hstart rfl hkey).bind ?_
      rintro ⟨t₁, bl₁⟩ ⟨new₁, fs₁, h₁, heq₁, hlen₁⟩
      dsimp only at h₁ heq₁ hlen₁ ⊢
      have hdata₁ : bl₁.data = data ∧ bl₁.bigdata = false := by rw [heq₁]; simp
      split_ifs with htoo
      · refine (ovflData_spec hs.plen_pos hs.maxpages h₁ hdata₁.2 (by rw [hdata₁.1]; exact hdata)).bind ?_
        rintro ⟨t₂, bl₂⟩ ⟨new₂, fs₂, h₂, heq₂, hlen₂⟩
        dsimp only at h₂ heq₂ hlen₂ ⊢
        have hkey₂ : bl₂.key = bl₁.key := by rw [heq₂]
        have hfits : bl₂.key.length + bl₂.data.length ≤ c.ovflsize := by rw [hkey₂]; omega
        rw [if_neg (by simpa [tooBig] using hfits)]
        exact ⟨new₂, fs₂, h₂, hfits, by omega⟩
      · rw [ok_bind]
        dsimp only
        rw [if_neg htoo]
        exact ⟨new₁, fs₁, h₁, by simpa [tooBig] using htoo, by omega⟩
    · simp only [hstore, decide_false]
      rw [storeLoop, if_neg (by simp), ok_bind]
      dsimp only
      rw [if_pos (by simpa [tooBig] using hbig)]
      refine (ovflData_spec hs.plen_pos hs.maxpages hstart rfl hdata).bind ?_
      rintro ⟨t₁, bl₁⟩ ⟨new₁, fs₁, h₁, heq₁, hlen₁⟩
      dsimp only at h₁ heq₁ hlen₁ ⊢
      have hkey₁ : bl₁.key = key ∧ bl₁.bigkey = false := by rw [heq₁]; simp
      split_ifs with htoo
      · -- the key does not leave room for the reference to the data
        simp only [tooBig, decide_eq_true_eq, hkey₁.1, hlen₁] at htoo
        cases hfuel : c.maxpages with
        | zero => exact rfl
        | succ fuel =>
          rw [storeLoop, if_pos rfl]
          refine (ovflKey_spec hs.plen_pos hs.maxpages h₁ hkey₁.2 (by rw [hkey₁.1]; exact hkey)).bind ?_
          rintro ⟨t₂, bl₂⟩ ⟨new₂, fs₂, h₂, heq₂, hlen₂⟩
          dsimp only at h₂ heq₂ hlen₂ ⊢
          have hdata₂ : bl₂.data = bl₁.data := by rw [heq₂]
          have hfits : bl₂.key.length + bl₂.data.length ≤ c.ovflsize := by rw [hdata₂]; omega
          have hnot : ¬ tooBig c bl₂ = true := by simpa [tooBig] using hfits
          rw [if_neg hnot, ok_bind]
          dsimp only
          rw [if_neg hnot]
          exact ⟨new₂, fs₂, h₂, hfits, by omega⟩
      · exact ⟨new₁, fs₁, h₁, by simpa [tooBig] using htoo, fun _ => ⟨hkey₁.2, hlen₁⟩⟩
  · exact ⟨[], fs, hstart, by simpa [tooBig] using hbig, fun _ => ⟨rfl, rfl⟩⟩

end

end Btree

end Bsdi.Db
