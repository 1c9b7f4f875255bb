import Bsdi.Db.Btree.View

/-!
# Overflow chains read back what was stored

`__ovfl_put` adds a chain to the view of a pool, `__ovfl_get` returns its bytes and
`__ovfl_delete` moves its pages to the free list.
-/

namespace Bsdi.Db

open Bsdi.Lib

theorem ofLe32_le32 {n : Nat} (h : n < u32Mod) (rest : Dbt) : ofLe32 (le32 n ++ rest) = n := by
  simp only [u32Mod] at h
  simp only [le32, List.cons_append, ofLe32, UInt8.toNat_ofNat']
  omega

theorem ofLe32_ovflRef {pg size : Nat} (h : pg < u32Mod) : ofLe32 (ovflRef pg size) = pg :=
  ofLe32_le32 h _

theorem ofLe32_drop_ovflRef {pg size : Nat} (h : size < u32Mod) :
    ofLe32 ((ovflRef pg size).drop 4) = size := by
  have : (ovflRef pg size).drop 4 = le32 size ++ [] := rfl
  rw [this, ofLe32_le32 h]

@[simp] theorem length_ovflRef (pg size : Nat) : (ovflRef pg size).length = novflsize := rfl

namespace Btree

variable {c : Config} {t : Btree} {v : View} {pgs : List Pgno} {bytes p : Dbt}

theorem ChainAt.length_le {size : Nat} {ps : List Page} (hsize : 0 < size)
    (h : ChainAt size ps pgs bytes) : pgs.length ≤ bytes.length + 1 := by
  induction pgs generalizing bytes with
  | nil => simp
  | cons q rest ih =>
    cases rest with
    | nil => simp
    | cons r rest =>
      have hrest := ih h.2.2
      have hlen := h.1
      simp only [List.length_cons, List.length_drop] at hrest ⊢
      omega

theorem ovflGetLoop_spec (h : ChainAt (plen c) t.pages pgs bytes) {fuel pg : Nat}
    (hpg : pgs.head? = some pg) (hfuel : pgs.length ≤ fuel) :
    ovflGetLoop c t fuel pg bytes.length = .ok bytes := by
  induction pgs generalizing bytes fuel pg with
  | nil => exact h.elim
  | cons q rest ih =>
    obtain rfl : q = pg := by simpa using hpg
    obtain ⟨fuel, rfl⟩ : ∃ m, fuel = m + 1 := ⟨fuel - 1, by simp at hfuel; omega⟩
    cases rest with
    | nil =>
      obtain ⟨hle, h, hget, -, -, hbytes⟩ := h
      simp [ovflGetLoop, mpoolGet, hget, hle, hbytes]
    | cons r rest =>
      obtain ⟨hlt, ⟨h, hget, -, -, hbytes, hnext⟩, hrest⟩ := h
      have hread : ovflGetLoop c t fuel r (bytes.drop (plen c)).length = .ok (bytes.drop (plen c)) :=
        ih hrest rfl (by simpa using hfuel)
      rw [List.length_drop] at hread
      simp [ovflGetLoop, mpoolGet, hget, Nat.not_le.2 hlt, hbytes, hnext, hread, List.take_take]

theorem ovflGet_spec (hsize : 0 < plen c) (h : ChainAt (plen c) t.pages pgs bytes)
    (hpg : pgs.head? = some (ofLe32 p)) (hlen : ofLe32 (p.drop 4) = bytes.length) :
    ovflGet c t p = .ok bytes := by
  rw [ovflGet, hlen]
  exact ovflGetLoop_spec h hpg (h.length_le hsize)

theorem ovflDeleteLoop_spec {fuel pg : Nat} (hrep : Rep (plen c) t.pages t.free v)
    (h : ChainAt (plen c) t.pages pgs bytes) (hnodup : pgs.Nodup)
    (hloose : ∀ q ∈ pgs, q ∉ v.pgnos ∧ q ≠ pInvalid) (hpg : pgs.head? = some pg)
    (hfuel : pgs.length ≤ fuel) :
    ∃ ps' free', ovflDeleteLoop c fuel t pg bytes.length =
        .ok { t with pages := ps', free := free' } ∧
      Rep (plen c) ps' free' { v with free := pgs.reverse ++ v.free } ∧
      ps'.length = t.pages.length ∧ ∀ q, q ∉ pgs → ps'[q]? = t.pages[q]? := by
  induction pgs generalizing bytes fuel pg t v with
  | nil => exact h.elim
  | cons q rest ih =>
    obtain rfl : q = pg := by simpa using hpg
    obtain ⟨fuel, rfl⟩ : ∃ m, fuel = m + 1 := ⟨fuel - 1, by simp at hfuel; omega⟩
    rw [List.nodup_cons] at hnodup
    obtain ⟨hq, hne⟩ := hloose q (by simp)
    cases rest with
    | nil =>
      obtain ⟨hle, h, hget, hpgno, -, -⟩ := h
      obtain ⟨hfree, hrep'⟩ := btFree_spec hrep hq hne hget hpgno
      refine ⟨_, _, ?_, by simpa using hrep', by simp, fun q' hq' => ?_⟩
      · simp only [ovflDeleteLoop, mpoolGet, hget, ok_bind, hfree, hle, if_true]
      · exact List.getElem?_set_ne fun heq => hq' (by simp [heq])
    | cons r rest =>
      obtain ⟨hlt, ⟨h, hget, hpgno, -, -, hnext⟩, hrest⟩ := h
      obtain ⟨hfree, hrep'⟩ := btFree_spec hrep hq hne hget hpgno
      have hrest' := hrest.frame (agree_set (h := { h with prevpg := pInvalid, nextpg := t.free })
        hnodup.1)
      have hloose' : ∀ q' ∈ r :: rest,
          q' ∉ View.pgnos { v with free := q :: v.free } ∧ q' ≠ pInvalid := by
        intro q' hq'
        refine ⟨fun hmem => ?_, (hloose q' (List.mem_cons_of_mem q hq')).2⟩
        have hmem' : q' = q ∨ q' ∈ v.pgnos := by
          simp only [View.pgnos, List.mem_append, List.mem_cons] at hmem ⊢
          tauto
        rcases hmem' with rfl | hmem'
        · exact hnodup.1 hq'
        · exact (hloose q' (List.mem_cons_of_mem q hq')).1 hmem'
      obtain ⟨ps', free', heq, hrep'', hlen, hsame⟩ :=
        ih (t := { t with
              pages := t.pages.set q { h with prevpg := pInvalid, nextpg := t.free }, free := q })
          hrep' hrest' hnodup.2 hloose' rfl (Nat.le_of_succ_le_succ hfuel)
      refine ⟨ps', free', ?_, by simpa using hrep'', by simpa using hlen, fun q' hq' => ?_⟩
      · rw [List.length_drop] at heq
        simp only [ovflDeleteLoop, mpoolGet, hget, ok_bind, hfree, Nat.not_le.2 hlt, if_false,
          hnext, heq]
      · rw [hsame q' fun hmem => hq' (List.mem_cons_of_mem q hmem)]
        exact List.getElem?_set_ne fun heq => hq' (by simp [heq])

theorem pgnos_chain (levels : List (List Node)) (C₁ C₂ : List Chain) (ch : Chain)
    (fs : List Pgno) :
    (View.pgnos ⟨levels, C₁ ++ ch :: C₂, fs⟩).Perm
      (ch.pgnos ++ View.pgnos ⟨levels, C₁ ++ C₂, fs⟩) := by
  have hperm := List.perm_append_comm_assoc (levels.flatten.map Node.pgno ++ C₁.flatMap Chain.pgnos)
    ch.pgnos (C₂.flatMap Chain.pgnos ++ fs)
  simpa [View.pgnos] using hperm

theorem ovflDelete_spec {levels : List (List Node)} {C₁ C₂ : List Chain} {ch : Chain}
    {fs : List Pgno} (hsize : 0 < plen c)
    (hrep : Rep (plen c) t.pages t.free ⟨levels, C₁ ++ ch :: C₂, fs⟩)
    (hpg : ch.pgnos.head? = some (ofLe32 p)) (hlen : ofLe32 (p.drop 4) = ch.bytes.length) :
    ∃ ps' free', ovflDelete c t p = .ok { t with pages := ps', free := free' } ∧
      (ch.preserve = true → ps' = t.pages ∧ free' = t.free) ∧
      (ch.preserve = false →
        Rep (plen c) ps' free' ⟨levels, C₁ ++ C₂, ch.pgnos.reverse ++ fs⟩) ∧
      ps'.length = t.pages.length ∧ ∀ q, q ∉ ch.pgnos → ps'[q]? = t.pages[q]? := by
  have hstored := hrep.chains ch (by simp)
  have hmem : ofLe32 p ∈ ch.pgnos := List.mem_of_mem_head? hpg
  obtain ⟨h, hget⟩ : ∃ h, t.pages[ofLe32 p]? = some h :=
    ⟨_, List.getElem?_eq_getElem (hstored.1.lt_length _ hmem)⟩
  have hpreserve := hstored.2 _ hpg h hget
  cases hch : ch.preserve with
  | true =>
    rw [hch] at hpreserve
    exact ⟨t.pages, t.free, by simp [ovflDelete, mpoolGet, hget, hpreserve], fun _ => ⟨rfl, rfl⟩,
      by simp, rfl, fun _ _ => rfl⟩
  | false =>
    rw [hch] at hpreserve
    have hnodup := List.nodup_append.1 ((pgnos_chain _ _ _ _ _).nodup_iff.1 hrep.nodup)
    have hnonzero := (pgnos_chain _ _ _ _ _).mem_iff.not.1 hrep.nonzero
    rw [List.mem_append, not_or] at hnonzero
    have hothers : Rep (plen c) t.pages t.free ⟨levels, C₁ ++ C₂, fs⟩ :=
      { hrep with
        chains := fun ch' hch' => hrep.chains ch' (by
          simp only [List.mem_append, List.mem_cons] at hch' ⊢
          tauto)
        nodup := hnodup.2.1
        nonzero := hnonzero.2 }
    obtain ⟨ps', free', heq, hrep', hlength, hsame⟩ :=
      ovflDeleteLoop_spec hothers hstored.1 hnodup.1
        (fun q hq => ⟨fun hmem => hnodup.2.2 q hq q hmem rfl,
          fun hzero => hnonzero.1 (hzero ▸ hq)⟩) hpg (hstored.1.length_le hsize)
    refine ⟨ps', free', ?_, by simp, fun _ => hrep', hlength, hsame⟩
    simp only [ovflDelete, mpoolGet, hget, ok_bind, hpreserve, hlen, heq]
    simp

/-- The outcome of storing bytes on new pages: `pgs` are the pages, `fs` is what is left
of the free list. Of the pages there were, only those taken off the free list and the
page `last`, which is linked to the first new one, have changed. -/
structure Put (c : Config) (t : Btree) (v : View) (last : Option Pgno) (bytes : Dbt)
    (pgs fs : List Pgno) (r : Pgno × Btree) : Prop where
  eq : r.2 = { t with pages := r.2.pages, free := r.2.free }
  rep : Rep (plen c) r.2.pages r.2.free { v with free := fs }
  chain : ChainAt (plen c) r.2.pages pgs bytes
  head : pgs.head? = some r.1
  preserve : ∀ h, r.2.pages[r.1]? = some h → h.preserve = false
  nodup : pgs.Nodup
  loose : ∀ q ∈ pgs, q ∉ View.pgnos { v with free := fs } ∧ q ≠ pInvalid
  new : ∀ q ∈ pgs, q ∈ v.free ∨ t.pages.length ≤ q
  suffix : fs <:+ v.free
  le : t.pages.length ≤ r.2.pages.length
  same : ∀ q < t.pages.length, q ∉ pgs → (∀ l ∈ last, q ≠ l) → r.2.pages[q]? = t.pages[q]?
  link : ∀ l ∈ last, ∀ h, t.pages[l]? = some h → r.2.pages[l]? = some { h with nextpg := r.1 }

theorem ovflLink_spec {last : Option Pgno} (npg : Pgno) (hlast : ∀ l ∈ last, l < t.pages.length) :
    ∃ ps', ovflLink t last npg = .ok { t with pages := ps' } ∧ ps'.length = t.pages.length ∧
      (∀ q, (∀ l ∈ last, q ≠ l) → ps'[q]? = t.pages[q]?) ∧
      ∀ l ∈ last, ∀ h, t.pages[l]? = some h → ps'[l]? = some { h with nextpg := npg } := by
  cases last with
  | none => exact ⟨t.pages, rfl, rfl, fun _ _ => rfl, by simp⟩
  | some l =>
    have hlt := hlast l (by simp)
    have hget : t.pages[l]? = some t.pages[l] := List.getElem?_eq_getElem hlt
    refine ⟨t.pages.set l { t.pages[l] with nextpg := npg }, ?_, by simp, fun q hq => ?_, ?_⟩
    · simp [ovflLink, mpoolGet, hget, setPage]
    · exact List.getElem?_set_ne fun heq => hq l (by simp) heq.symm
    · intro l' hl' h hh
      obtain rfl : l = l' := by simpa using hl'
      obtain rfl : t.pages[l] = h := Option.some.inj (hget.symm.trans hh)
      exact List.getElem?_set_self hlt

theorem mem_pgnos_mono {fs fs' : List Pgno} {q : Pgno} (hsub : ∀ q ∈ fs', q ∈ fs)
    (hq : q ∈ View.pgnos { v with free := fs' }) : q ∈ View.pgnos { v with free := fs } := by
  simp only [View.pgnos, List.mem_append] at hq ⊢
  rcases hq with hq | hq | hq
  · exact .inl hq
  · exact .inr (.inl hq)
  · exact .inr (.inr (hsub q hq))

theorem Allocated.suffix {size : Nat} {fs : List Pgno} {q : Pgno} {t' : Btree}
    (h : Allocated size c t v fs q t') : fs <:+ v.free := by
  rcases h.taken with htaken | ⟨htaken, -⟩
  · exact ⟨[q], by simp [htaken]⟩
  · exact ⟨[], by simp [htaken]⟩

theorem Put.first {last : Option Pgno} {fs : List Pgno} {npg : Pgno} {t₁ : Btree} {ps' : List Page}
    (ha : Allocated (plen c) c t v fs npg t₁)
    (hlast : ∀ l ∈ last, l < t.pages.length ∧ l ∉ v.pgnos)
    (hlen : ps'.length = t₁.pages.length)
    (hsame : ∀ q, (∀ l ∈ last, q ≠ l) →
      ps'[q]? = (t₁.pages.set npg (ovflPage npg (bytes.take (plen c))))[q]?)
    (hlink : ∀ l ∈ last, ∀ h, (t₁.pages.set npg (ovflPage npg (bytes.take (plen c))))[l]? = some h →
      ps'[l]? = some { h with nextpg := npg }) :
    (∀ l ∈ last, npg ≠ l) ∧ ps'[npg]? = some (ovflPage npg (bytes.take (plen c))) ∧
      Rep (plen c) ps' t₁.free { v with free := fs } ∧
      (∀ q < t.pages.length, q ≠ npg → (∀ l ∈ last, q ≠ l) → ps'[q]? = t.pages[q]?) ∧
      ∀ l ∈ last, ∀ h, t.pages[l]? = some h → ps'[l]? = some { h with nextpg := npg } := by
  have hne : ∀ l ∈ last, npg ≠ l := by
    rintro l hl rfl
    rcases ha.taken with htaken | ⟨-, heq⟩
    · exact (hlast _ hl).2 (by simp [View.pgnos, htaken])
    · exact Nat.lt_irrefl _ (heq ▸ (hlast _ hl).1)
  refine ⟨hne, ?_, ?_, fun q hq hqn hql => ?_, fun l hl h hget => hlink l hl h ?_⟩
  · rw [hsame npg hne, List.getElem?_set_self ha.lt]
  · refine ha.rep.frame (fun q hq => ?_) (by omega)
    rw [hsame q, List.getElem?_set_ne]
    · rintro rfl
      exact ha.notMem hq
    · rintro l hl rfl
      exact (hlast q hl).2 (mem_pgnos_mono ha.suffix.subset hq)
  · rw [hsame q hql, List.getElem?_set_ne hqn.symm, ha.same q hq]
  · rw [List.getElem?_set_ne (hne l hl), ha.same l (hlast l hl).1, hget]

/-- Every page that was taken off the free list `fs₀` or added to the pool is in use. -/
def Uses (t : Btree) (fs₀ : List Pgno) (pgs fs : List Pgno) (t' : Btree) : Prop :=
  ∀ q, (q ∈ fs₀ ∧ q ∉ fs) ∨ (t.pages.length ≤ q ∧ q < t'.pages.length) → q ∈ pgs

theorem ovflPutLoop_spec (hsize : 0 < plen c) (hpages : c.maxpages ≤ u32Mod) {fuel : Nat}
    (bytes : Dbt) (last : Option Pgno) (hrep : Rep (plen c) t.pages t.free v)
    (hlast : ∀ l ∈ last, l < t.pages.length ∧ l ∉ v.pgnos) (hfuel : bytes.length < fuel) :
    Ensures (· = .nospace) (ovflPutLoop c fuel t last bytes) fun r =>
      ∃ pgs fs, Put c t v last bytes pgs fs r ∧ Uses t v.free pgs fs r.2 := by
  induction fuel generalizing t v last bytes with
  | zero => omega
  | succ fuel ih =>
    rw [ovflPutLoop]
    refine (btNew_spec hpages hrep).with_eq.bind ?_
    rintro ⟨npg, t₁⟩ ⟨hnpg, fs, ha⟩
    have hlast₁ := btNew_last hnpg
    dsimp only at ha hlast₁ ⊢
    have huses : ∀ q, (q ∈ v.free ∧ q ∉ fs) ∨ (t.pages.length ≤ q ∧ q < t₁.pages.length) → q = npg := by
      rintro q (⟨hmem, hnot⟩ | ⟨hle, hlt⟩)
      · rcases ha.taken with htaken | ⟨htaken, -⟩
        · rw [htaken, List.mem_cons] at hmem
          exact hmem.resolve_right hnot
        · exact absurd (htaken ▸ hmem) hnot
      · exact hlast₁ q hle hlt
    obtain ⟨ps', heq, hlen, hsame, hlink⟩ :=
      ovflLink_spec (t := t₁.setPage npg (ovflPage npg (bytes.take (plen c)))) npg
        fun l hl => by simpa [setPage] using Nat.lt_of_lt_of_le (hlast l hl).1 ha.le
    obtain ⟨hne, hnew, hrep', hsame', hlink'⟩ :=
      Put.first ha hlast (by simpa [setPage] using hlen) hsame hlink
    rw [heq, ok_bind]
    have hlen' : ps'.length = t₁.pages.length := by simpa [setPage] using hlen
    have hle := ha.le
    have heq' : ({ t₁.setPage npg (ovflPage npg (bytes.take (plen c))) with pages := ps' } : Btree) =
        { t with pages := ps', free := t₁.free } := by
      rw [ha.eq]
      rfl
    rw [heq']
    split_ifs with hfits
    · refine ⟨[npg], fs, ?_, fun q hq => List.mem_singleton.2 (huses q (by simpa [hlen'] using hq))⟩
      exact
        { eq := rfl
          rep := hrep'
          chain := ⟨hfits, _, hnew, rfl, rfl, by simp [ovflPage, List.take_of_length_le hfits]⟩
          head := rfl
          preserve := fun h hget => by
            obtain rfl := Option.some.inj (hnew.symm.trans hget)
            rfl
          nodup := by simp
          loose := by simpa using ⟨ha.notMem, ha.ne⟩
          new := by
            rcases ha.taken with htaken | ⟨-, heq⟩
            · simp [htaken]
            · simp [heq]
          suffix := ha.suffix
          le := by simp only; omega
          same := fun q hq hqn => hsame' q hq (by simpa using hqn)
          link := hlink' }
    · -- the rest goes behind the new page, which belongs to nobody yet
      have hnpg : npg < ps'.length := hlen' ▸ ha.lt
      refine (ih (t := { t with pages := ps', free := t₁.free }) (bytes.drop (plen c))
        (some npg) hrep' (by simpa using ⟨hnpg, ha.notMem⟩) (by simp; omega)).bind ?_
      rintro ⟨q, t₂⟩ ⟨pgs, fs', hput, huses'⟩
      have hnot : npg ∉ pgs := fun hmem => by
        rcases hput.new npg hmem with h | h
        · exact ha.notMem (by simp [View.pgnos, h])
        · exact Nat.not_le.2 hnpg h
      have hle' := hput.le
      simp only at hle'
      have hchain : ChainAt (plen c) t₂.pages (npg :: pgs) bytes := by
        obtain ⟨r, rest, rfl⟩ := List.exists_cons_of_ne_nil (l := pgs) fun hnil => by
          simpa [hnil] using hput.head
        obtain rfl : r = q := by simpa using hput.head
        exact ⟨Nat.not_le.1 hfits, ⟨_, hput.link npg (by simp) _ hnew, rfl, rfl,
          rfl, rfl⟩, hput.chain⟩
      have huses₂ : Uses t v.free (npg :: pgs) fs' t₂ := fun p hp => by
        by_cases hnew : p = npg
        · exact hnew ▸ List.mem_cons_self ..
        · refine List.mem_cons_of_mem npg (huses' p (hp.imp (fun hp => ⟨?_, hp.2⟩) fun hp => ⟨?_, hp.2⟩))
          · exact by_contra fun hnot => hnew (huses p (.inl ⟨hp.1, hnot⟩))
          · simp only [hlen']
            exact Nat.not_lt.1 fun hlt => hnew (huses p (.inr ⟨hp.1, hlt⟩))
      refine ⟨npg :: pgs, fs', ?_, huses₂⟩
      exact
        { eq := by
            have := hput.eq
            simp only at this ⊢
            rw [this]
          rep := hput.rep
          chain := hchain
          head := rfl
          preserve := fun h hget => by
            obtain rfl := Option.some.inj ((hput.link npg (by simp) _ hnew).symm.trans hget)
            rfl
          nodup := List.nodup_cons.2 ⟨hnot, hput.nodup⟩
          loose := fun p hp => by
            rcases List.mem_cons.1 hp with rfl | hp
            · exact ⟨fun hmem => ha.notMem (mem_pgnos_mono hput.suffix.subset hmem), ha.ne⟩
            · exact hput.loose p hp
          new := fun p hp => by
            rcases List.mem_cons.1 hp with rfl | hp
            · rcases ha.taken with htaken | ⟨-, heq⟩
              · simp [htaken]
              · simp [heq]
            · rcases hput.new p hp with h | h
              · exact .inl (ha.suffix.subset h)
              · exact .inr (by simp only at h; omega)
          suffix := hput.suffix.trans ha.suffix
          le := by simp only; omega
          same := fun p hp hpn hpl => by
            rw [List.mem_cons, not_or] at hpn
            have hstep := hput.same p (by simp only; omega) hpn.2 (by simpa using hpn.1)
            exact hstep.trans (hsame' p hp hpn.1 hpl)
          link := fun l hl h hget => by
            have hl' := hlast l hl
            have hnotl : l ∉ pgs := fun hmem => by
              rcases hput.new l hmem with h | h
              · exact hl'.2 (by simp [View.pgnos, ha.suffix.subset h])
              · exact Nat.not_le.2 (hlen' ▸ Nat.lt_of_lt_of_le hl'.1 hle) h
            have hstep := hput.same l (hlen' ▸ Nat.lt_of_lt_of_le hl'.1 hle) hnotl
              (by simpa using fun heq => hne l hl heq.symm)
            exact hstep.trans (hlink' l hl h hget) }

theorem ovflPut_uses (hsize : 0 < plen c) (hpages : c.maxpages ≤ u32Mod)
    (hrep : Rep (plen c) t.pages t.free v) :
    Ensures (· = .nospace) (ovflPut c t bytes) fun r =>
      ∃ pgs fs, Put c t v none bytes pgs fs r ∧ Uses t v.free pgs fs r.2 :=
  ovflPutLoop_spec hsize hpages bytes none hrep (by simp) (Nat.lt_succ_self _)

theorem ovflPut_spec (hsize : 0 < plen c) (hpages : c.maxpages ≤ u32Mod)
    (hrep : Rep (plen c) t.pages t.free v) :
    Ensures (· = .nospace) (ovflPut c t bytes) fun r =>
      ∃ pgs fs, Put c t v none bytes pgs fs r :=
  (ovflPut_uses hsize hpages hrep).mono fun _ hr => by
    obtain ⟨pgs, fs, hput, -⟩ := hr
    exact ⟨pgs, fs, hput⟩

theorem Put.rep_cons {pgs fs : List Pgno} {r : Pgno × Btree} (h : Put c t v none bytes pgs fs r) :
    Rep (plen c) r.2.pages r.2.free
      ⟨v.levels, ⟨pgs, bytes, false⟩ :: v.chains, fs⟩ := by
  have hperm : (View.pgnos ⟨v.levels, ⟨pgs, bytes, false⟩ :: v.chains, fs⟩).Perm
      (pgs ++ View.pgnos ⟨v.levels, v.chains, fs⟩) := by
    simpa using pgnos_chain v.levels [] v.chains ⟨pgs, bytes, false⟩ fs
  exact
    { linked := h.rep.linked
      chains := fun ch hch => by
        rcases List.mem_cons.1 hch with rfl | hch
        · refine ⟨h.chain, fun p hp pg hget => ?_⟩
          obtain rfl : r.1 = p := Option.some.inj (h.head.symm.trans hp)
          exact h.preserve pg hget
        · exact h.rep.chains ch hch
      free := h.rep.free
      nodup := hperm.nodup_iff.2 (List.nodup_append.2 ⟨h.nodup, h.rep.nodup,
        fun p hp q hq heq => (h.loose p hp).1 (heq ▸ hq)⟩)
      nonzero := by
        rw [hperm.mem_iff, List.mem_append, not_or]
        exact ⟨fun hmem => (h.loose _ hmem).2 rfl, h.rep.nonzero⟩
      pos := h.rep.pos
      max := h.rep.max }

/-- The pages are as they were, except that they may have been preserved since. -/
def Intact (pgs : List Pgno) (ps ps' : List Page) : Prop :=
  ∀ q ∈ pgs, ∀ h, ps[q]? = some h →
    ∃ h', ps'[q]? = some h' ∧ h' = { h with preserve := h'.preserve }

theorem ChainAt.intact {size : Nat} {ps ps' : List Page} (h : ChainAt size ps pgs bytes)
    (hsame : Intact pgs ps ps') : ChainAt size ps' pgs bytes := by
  induction pgs generalizing bytes with
  | nil => exact h
  | cons p rest ih =>
    cases rest with
    | nil =>
      obtain ⟨hle, pg, hget, hpgno, htype, hbytes⟩ := h
      obtain ⟨pg', hget', heq⟩ := hsame p (by simp) pg hget
      exact ⟨hle, pg', hget', by rw [heq, hpgno], by rw [heq, htype], by rw [heq, hbytes]⟩
    | cons q rest =>
      obtain ⟨hlt, ⟨pg, hget, hpgno, htype, hbytes, hnext⟩, hrest⟩ := h
      obtain ⟨pg', hget', heq⟩ := hsame p (by simp) pg hget
      exact ⟨hlt, ⟨pg', hget', by rw [heq, hpgno], by rw [heq, htype], by rw [heq, hbytes],
        by rw [heq, hnext]⟩, ih hrest fun q' hq' => hsame q' (List.mem_cons_of_mem p hq')⟩

theorem ovflDelete_loose {fs : List Pgno} (hsize : 0 < plen c)
    (hrep : Rep (plen c) t.pages t.free ⟨[], [], fs⟩) (h : ChainAt (plen c) t.pages pgs bytes)
    (hnodup : pgs.Nodup) (hloose : ∀ q ∈ pgs, q ∉ fs ∧ q ≠ pInvalid)
    (hpg : pgs.head? = some (ofLe32 p)) (hlen : ofLe32 (p.drop 4) = bytes.length)
    (hpreserve : ∀ h, t.pages[ofLe32 p]? = some h → h.preserve = false) :
    ∃ ps' free', ovflDelete c t p = .ok { t with pages := ps', free := free' } ∧
      Rep (plen c) ps' free' ⟨[], [], pgs.reverse ++ fs⟩ ∧ ∀ q, q ∉ pgs → ps'[q]? = t.pages[q]? := by
  obtain ⟨hd, hget⟩ : ∃ hd, t.pages[ofLe32 p]? = some hd :=
    ⟨_, List.getElem?_eq_getElem (h.lt_length _ (List.mem_of_mem_head? hpg))⟩
  obtain ⟨ps', free', heq, hrep', -, hsame⟩ := ovflDeleteLoop_spec hrep h hnodup
    (by simpa [View.pgnos] using hloose) hpg (h.length_le hsize)
  refine ⟨ps', free', ?_, hrep', hsame⟩
  simp only [ovflDelete, mpoolGet, hget, ok_bind, hpreserve hd hget, hlen, heq]
  simp

/-- From any free list, `__ovfl_put` takes pages `pgs` for its bytes. As long as these are
intact, `__ovfl_get` returns the bytes, and `__ovfl_delete` of a chain that is not preserved
puts just these pages back, onto whatever free list there is then. -/
theorem ovflPut_round_trip {fs : List Pgno} (hpsize : btdataoff < c.psize)
    (hpages : c.maxpages ≤ u32Mod) (hlen : bytes.length < u32Mod)
    (hrep : Rep (plen c) t.pages t.free ⟨[], [], fs⟩) :
    Ensures (· = .nospace) (ovflPut c t bytes) fun r =>
      ∃ pgs fs₁, pgs.Nodup ∧ FreeAt r.2.pages r.2.free fs₁ ∧
        (∀ q, q ∈ pgs ↔
          (q ∈ fs ∧ q ∉ fs₁) ∨ (t.pages.length ≤ q ∧ q < r.2.pages.length)) ∧
        ∀ t₂, Intact pgs r.2.pages t₂.pages →
          ovflGet c t₂ (ovflRef r.1 bytes.length) = .ok bytes ∧
          ∀ fs₂, Rep (plen c) t₂.pages t₂.free ⟨[], [], fs₂⟩ → (∀ q ∈ pgs, q ∉ fs₂) →
            (∀ h, t₂.pages[r.1]? = some h → h.preserve = false) →
            ∃ t₃, ovflDelete c t₂ (ovflRef r.1 bytes.length) = .ok t₃ ∧
              t₃ = { t₂ with pages := t₃.pages, free := t₃.free } ∧
              FreeAt t₃.pages t₃.free (pgs.reverse ++ fs₂) ∧ (pgs.reverse ++ fs₂).Nodup ∧
              ∀ q, q ∉ pgs → t₃.pages[q]? = t₂.pages[q]? := by
  have hsize : 0 < plen c := Nat.sub_pos_of_lt hpsize
  refine (ovflPut_uses hsize hpages hrep).mono ?_
  rintro ⟨pg, t₁⟩ ⟨pgs, fs₁, hput, huses⟩
  dsimp only at hput huses ⊢
  have hhead : pgs.head? = some pg := hput.head
  have hmem : pg ∈ pgs := List.mem_of_mem_head? hhead
  have hpg : ofLe32 (ovflRef pg bytes.length) = pg := by
    refine ofLe32_ovflRef (Nat.lt_of_lt_of_le ?_ hput.rep.max)
    exact hput.chain.lt_length pg hmem
  have hsz : ofLe32 ((ovflRef pg bytes.length).drop 4) = bytes.length := ofLe32_drop_ovflRef hlen
  refine ⟨pgs, fs₁, hput.nodup, hput.rep.free, fun q => ⟨fun hq => ?_, huses q⟩, fun t₂ hsame => ?_⟩
  · have hnot : q ∉ fs₁ := fun hfs => (hput.loose q hq).1 (by simp [View.pgnos, hfs])
    exact (hput.new q hq).imp (fun hfs => ⟨hfs, hnot⟩) fun hle => ⟨hle, hput.chain.lt_length q hq⟩
  · have hchain : ChainAt (plen c) t₂.pages pgs bytes := hput.chain.intact hsame
    refine ⟨ovflGet_spec hsize hchain (by rw [hpg, hhead]) hsz, fun fs₂ hrep₂ hfs₂ hpres => ?_⟩
    obtain ⟨ps', free', heq, hrep', hothers⟩ := ovflDelete_loose hsize hrep₂ hchain hput.nodup
      (fun q hq => ⟨hfs₂ q hq, (hput.loose q hq).2⟩) (by rw [hpg, hhead]) hsz (by rwa [hpg])
    exact ⟨_, heq, rfl, hrep'.free, by simpa [View.pgnos] using hrep'.nodup, hothers⟩

def chainConfig : Config :=
  { psize := 512, ovflsize := 232, cmp := fun _ _ => 0, pfx := none, nodups := true,
    rdonly := false, recno := false, fixlen := false, reclen := 0, bval := 0, maxpages := 10 }

def chainPool : Btree :=
  { pages := [junkPage, junkPage, junkPage], free := 2, order := .not, last := ⟨0, 0⟩,
    cursor := ⟨⟨0, 0⟩, [], 0, false, false, false, false⟩, stack := [], nrecs := 0,
    modified := false, metadirty := false }

theorem rep_chainPool : Rep (plen chainConfig) chainPool.pages chainPool.free ⟨[], [], [2]⟩ where
  linked := by simp
  chains := by simp
  free := ⟨rfl, junkPage, rfl, rfl⟩
  nodup := by simp [View.pgnos]
  nonzero := by simp [View.pgnos, pInvalid]
  pos := by decide
  max := by decide

def twoPages : Dbt := List.replicate 984 7

theorem length_twoPages : twoPages.length = 984 := List.length_replicate

theorem ovflPut_round_trip_twice :
    ∃ pg t₁, ovflPut chainConfig chainPool twoPages = .ok (pg, t₁) ∧
      ovflGet chainConfig t₁ (ovflRef pg twoPages.length) = .ok twoPages := by
  have hlt : twoPages.length < u32Mod := by
    rw [length_twoPages]
    decide
  have hok : (ovflPut chainConfig chainPool twoPages).toBool = true := by decide +kernel
  generalize twoPages = bytes at hlt hok ⊢
  have htrip := ovflPut_round_trip (by decide) (by decide) hlt rep_chainPool
  generalize ovflPut chainConfig chainPool bytes = res at htrip hok ⊢
  cases res with
  | error e => exact nomatch hok
  | ok r =>
    obtain ⟨pgs, fs₁, -, -, -, hread⟩ := htrip
    exact ⟨r.1, r.2, rfl, (hread r.2 fun q _ h hget => ⟨h, hget, rfl⟩).1⟩

end Btree

end Bsdi.Db
