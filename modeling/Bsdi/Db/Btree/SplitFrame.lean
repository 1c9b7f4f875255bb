import Bsdi.Db.Btree.Cut

/-!
# What a split leaves alone

The loop of `__bt_split` over the parents writes to the pages on the stack and to new pages. The
indices of the other pages and a cursor on one of them stay as they are.
-/

namespace Bsdi.Db

open Bsdi.Lib

namespace Btree

variable {c : Config} {t t₁ t₂ : Btree} {P S fs : List Pgno} {pg : Pgno}

def core (h : Page) : Pgno × Pgno × PageType × List (Option Item) :=
  (h.pgno, h.nextpg, h.type, h.linp)

/-- At most the pages in `P` have changed. -/
structure Spares (P : List Pgno) (t t₁ : Btree) : Prop where
  len : t.pages.length ≤ t₁.pages.length
  same : ∀ q < t.pages.length, q ∉ P → t₁.pages[q]?.map core = t.pages[q]?.map core

theorem Spares.refl (P : List Pgno) (t : Btree) : Spares P t t := ⟨Nat.le_refl _, fun _ _ _ => rfl⟩

theorem Spares.trans (h : Spares P t t₁) (h' : Spares P t₁ t₂) : Spares P t t₂ :=
  ⟨Nat.le_trans h.len h'.len, fun q hq hP =>
    (h'.same q (Nat.lt_of_lt_of_le hq h.len) hP).trans (h.same q hq hP)⟩

/-- The same, and the free list, the cursor and the stack stay too. -/
structure Writes (P : List Pgno) (t t₁ : Btree) : Prop where
  spares : Spares P t t₁
  free : t₁.free = t.free
  cursor : t₁.cursor = t.cursor
  stack : t₁.stack = t.stack

theorem Writes.refl (P : List Pgno) (t : Btree) : Writes P t t := ⟨Spares.refl P t, rfl, rfl, rfl⟩

theorem Writes.trans (h : Writes P t t₁) (h' : Writes P t₁ t₂) : Writes P t t₂ :=
  ⟨h.spares.trans h'.spares, h'.free.trans h.free, h'.cursor.trans h.cursor,
    h'.stack.trans h.stack⟩

theorem writes_setPage (h : Page) (hpg : pg ∈ P) : Writes P t (t.setPage pg h) := by
  refine ⟨⟨by simp [setPage], fun q hq hP => ?_⟩, rfl, rfl, rfl⟩
  rw [setPage, List.getElem?_set_ne]
  rintro rfl
  exact hP hpg

theorem writes_touch {h h' : Page} (hget : t.mpoolGet pg = .ok h) (hcore : core h' = core h) :
    Writes P t (t.setPage pg h') := by
  have hpage : t.pages[pg]? = some h := by
    rw [mpoolGet] at hget
    split at hget
    · rename_i h₁ heq
      rw [heq, Except.ok.inj hget]
    · cases hget
  refine ⟨⟨by simp [setPage], fun q hq _ => ?_⟩, rfl, rfl, rfl⟩
  by_cases heq : q = pg
  · subst heq
    rw [setPage, List.getElem?_set_self hq, hpage]
    exact congrArg some hcore
  · rw [setPage, List.getElem?_set_ne (Ne.symm heq)]

theorem writes_relinkSide {f : Page → Page} (hf : ∀ h, core (f h) = core h)
    (h : relinkSide t pg f = .ok t₁) : Writes P t t₁ := by
  rw [relinkSide] at h
  split_ifs at h
  · obtain rfl := Except.ok.inj h
    exact Writes.refl P t
  · obtain ⟨p, hget, hset⟩ := bind_eq_ok.1 h
    obtain rfl := Except.ok.inj hset
    exact writes_touch hget (hf p)

theorem writes_btPreserve (h : btPreserve t pg = .ok t₁) : Writes P t t₁ := by
  obtain ⟨p, hget, hset⟩ := bind_eq_ok.1 h
  obtain rfl := Except.ok.inj hset
  exact writes_touch hget rfl

theorem storeItem_ok {skip : Nat} {item : Item} (h : storeItem c t pg skip item = .ok t₁) :
    ∃ p, t.mpoolGet pg = .ok p ∧ skip < p.linp.length ∧
      t₁ = t.setPage pg { p with linp := p.linp.set skip (some item) } := by
  obtain ⟨p, hget, hset⟩ := bind_eq_ok.1 h
  dsimp only at hset
  split_ifs at hset with hroom
  exact ⟨p, hget, hroom.1, (Except.ok.inj hset).symm⟩

theorem writes_storeItem {skip : Nat} {item : Item} (hpg : pg ∈ P)
    (h : storeItem c t pg skip item = .ok t₁) : Writes P t t₁ := by
  obtain ⟨p, -, -, rfl⟩ := storeItem_ok h
  exact writes_setPage _ hpg

theorem writes_insertParent {l : Pgno} {skip : Nat} {lchild rchild : Page} {item : Item}
    (hpg : pg ∈ P) (hl : skip = 0 → l ∈ P)
    (h : insertParent c t pg l skip lchild rchild item = .ok t₁) : Writes P t t₁ := by
  have hcount : ∀ {t' : Btree}, fixCount t pg l skip lchild = .ok t' → Writes P t t' := by
    intro t' hfix
    obtain ⟨p, -, hset⟩ := bind_eq_ok.1 hfix
    obtain rfl := Except.ok.inj hset
    refine writes_setPage _ ?_
    split_ifs with hpos
    · exact hpg
    · exact hl (Nat.eq_zero_of_not_pos hpos)
  rw [insertParent] at h
  split at h
  · obtain ⟨t', hfix, hstore⟩ := bind_eq_ok.1 h
    exact (hcount hfix).trans (writes_storeItem hpg hstore)
  · obtain ⟨t', hfix, hstore⟩ := bind_eq_ok.1 h
    exact (hcount hfix).trans (writes_storeItem hpg hstore)
  · obtain ⟨t', hstore, hmark⟩ := bind_eq_ok.1 h
    obtain ⟨bl, -, hmark⟩ := bind_eq_ok.1 hmark
    refine (writes_storeItem hpg hstore).trans ?_
    split_ifs at hmark
    · exact writes_btPreserve hmark
    · obtain rfl := Except.ok.inj hmark
      exact Writes.refl P _
  · exact writes_storeItem hpg h

theorem writes_fixRoot {l r : Pgno} (hpg : pg ∈ P) (h : fixRoot c t pg l r = .ok t₁) :
    Writes P t t₁ := by
  rw [fixRoot] at h
  split_ifs at h
  · obtain ⟨p, -, h⟩ := bind_eq_ok.1 h
    obtain ⟨lp, -, h⟩ := bind_eq_ok.1 h
    obtain ⟨rp, -, h⟩ := bind_eq_ok.1 h
    obtain rfl := Except.ok.inj h
    exact writes_setPage _ hpg
  · obtain ⟨p, -, h⟩ := bind_eq_ok.1 h
    obtain ⟨rp, -, h⟩ := bind_eq_ok.1 h
    split at h
    · obtain ⟨bl, -, h⟩ := bind_eq_ok.1 h
      split_ifs at h
      · exact (writes_setPage _ hpg).trans (writes_btPreserve h)
      · obtain rfl := Except.ok.inj h
        exact writes_setPage _ hpg
    · obtain ⟨bi, -, h⟩ := bind_eq_ok.1 h
      obtain rfl := Except.ok.inj h
      exact writes_setPage _ hpg
    · cases h
  · obtain rfl := Except.ok.inj h
    exact Writes.refl P t

theorem FreeAt.congr {ps ps' : List Page} {free : Pgno} (h : FreeAt ps free fs)
    (hsame : ∀ q ∈ fs, ps'[q]?.map core = ps[q]?.map core) : FreeAt ps' free fs := by
  induction fs generalizing free with
  | nil => exact h
  | cons q fs ih =>
    obtain ⟨rfl, p, hget, hrest⟩ := h
    have hq := hsame free (by simp)
    rw [hget, Option.map_some, Option.map_eq_some_iff] at hq
    obtain ⟨p', hget', hcore⟩ := hq
    refine ⟨rfl, p', hget', ?_⟩
    have hnext : p'.nextpg = p.nextpg := congrArg (fun x => x.2.1) hcore
    rw [hnext]
    exact ih hrest fun q hq => hsame q (by simp [hq])

/-- The free list has the pages `fs`, none of those in `S`. -/
structure FreeApart (S : List Pgno) (t : Btree) (fs : List Pgno) : Prop where
  free : FreeAt t.pages t.free fs
  nodup : fs.Nodup
  nonzero : pInvalid ∉ fs
  apart : ∀ q ∈ S, q ∉ fs ∧ q < t.pages.length

theorem FreeApart.writes (h : FreeApart S t fs) (hw : Writes P t t₁) (hP : ∀ q ∈ fs, q ∉ P) :
    FreeApart S t₁ fs where
  free := by
    rw [hw.free]
    exact h.free.congr fun q hq => hw.spares.same q (FreeAt.lt_length h.free q hq) (hP q hq)
  nodup := h.nodup
  nonzero := h.nonzero
  apart q hq := ⟨(h.apart q hq).1, Nat.lt_of_lt_of_le (h.apart q hq).2 hw.spares.len⟩

theorem FreeApart.mono {S' : List Pgno} (h : FreeApart S t fs) (hsub : ∀ q ∈ S', q ∈ S) :
    FreeApart S' t fs := { h with apart := fun q hq => h.apart q (hsub q hq) }

theorem FreeApart.btNew (h : FreeApart S t fs) (hnew : btNew c t = .ok (pg, t₁)) :
    ∃ fs', FreeApart (pg :: S) t₁ fs' ∧ Spares [] t t₁ ∧ t₁.cursor = t.cursor ∧
      t₁.stack = t.stack ∧ pg ∉ S ∧ (∀ q ∈ fs', q ∈ fs) := by
  have hlast : mpoolNew c t = .ok (pg, t₁) → ∃ fs', FreeApart (pg :: S) t₁ fs' ∧
      Spares [] t t₁ ∧ t₁.cursor = t.cursor ∧ t₁.stack = t.stack ∧ pg ∉ S ∧
      (∀ q ∈ fs', q ∈ fs) := by
    intro hnew
    rw [mpoolNew] at hnew
    split_ifs at hnew
    obtain ⟨rfl, rfl⟩ := Prod.mk.inj (Except.ok.inj hnew)
    have hsame : ∀ q < t.pages.length, (t.pages ++ [junkPage])[q]? = t.pages[q]? :=
      fun q hq => List.getElem?_append_left hq
    refine ⟨fs, ⟨?_, h.nodup, h.nonzero, ?_⟩, ⟨by simp, fun q hq _ => ?_⟩, rfl, rfl,
      ?_, fun q hq => hq⟩
    · exact h.free.congr fun q hq => by rw [hsame q (FreeAt.lt_length h.free q hq)]
    · intro q hq
      rcases List.mem_cons.1 hq with rfl | hq
      · refine ⟨fun hmem => Nat.lt_irrefl _ (FreeAt.lt_length h.free _ hmem), by simp⟩
      · exact ⟨(h.apart q hq).1, Nat.lt_of_lt_of_le (h.apart q hq).2 (by simp)⟩
    · exact congrArg (Option.map core) (hsame q hq)
    · exact fun hmem => Nat.lt_irrefl _ (h.apart _ hmem).2
  rw [Btree.btNew] at hnew
  split_ifs at hnew with hfree
  · split at hnew
    · rename_i p hget
      obtain ⟨rfl, rfl⟩ := Prod.mk.inj (Except.ok.inj hnew)
      -- the first page of the free list
      have hat := h.free
      cases fs with
      | nil => exact absurd hat hfree
      | cons q fs =>
        obtain ⟨hq, p', hget', hrest⟩ := hat
        have hnodup := List.nodup_cons.1 h.nodup
        have hnonzero := h.nonzero
        rw [List.mem_cons, not_or] at hnonzero
        subst hq
        obtain rfl : p' = p := Option.some.inj (hget'.symm.trans hget)
        refine ⟨fs, ⟨hrest, hnodup.2, hnonzero.2, ?_⟩, ⟨Nat.le_refl _, fun _ _ _ => rfl⟩, rfl,
          rfl, ?_, fun q hq => List.mem_cons_of_mem _ hq⟩
        · intro q hq
          rcases List.mem_cons.1 hq with rfl | hq
          · exact ⟨hnodup.1, (List.getElem?_eq_some_iff.1 hget).1⟩
          · exact ⟨fun hmem => (h.apart q hq).1 (List.mem_cons_of_mem _ hmem), (h.apart q hq).2⟩
        · exact fun hmem => (h.apart _ hmem).1 (List.mem_cons_self ..)
    · exact hlast hnew
  · exact hlast hnew

theorem Spares.mono {P' : List Pgno} (h : Spares P t t₁) (hsub : ∀ q ∈ P, q ∈ P') :
    Spares P' t t₁ := ⟨h.len, fun q hq hP => h.same q hq fun hmem => hP (hsub q hmem)⟩

theorem psplitCursor_of_ne {cur : Cursor} {l r skip nxt : Nat} (h : cur.pg.pgno ≠ pg) :
    psplitCursor cur pg l r skip nxt = cur := by
  rw [psplitCursor, if_neg fun hon => h hon.2]

theorem mpoolGet_eq_ok {p : Page} : t.mpoolGet pg = .ok p ↔ t.pages[pg]? = some p := by
  rw [mpoolGet]
  split
  · rename_i p' heq
    rw [heq, Except.ok.injEq, Option.some.injEq]
  · rename_i heq
    simp [heq]

/-- What is known after a split of page `pg`, with the new pages `new`. -/
structure SplitFrame (S : List Pgno) (pg : Pgno) (new : List Pgno) (t t₁ : Btree) (s : Halves)
    (fs fs' : List Pgno) : Prop where
  free : FreeApart (new ++ S) t₁ fs'
  sub : ∀ q ∈ fs', q ∈ fs
  spares : Spares (pg :: new) t t₁
  fresh : ∀ q ∈ new, q ∉ S
  left : s.left ∈ pg :: new
  right : s.right ∈ pg :: new
  target : s.target ∈ pg :: new
  cursor : ∀ p, t.pages[pg]? = some p → t.cursor.pg.pgno ≠ p.pgno → t₁.cursor = t.cursor
  stack : t₁.stack = t.stack

theorem FreeApart.btPage {skip ilen : Nat} {s : Halves} (h : FreeApart S t fs) (hpg : pg ∈ S)
    (hsplit : btPage c t pg skip ilen = .ok (t₁, s)) :
    ∃ new fs', SplitFrame S pg new t t₁ s fs fs' := by
  rw [Btree.btPage] at hsplit
  obtain ⟨⟨npg, t'⟩, hnew, hsplit⟩ := bind_eq_ok.1 hsplit
  obtain ⟨fs', hfree, hspares, hcursor, hstack, hnot, hsub⟩ := h.btNew hnew
  obtain ⟨p, hget, hsplit⟩ := bind_eq_ok.1 hsplit
  dsimp only at hget hsplit
  have hspares' : Spares [pg, npg] t t' := hspares.mono (by simp)
  have hnpg : npg ∉ fs' := (hfree.apart npg (by simp)).1
  have hpg' : pg ∉ fs' := (hfree.apart pg (by simp [hpg])).1
  have hfs : ∀ q ∈ fs', q ∉ [pg, npg] := by
    intro q hq hmem
    simp only [List.mem_cons, List.not_mem_nil, or_false] at hmem
    rcases hmem with rfl | rfl
    · exact hpg' hq
    · exact hnpg hq
  have hself : ∀ p₀, t.pages[pg]? = some p₀ → p.pgno = p₀.pgno := by
    intro p₀ hp₀
    have hsame := hspares.same pg (h.apart pg hpg).2 (by simp)
    rw [hp₀, mpoolGet_eq_ok.1 hget] at hsame
    exact congrArg Prod.fst (Option.some.inj hsame)
  split_ifs at hsplit with happend
  · obtain ⟨rfl, rfl⟩ := Prod.mk.inj (Except.ok.inj hsplit)
    have hw : ∀ p₁ p₂, Writes [pg, npg] t' ((t'.setPage npg p₁).setPage pg p₂) :=
      fun p₁ p₂ => (writes_setPage p₁ (by simp)).trans (writes_setPage p₂ (by simp))
    exact ⟨[npg], fs',
      { free := hfree.writes (hw _ _) hfs
        sub := hsub
        spares := hspares'.trans (hw _ _).spares
        fresh := by simpa using hnot
        left := by simp
        right := by simp
        target := by simp
        cursor := fun _ _ _ => (hw _ _).cursor.trans hcursor
        stack := hstack }⟩
  · obtain ⟨items, -, hsplit⟩ := bind_eq_ok.1 hsplit
    obtain ⟨t₂, hlink, hsplit⟩ := bind_eq_ok.1 hsplit
    obtain ⟨rfl, rfl⟩ := Prod.mk.inj (Except.ok.inj hsplit)
    have hw₂ : Writes [pg, npg] t' t₂ := by
      refine Writes.trans ?_ (writes_relinkSide ?_ hlink)
      · exact writes_setPage _ (by simp)
      · exact fun _ => rfl
    have hw : ∀ p', Writes [pg, npg] t' (t₂.setPage pg p') :=
      fun p' => hw₂.trans (writes_setPage p' (by simp))
    have hfree' := fun p' => hfree.writes (hw p') hfs
    have hspares₂ := fun p' => hspares'.trans (hw p').spares
    exact ⟨[npg], fs',
      { free := ⟨(hfree' _).free, hfree.nodup, hfree.nonzero, (hfree' _).apart⟩
        sub := hsub
        spares := ⟨(hspares₂ _).len, (hspares₂ _).same⟩
        fresh := by simpa using hnot
        left := by simp
        right := by simp
        target := by dsimp only; split_ifs <;> simp
        cursor := fun p₀ hp₀ hne => by
          rw [← hself p₀ hp₀] at hne
          have heq : t₂.cursor = t.cursor := hw₂.cursor.trans hcursor
          show psplitCursor t₂.cursor p.pgno p.pgno npg skip _ = t.cursor
          rw [heq, psplitCursor_of_ne hne]
        stack := hw₂.stack.trans hstack }⟩

theorem FreeApart.btRoot {skip ilen : Nat} {s : Halves} (h : FreeApart S t fs) (hpg : pg ∈ S)
    (hsplit : btRoot c t pg skip ilen = .ok (t₁, s)) :
    ∃ new fs', SplitFrame S pg new t t₁ s fs fs' := by
  rw [Btree.btRoot] at hsplit
  obtain ⟨⟨lnpg, t'⟩, hnew, hsplit⟩ := bind_eq_ok.1 hsplit
  obtain ⟨⟨rnpg, t₂⟩, hnew₂, hsplit⟩ := bind_eq_ok.1 hsplit
  obtain ⟨fs', hfree, hspares, hcursor, hstack, hnot, hsub⟩ := h.btNew hnew
  obtain ⟨fs₂, hfree₂, hspares₂, hcursor₂, hstack₂, hnot₂, hsub₂⟩ := hfree.btNew hnew₂
  obtain ⟨p, hget, hsplit⟩ := bind_eq_ok.1 hsplit
  obtain ⟨items, -, hsplit⟩ := bind_eq_ok.1 hsplit
  obtain ⟨rfl, rfl⟩ := Prod.mk.inj (Except.ok.inj hsplit)
  have hspares' : Spares [pg, rnpg, lnpg] t t₂ :=
    (hspares.trans hspares₂).mono fun q hq => absurd hq (by simp)
  have hfs : ∀ q ∈ fs₂, q ∉ [pg, rnpg, lnpg] := by
    intro q hq hmem
    have hq' : q ∈ rnpg :: lnpg :: S := by
      simp only [List.mem_cons, List.not_mem_nil, or_false] at hmem ⊢
      rcases hmem with rfl | rfl | rfl
      · exact .inr (.inr hpg)
      · exact .inl rfl
      · exact .inr (.inl rfl)
    exact (hfree₂.apart q hq').1 hq
  have hself : ∀ p₀, t.pages[pg]? = some p₀ → p.pgno = p₀.pgno := by
    intro p₀ hp₀
    have hsame := (hspares.trans hspares₂).same pg (h.apart pg hpg).2 (by simp)
    rw [hp₀, mpoolGet_eq_ok.1 hget] at hsame
    exact congrArg Prod.fst (Option.some.inj hsame)
  have hw : ∀ p₁ p₂, Writes [pg, rnpg, lnpg] t₂ ((t₂.setPage lnpg p₁).setPage rnpg p₂) :=
    fun p₁ p₂ => (writes_setPage p₁ (by simp)).trans (writes_setPage p₂ (by simp))
  have hfree' := fun p₁ p₂ => hfree₂.writes (hw p₁ p₂) hfs
  have hspares₃ := fun p₁ p₂ => hspares'.trans (hw p₁ p₂).spares
  exact ⟨[rnpg, lnpg], fs₂,
    { free := ⟨(hfree' _ _).free, hfree₂.nodup, hfree₂.nonzero, (hfree' _ _).apart⟩
      sub := fun q hq => hsub q (hsub₂ q hq)
      spares := ⟨(hspares₃ _ _).len, (hspares₃ _ _).same⟩
      fresh := by
        intro q hq
        simp only [List.mem_cons, List.not_mem_nil, or_false] at hq
        rcases hq with rfl | rfl
        · exact fun hmem => hnot₂ (List.mem_cons_of_mem _ hmem)
        · exact hnot
      left := by simp
      right := by simp
      target := by dsimp only; split_ifs <;> simp
      cursor := fun p₀ hp₀ hne => by
        rw [← hself p₀ hp₀] at hne
        have heq : t₂.cursor = t.cursor := hcursor₂.trans hcursor
        show psplitCursor t₂.cursor p.pgno lnpg rnpg skip _ = t.cursor
        rw [heq, psplitCursor_of_ne hne]
      stack := hstack₂.trans hstack }⟩

theorem FreeApart.splitPage {skip ilen : Nat} {s : Halves} (h : FreeApart S t fs) (hpg : pg ∈ S)
    (hsplit : splitPage c t pg skip ilen = .ok (t₁, s)) :
    ∃ new fs', SplitFrame S pg new t t₁ s fs fs' := by
  rw [Btree.splitPage] at hsplit
  split_ifs at hsplit
  · exact h.btRoot hpg hsplit
  · exact h.btPage hpg hsplit

/-- The pages on the stack are other ones than those in `S`, and know their numbers. -/
structure Aside (S : List Pgno) (stack : List Epgno) (t : Btree) (fs : List Pgno) : Prop where
  free : FreeApart (stack.map Epgno.pgno ++ S) t fs
  nodup : (stack.map Epgno.pgno).Nodup
  apart : ∀ e ∈ stack, e.pgno ∉ S
  self : ∀ e ∈ stack, ∀ p, t.pages[e.pgno]? = some p → p.pgno = e.pgno

theorem core_eq {ps ps' : List Page} {q : Pgno} {p p' : Page}
    (h : ps'[q]?.map core = ps[q]?.map core) (hp : ps[q]? = some p) (hp' : ps'[q]? = some p') :
    core p' = core p := by
  rw [hp, hp'] at h
  exact Option.some.inj h

theorem Aside.btSplitLoop {stack : List Epgno} {lchild rchild : Pgno} (h : Aside S stack t fs)
    (hcur : t.cursor.pg.pgno ∈ S) (hloop : btSplitLoop c stack t lchild rchild = .ok t₁) :
    t₁.cursor = t.cursor ∧ ∀ q ∈ S, t₁.pages[q]?.map core = t.pages[q]?.map core := by
  induction stack generalizing t lchild rchild fs with
  | nil =>
    obtain rfl := Except.ok.inj hloop
    exact ⟨rfl, fun q _ => rfl⟩
  | cons parent rest ih =>
    have hparent := h.apart parent (by simp)
    have hnodup := List.nodup_cons.1 h.nodup
    rw [Btree.btSplitLoop] at hloop
    obtain ⟨p, hget, hloop⟩ := bind_eq_ok.1 hloop
    obtain ⟨lp, -, hloop⟩ := bind_eq_ok.1 hloop
    obtain ⟨rp, -, hloop⟩ := bind_eq_ok.1 hloop
    obtain ⟨item, -, hloop⟩ := bind_eq_ok.1 hloop
    have hself : p.pgno = parent.pgno := h.self parent (by simp) p (mpoolGet_eq_ok.1 hget)
    split_ifs at hloop with hroom
    · obtain ⟨⟨t', s⟩, hsplit, hloop⟩ := bind_eq_ok.1 hloop
      obtain ⟨t₂, hinsert, hloop⟩ := bind_eq_ok.1 hloop
      obtain ⟨t₃, hfix, hloop⟩ := bind_eq_ok.1 hloop
      obtain ⟨new, fs', hframe⟩ := h.free.splitPage (by simp) hsplit
      have hw : Writes (parent.pgno :: new) t' t₃ :=
        (writes_insertParent hframe.target (fun _ => hframe.left) hinsert).trans
          (writes_fixRoot (by simp) hfix)
      have hspares := hframe.spares.trans hw.spares
      have hcursor : t₃.cursor = t.cursor := by
        refine hw.cursor.trans (hframe.cursor p (mpoolGet_eq_ok.1 hget) ?_)
        rw [hself]
        exact fun heq => hparent (heq ▸ hcur)
      -- the other pages on the stack are neither the parent nor new
      have hother : ∀ q ∈ rest.map Epgno.pgno ++ S, q ∉ parent.pgno :: new := by
        intro q hq hmem
        rcases List.mem_cons.1 hmem with rfl | hmem
        · rcases List.mem_append.1 hq with hq | hq
          · exact hnodup.1 hq
          · exact hparent hq
        · refine hframe.fresh q hmem ?_
          rw [List.map_cons, List.cons_append]
          exact List.mem_cons_of_mem _ hq
      have hlt : ∀ q ∈ rest.map Epgno.pgno ++ S, q < t.pages.length := by
        intro q hq
        exact (h.free.apart q (by
          rw [List.map_cons, List.cons_append]
          exact List.mem_cons_of_mem _ hq)).2
      have hfs : ∀ q ∈ fs', q ∉ parent.pgno :: new := by
        intro q hq hmem
        rcases List.mem_cons.1 hmem with rfl | hmem
        · exact (hframe.free.apart _ (by simp)).1 hq
        · exact (hframe.free.apart q (by simp [hmem])).1 hq
      have haside : Aside S rest t₃ fs' :=
        { free := (hframe.free.writes hw hfs).mono fun q hq => by
            rw [List.map_cons, List.cons_append]
            exact List.mem_append_right _ (List.mem_cons_of_mem _ hq)
          nodup := hnodup.2
          apart := fun e he => h.apart e (by simp [he])
          self := fun e he p' hp' => by
            have hmem : e.pgno ∈ rest.map Epgno.pgno ++ S :=
              List.mem_append_left _ (List.mem_map_of_mem he)
            have hsame := hspares.same e.pgno (hlt _ hmem) (hother _ hmem)
            have hp₀ := List.getElem?_eq_getElem (hlt _ hmem)
            have hcore := core_eq hsame hp₀ hp'
            exact (congrArg Prod.fst hcore).trans (h.self e (by simp [he]) _ hp₀) }
      obtain ⟨hcursor', hsame'⟩ := ih haside (hcursor ▸ hcur) hloop
      refine ⟨hcursor'.trans hcursor, fun q hq => ?_⟩
      have hmem : q ∈ rest.map Epgno.pgno ++ S := List.mem_append_right _ hq
      exact (hsame' q hq).trans (hspares.same q (hlt q hmem) (hother q hmem))
    · obtain ⟨t', hinsert, hloop⟩ := bind_eq_ok.1 hloop
      obtain rfl := Except.ok.inj hloop
      have hw : Writes [parent.pgno] t t' :=
        (writes_setPage _ (by simp)).trans (writes_insertParent (by simp) (by simp) hinsert)
      refine ⟨hw.cursor, fun q hq => hw.spares.same q (h.free.apart q (by simp [hq])).2 ?_⟩
      rw [List.mem_singleton]
      rintro rfl
      exact hparent hq

end Btree

end Bsdi.Db
