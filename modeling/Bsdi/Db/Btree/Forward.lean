import Bsdi.Db.Btree.Scan

/-!
# Forward scans

A scan from `R_FIRST` with `R_NEXT`, which may delete any of the records it is given, returns
every pair of the tree once and in order.
-/

namespace Bsdi.Db

open Bsdi.Lib

namespace Btree

variable {c : Config} {t t' : Btree} {cs : List Chain} {fs : List Pgno}
variable {leaves A B : List Node} {ups : List (List Node)} {x : Node} {bl : BLeaf} {e : Epgno}
variable {ord : Dbt → Dbt → Int} {dom : Dbt → Prop} {u v : List (Option Item)} {key : Dbt}
variable {K R : List (Dbt × Dbt)} {p : Dbt × Dbt}

/-- The cursor is on the record of pair `p`: the pairs before it are `K`, those behind it `R`. -/
def At (c : Config) (ord : Dbt → Dbt → Int) (dom : Dbt → Prop) (t : Btree)
    (K : List (Dbt × Dbt)) (p : Dbt × Dbt) (R : List (Dbt × Dbt)) : Prop :=
  ∃ cs fs leaves ups A x B u bl v, InOrder c ord dom t cs fs leaves ups ∧
    ups.length ≤ stackSize ∧ RecordAt leaves A x B u bl v t.cursor.pg ∧
    CursorAt t t.cursor.pg ∧ recordPair cs bl = p ∧
    contents cs A ++ u.filterMap (slotPair cs) = K ∧
    v.filterMap (slotPair cs) ++ contents cs B = R

/-- A tree in order with these pairs, no deeper than `bt_stack`. -/
def Has (c : Config) (ord : Dbt → Dbt → Int) (dom : Dbt → Prop) (t : Btree)
    (pairs : List (Dbt × Dbt)) : Prop :=
  ∃ cs fs leaves ups, InOrder c ord dom t cs fs leaves ups ∧ ups.length ≤ stackSize ∧
    contents cs leaves = pairs

theorem at_setcur (st : List Epgno) (hs : Sound c) (h : InOrder c ord dom t cs fs leaves ups)
    (hdepth : ups.length ≤ stackSize) (hat : RecordAt leaves A x B u bl v e) :
    btRet c (({ t with stack := st } : Btree).btSetcur e) e = .ok (recordPair cs bl) ∧
      At c ord dom (({ t with stack := st } : Btree).btSetcur e)
        (contents cs A ++ u.filterMap (slotPair cs)) (recordPair cs bl)
        (v.filterMap (slotPair cs) ++ contents cs B) := by
  have horder : InOrder c ord dom (({ t with stack := st } : Btree).btSetcur e) cs fs leaves ups :=
    h.frame rfl rfl
  exact ⟨btRet_spec hs.plen_pos horder.tree hat, cs, fs, leaves, ups, A, x, B, u, bl, v, horder,
    hdepth, hat, ⟨rfl, rfl, rfl, rfl, rfl⟩, rfl, rfl, rfl⟩

/-- What a call of `__bt_seq` returns, when the pairs ahead are `R` and those behind `K`. -/
def Returns (c : Config) (ord : Dbt → Dbt → Int) (dom : Dbt → Prop) (K R : List (Dbt × Dbt)) :
    Except Fault (Ret × Option (Dbt × Dbt) × Btree) → Prop
  | .ok (r, reply, t') =>
    match R with
    | [] => r = .special ∧ reply = none ∧ Has c ord dom t' K
    | p :: R' => r = .success ∧ reply = some p ∧ At c ord dom t' K p R'
  | .error _ => False

theorem Returns.eq_ok {res : Except Fault (Ret × Option (Dbt × Dbt) × Btree)}
    (h : Returns c ord dom K R res) :
    ∃ r reply t', res = .ok (r, reply, t') ∧ Returns c ord dom K R (.ok (r, reply, t')) := by
  cases res with
  | error f => exact h.elim
  | ok res => exact ⟨res.1, res.2.1, res.2.2, rfl, h⟩

theorem seqEdge_left {D U : List (List Node)} {f : Nat} (hshape : Shape c cs leaves ups)
    (hrep : Rep (plen c) t.pages t.free ⟨leaves :: ups, cs, fs⟩)
    (hsplit : leaves :: ups = D ++ (x :: B) :: U) (hfuel : D.length < f) :
    ∃ y C pg, leaves = y :: C ∧ t.pages[y.pgno]? = some pg ∧ pg.linp = y.linp ∧
      seqEdge t false f x.pgno = .ok (if y.linp = [] then none else some ⟨y.pgno, 0⟩) := by
  induction f generalizing D x B U with
  | zero => exact absurd hfuel (Nat.not_lt_zero _)
  | succ f ih =>
    have hrep' := hrep
    rw [hsplit] at hrep'
    obtain ⟨pg, hget, hpg⟩ := Rep.getNode (A := []) hrep'
    obtain rfl | ⟨D, below, rfl⟩ := List.eq_nil_or_concat D
    · obtain ⟨rfl, rfl⟩ : leaves = x :: B ∧ ups = U := by simpa using hsplit
      refine ⟨x, B, pg, rfl, hget, hpg.linp, ?_⟩
      have htype : pg.type = .bleaf := hpg.type.trans (hshape.leaf x (by simp)).type
      rw [seqEdge]
      by_cases hnil : x.linp = []
      · simp [mpoolGet, hget, Page.nextindex, hpg.linp, hnil]
      · simp [mpoolGet, hget, Page.nextindex, hpg.linp, hnil, htype, hpg.pgno]
    · rw [List.concat_eq_append, List.append_assoc, List.singleton_append] at hsplit
      have hup : x :: B ∈ ups := by
        cases D with
        | nil => exact (List.cons.inj hsplit).2 ▸ List.mem_cons_self ..
        | cons L D => rw [(List.cons.inj hsplit).2]; simp
      have hint := hshape.internal _ hup x (by simp)
      obtain ⟨s, w, hlinp⟩ := List.exists_cons_of_ne_nil hint.ne
      obtain ⟨bi, rfl, -⟩ := hint.slots s (by simp [hlinp])
      have hbi : pg.getBinternal 0 = .ok bi := by
        simp [Page.getBinternal, Page.slot, hpg.linp, hlinp]
      have htower : Tower Node.linp slotChild Node.pgno pRoot (below :: (x :: B) :: U) := by
        have := hshape.tower
        rw [hsplit] at this
        exact this.suffix
      obtain ⟨A₁, x₁, B₁, rfl, hA₁, hx₁⟩ := htower.child_node (A := []) (u := []) hlinp rfl
      obtain rfl : A₁ = [] := List.length_eq_zero_iff.1 (by simpa [slotCount] using hA₁)
      have htype : pg.type = .binternal := hpg.type.trans hint.type
      obtain ⟨y, C, pg', hleaves, hget', hlinp', heq⟩ := ih hsplit (by simp at hfuel; omega)
      refine ⟨y, C, pg', hleaves, hget', hlinp', ?_⟩
      rw [seqEdge]
      simp only [mpoolGet, hget, ok_bind, Page.nextindex, hpg.linp, hlinp, List.length_cons,
        Nat.succ_ne_zero, if_false, htype, reduceCtorEq, or_self, Bool.false_eq_true, hbi, ← hx₁]
      exact heq

theorem tower_ne {level : List Node} {ups : List (List Node)}
    (htower : Tower Node.linp slotChild Node.pgno pRoot (level :: ups))
    (hne : ∀ up ∈ ups, ∀ n ∈ up, n.linp ≠ []) : ∀ l ∈ level :: ups, l ≠ [] := by
  induction ups generalizing level with
  | nil =>
    intro l hl
    obtain rfl := List.mem_singleton.1 hl
    rintro rfl
    exact absurd htower.1 (by simp [kids])
  | cons up ups ih =>
    have hups := ih htower.2 fun up' hup' => hne up' (List.mem_cons_of_mem _ hup')
    intro l hl
    rcases List.mem_cons.1 hl with rfl | hl
    · rintro rfl
      obtain ⟨n, w, rfl⟩ := List.exists_cons_of_ne_nil (hups up (List.mem_cons_self ..))
      obtain ⟨s, w', hlinp⟩ :=
        List.exists_cons_of_ne_nil (hne _ (List.mem_cons_self ..) n (by simp))
      exact absurd htower.1 (by simp [kids, hlinp])
    · exact hups l hl

theorem Tree.height_le (h : Tree c t cs fs leaves ups) : ups.length < t.pages.length := by
  have hnodup : ((leaves :: ups).flatten.map Node.pgno).Nodup :=
    (List.nodup_append.1 h.rep.nodup).1
  have hsub : (leaves :: ups).flatten.map Node.pgno ⊆ List.range t.pages.length := by
    intro q hq
    exact List.mem_range.2 (h.rep.lt_length q (List.mem_append_left _ hq))
  have hpages := (hnodup.subperm hsub).length_le
  have hlevels := tower_ne h.shape.tower fun up hup n hn => (h.shape.internal up hup n hn).ne
  have hcount : ∀ L : List (List Node), (∀ l ∈ L, l ≠ []) → L.length ≤ L.flatten.length := by
    intro L hL
    induction L with
    | nil => simp
    | cons l L ih =>
      have hl := List.length_pos_iff.2 (hL l (by simp))
      have hrest := ih fun l' hl' => hL l' (by simp [hl'])
      simp only [List.length_cons, List.flatten_cons, List.length_append]
      omega
  have := hcount _ hlevels
  simp only [List.length_map, List.length_range, List.length_cons] at this hpages
  omega

theorem btSeq_first (hs : Sound c) (h : InOrder c ord dom t cs fs leaves ups)
    (hdepth : ups.length ≤ stackSize) (key : Dbt) :
    Returns c ord dom [] (contents cs leaves) (btSeq c t key .first) := by
  obtain ⟨D, top, hlevels⟩ : ∃ D top, leaves :: ups = D ++ [top] :=
    (List.eq_nil_or_concat (leaves :: ups)).resolve_left (by simp) |>.imp fun D => by simp
  obtain ⟨n, rfl, hroot⟩ := h.tree.shape.tower.root_node hlevels
  have hlen := congrArg List.length hlevels
  simp only [List.length_cons, List.length_append, List.length_nil] at hlen
  have hheight := h.tree.height_le
  obtain ⟨y, C, pg, rfl, hget, hlinp, hedge⟩ := seqEdge_left (B := []) (U := [])
    (f := t.pages.length + 1) h.tree.shape h.tree.rep hlevels (by omega)
  have hset : btSeqset c t key .first =
      .ok (if y.linp = [] then .special else .success,
        if y.linp = [] then none else some ⟨y.pgno, 0⟩, t) := by
    rw [hroot] at hedge
    by_cases hnil : y.linp = [] <;> simp [btSeqset, hedge, hnil]
  rw [btSeq, if_pos (by simp), if_neg (by simp), hset, ok_bind]
  cases hslots : y.linp with
  | nil =>
    -- only the root may be empty
    obtain rfl : ups = [] := by
      by_contra hne
      exact h.filled hne y (by simp) hslots
    obtain rfl : C = [] := (Tower.alone (A := []) h.tree.shape.tower).2
    have hempty : contents cs [y] = [] := by simp [contents, hslots]
    rw [hempty]
    exact ⟨rfl, rfl, cs, fs, [y], [], h, hdepth, hempty⟩
  | cons s w =>
    obtain ⟨bl, rfl⟩ := h.tree.shape.records y (by simp) s (by simp [hslots])
    have hat : RecordAt (y :: C) [] y C [] bl w ⟨y.pgno, 0⟩ := ⟨rfl, hslots, rfl⟩
    obtain ⟨hret, hpos⟩ := at_setcur t.stack hs h hdepth hat
    have hcontents : contents cs (y :: C) =
        recordPair cs bl :: (w.filterMap (slotPair cs) ++ contents cs C) :=
      contents_split (A := []) (u := []) hslots
    rw [hcontents]
    have hret : btRet c (t.btSetcur ⟨y.pgno, 0⟩) ⟨y.pgno, 0⟩ = .ok (recordPair cs bl) := hret
    simp only [reduceCtorEq, if_false, hret, ok_bind]
    exact ⟨rfl, rfl, hpos⟩

theorem btSeq_next (hs : Sound c) (h : At c ord dom t K p R) (key : Dbt) :
    Returns c ord dom (K ++ [p]) R (btSeq c t key .next) := by
  obtain ⟨cs, fs, leaves, ups, A, x, B, u, bl, v, horder, hdepth, hat, hcursor, rfl, rfl, rfl⟩ := h
  obtain ⟨rfl, hlinp, hpos⟩ := hat
  obtain ⟨pg, hget, hpg⟩ := Rep.getNode (D := []) horder.tree.rep
  have hnextindex : pg.nextindex = u.length + 1 + v.length := by
    simp [Page.nextindex, hpg.linp, hlinp]
    omega
  have hpairs : contents cs A ++ u.filterMap (slotPair cs) ++ [recordPair cs bl] =
      contents cs A ++ (u ++ [some (Item.bl bl)]).filterMap (slotPair cs) := by
    simp [slotPair]
  rw [btSeq, if_pos (by simp), if_pos (by simp [hcursor.init]), btSeqadv,
    if_neg (by simp [hcursor.acquire])]
  simp only [hpos, mpoolGet, hget, ok_bind, if_true, hcursor.after, Bool.false_eq_true, if_false]
  cases v with
  | cons s v =>
    -- it is on the page
    obtain ⟨bl', rfl⟩ := horder.tree.shape.records x (by simp) s (by simp [hlinp])
    have hat : RecordAt (A ++ x :: B) A x B (u ++ [some (.bl bl)]) bl' v
        ⟨x.pgno, u.length + 1⟩ := ⟨rfl, by simp [hlinp], by simp⟩
    obtain ⟨hret, hnext⟩ := at_setcur t.stack hs horder hdepth hat
    have hret : btRet c (t.btSetcur ⟨x.pgno, u.length + 1⟩) ⟨x.pgno, u.length + 1⟩ =
        .ok (recordPair cs bl') := hret
    rw [if_neg (by simp [hnextindex])]
    simp only [ok_bind, hpg.pgno, hret, hpairs]
    exact ⟨rfl, rfl, hnext⟩
  | nil =>
    rw [if_pos (by simp [hnextindex])]
    cases B with
    | nil =>
      have hlast : pg.nextpg = pInvalid := hpg.nextpg
      rw [if_pos hlast]
      refine ⟨rfl, rfl, cs, fs, _, ups, horder, hdepth, ?_⟩
      rw [contents_split hlinp]
      simp [contents]
    | cons y B =>
      have hups : ups ≠ [] := by
        rintro rfl
        simpa using horder.tree.shape.tower.alone.2
      obtain ⟨s, w, hy⟩ := List.exists_cons_of_ne_nil (horder.filled hups y (by simp))
      obtain ⟨bl', rfl⟩ := horder.tree.shape.records y (by simp) s (by simp [hy])
      have hrep : Rep (plen c) t.pages t.free ⟨((A ++ [x]) ++ y :: B) :: ups, cs, fs⟩ := by
        simpa using horder.tree.rep
      obtain ⟨pg', hget', hpg'⟩ := Rep.getNode (D := []) hrep
      have hzero : y.pgno ≠ pInvalid := (Rep.nonzero_node (D := []) hrep).1
      have hnextpg : pg.nextpg = y.pgno := hpg.nextpg
      have hat : RecordAt (A ++ x :: y :: B) (A ++ [x]) y B [] bl' w ⟨y.pgno, 0⟩ :=
        ⟨by simp, hy, rfl⟩
      obtain ⟨hret, hnext⟩ := at_setcur t.stack hs horder hdepth hat
      have hret : btRet c (t.btSetcur ⟨y.pgno, 0⟩) ⟨y.pgno, 0⟩ = .ok (recordPair cs bl') := hret
      rw [if_neg (by rw [hnextpg]; exact hzero), hnextpg]
      simp only [hget', ok_bind, hpg'.pgno, hret]
      have hbehind : ([] : List (Option Item)).filterMap (slotPair cs) ++ contents cs (y :: B) =
          recordPair cs bl' :: (w.filterMap (slotPair cs) ++ contents cs B) := by
        simp [contents, hy, slotPair]
      have hbefore : contents cs A ++ u.filterMap (slotPair cs) ++ [recordPair cs bl] =
          contents cs (A ++ [x]) ++ ([] : List (Option Item)).filterMap (slotPair cs) := by
        simp [contents, hlinp, slotPair]
      rw [hbehind, hbefore]
      exact ⟨rfl, rfl, hnext⟩

theorem split_unique {α : Type*} {P : α → Prop} {L₁ L₂ K R : List α} (h : L₁ ++ L₂ = K ++ R)
    (hL₁ : ∀ a ∈ L₁, P a) (hL₂ : ∀ a ∈ L₂, ¬ P a) (hK : ∀ a ∈ K, P a) (hR : ∀ a ∈ R, ¬ P a) :
    L₁ = K ∧ L₂ = R := by
  induction L₁ generalizing K with
  | nil =>
    cases K with
    | nil => exact ⟨rfl, h⟩
    | cons k K => exact absurd (hK k (by simp)) (hL₂ k (by rw [← List.nil_append L₂, h]; simp))
  | cons a L₁ ih =>
    cases K with
    | nil => exact absurd (hL₁ a (by simp)) (hR a (by rw [← List.nil_append R, ← h]; simp))
    | cons k K =>
      obtain ⟨rfl, htail⟩ := List.cons.inj h
      obtain ⟨rfl, rfl⟩ := ih htail (fun b hb => hL₁ b (by simp [hb]))
        fun b hb => hK b (by simp [hb])
      exact ⟨rfl, rfl⟩

theorem btSeq_next_deleted (hs : Sound c) (hnodups : c.nodups = true) (hrdonly : c.rdonly = false)
    (hord : TotalCmp ord) (hcmp : ∀ a b, dom a → dom b → c.cmp a b = ord a b)
    (h : At c ord dom t K p R) (key₁ key₂ : Dbt) :
    ∃ t₁, btDelete c t key₁ .cursor = .ok (.success, t₁) ∧
      Returns c ord dom K R (btSeq c t₁ key₂ .next) := by
  obtain ⟨cs, fs, leaves, ups, A, x, B, u, bl, v, horder, hdepth, hat, hcursor, rfl, rfl, rfl⟩ := h
  obtain ⟨t₁, hdelete, hinit, hacquire, hkey, cs', fs', leaves', ups', horder', hheight,
    hcontents⟩ := deleteCursor_spec hs hnodups horder hdepth hat hcursor
  refine ⟨t₁, by simp [btDelete, hrdonly, hdelete], ?_⟩
  have hpairs := horder.pairs
  rw [hat.leaves_eq, contents_split hat.linp_eq] at hpairs
  obtain ⟨-, hright, hleft⟩ := List.pairwise_append.1 hpairs
  have hR := (List.pairwise_cons.1 hright).1
  have hK := fun q hq => hleft q hq _ (List.mem_cons_self ..)
  have hdom : dom (recordPair cs bl).1 := by
    obtain ⟨rfl, hlinp, -⟩ := hat
    exact horder.ordered.dom _ (List.mem_cons_self ..) x (by simp) (some (.bl bl))
      (by simp [hlinp]) _ rfl
  generalize recordPair cs bl = p at hkey hpairs hR hK hdom ⊢
  have hsplit : contents cs' leaves' = (contents cs A ++ u.filterMap (slotPair cs)) ++
      (v.filterMap (slotPair cs) ++ contents cs B) := by
    rw [hcontents]
    simp only [List.append_assoc]
  generalize contents cs A ++ u.filterMap (slotPair cs) = K at hsplit hK ⊢
  generalize v.filterMap (slotPair cs) ++ contents cs B = R at hsplit hR ⊢
  have hbelow : ∀ q ∈ R, ¬ ord q.1 p.1 < 0 := fun q hq hlt =>
    hord.irrefl _ (hord.trans _ _ _ hlt (hR q hq))
  have habsent : ∀ q ∈ contents cs' leaves', q.1 ≠ p.1 := by
    rw [hsplit]
    intro q hq heq
    rcases List.mem_append.1 hq with hq | hq
    · exact hord.irrefl _ (heq ▸ hK q hq)
    · exact hord.irrefl _ (heq ▸ hR q hq)
  obtain ⟨r, e', st, hfirst, hbehind⟩ :=
    btFirst_spec hs hnodups hord hcmp horder' hheight hdom habsent
  rw [btSeq, if_pos (by simp), if_pos (by simp [hinit]), btSeqadv, if_pos hacquire, hkey, hfirst,
    ok_bind]
  cases e' with
  | none =>
    obtain ⟨rfl, hall⟩ := hbehind
    obtain rfl : R = [] := List.eq_nil_iff_forall_not_mem.2 fun q hq =>
      hbelow q hq (hall q (by rw [hsplit]; exact List.mem_append_right _ hq))
    exact ⟨rfl, rfl, cs', fs', leaves', ups', horder'.frame rfl rfl, hheight, by simpa using hsplit⟩
  | some e' =>
    obtain ⟨rfl, A', x', B', u', bl', v', hat', hbefore, hlt⟩ := hbehind
    obtain ⟨hret, hnext⟩ := at_setcur st hs horder' hheight hat'
    have hpairs' := horder'.pairs
    rw [hat'.leaves_eq, contents_split hat'.linp_eq] at hpairs' hsplit
    have hright' := (List.pairwise_cons.1 (List.pairwise_append.1 hpairs').2.1).1
    obtain ⟨rfl, rfl⟩ := split_unique (P := fun q : Dbt × Dbt => ord q.1 p.1 < 0) hsplit hbefore
      (fun q hq hneg => by
        rcases List.mem_cons.1 hq with rfl | hq
        · exact hord.irrefl _ (hord.trans _ _ _ hneg hlt)
        · exact hord.irrefl _ (hord.trans _ _ _ hneg (hord.trans _ _ _ hlt (hright' q hq))))
      hK hbelow
    simp only [hret, ok_bind]
    exact ⟨rfl, rfl, hnext⟩

/-- A scan from record `p` on. For each record it is given it says whether it deletes it before it
goes on; the flag that is returned says whether it got to the end of the tree. -/
def scanLoop (c : Config) : List Bool → Btree → Option (Dbt × Dbt) →
    Except Fault (List (Dbt × Dbt) × Bool × Btree)
  | _, t, none => .ok ([], true, t)
  | [], t, some p => .ok ([p], false, t)
  | del :: rest, t, some p => do
    let (_, t) ← if del then btDelete c t [] .cursor else .ok (.success, t)
    let (_, reply, t) ← btSeq c t [] .next
    let (ps, done, t) ← scanLoop c rest t reply
    .ok (p :: ps, done, t)

def scan (c : Config) (dels : List Bool) (t : Btree) :
    Except Fault (List (Dbt × Dbt) × Bool × Btree) := do
  let (_, reply, t) ← btSeq c t [] .first
  scanLoop c dels t reply

def kept : List (Dbt × Dbt) → List Bool → List (Dbt × Dbt)
  | p :: ps, del :: dels => if del then kept ps dels else p :: kept ps dels
  | ps, _ => ps

theorem scan_step (hs : Sound c) (hnodups : c.nodups = true) (hrdonly : c.rdonly = false)
    (hord : TotalCmp ord) (hcmp : ∀ a b, dom a → dom b → c.cmp a b = ord a b)
    (h : At c ord dom t K p R) (del : Bool) :
    ∃ r t₁, (if del then btDelete c t [] .cursor else .ok (.success, t)) = .ok (r, t₁) ∧
      Returns c ord dom (if del then K else K ++ [p]) R (btSeq c t₁ [] .next) := by
  cases del with
  | true =>
    obtain ⟨t₁, hdelete, hnext⟩ := btSeq_next_deleted hs hnodups hrdonly hord hcmp h [] []
    exact ⟨.success, t₁, hdelete, hnext⟩
  | false => exact ⟨.success, t, rfl, btSeq_next hs h []⟩

theorem scanLoop_spec (hs : Sound c) (hnodups : c.nodups = true) (hrdonly : c.rdonly = false)
    (hord : TotalCmp ord) (hcmp : ∀ a b, dom a → dom b → c.cmp a b = ord a b) {dels : List Bool}
    (h : At c ord dom t K p R) (hdels : R.length < dels.length) :
    ∃ t', scanLoop c dels t (some p) = .ok (p :: R, true, t') ∧
      Has c ord dom t' (K ++ kept (p :: R) dels) := by
  -- by induction on the pairs ahead
  induction R generalizing t K p dels with
  | nil =>
    obtain ⟨del, rest, rfl⟩ := List.exists_cons_of_length_pos hdels
    obtain ⟨r, t₁, hdelete, hnext⟩ := scan_step hs hnodups hrdonly hord hcmp h del
    obtain ⟨r', reply, t₂, hseq, -, rfl, hhas⟩ := hnext.eq_ok
    refine ⟨t₂, ?_, ?_⟩
    · cases del <;> simp_all [scanLoop]
    · cases del <;> simpa [kept] using hhas
  | cons q R ih =>
    obtain ⟨del, rest, rfl⟩ := List.exists_cons_of_length_pos (Nat.zero_lt_of_lt hdels)
    obtain ⟨r, t₁, hdelete, hnext⟩ := scan_step hs hnodups hrdonly hord hcmp h del
    obtain ⟨r', reply, t₂, hseq, -, rfl, hat⟩ := hnext.eq_ok
    obtain ⟨t', hloop, hhas⟩ := ih hat (by simpa using hdels : R.length < rest.length)
    refine ⟨t', ?_, ?_⟩
    · cases del <;> simp_all [scanLoop]
    · cases del <;> simpa [kept] using hhas

/-- A scan returns every pair of the tree once, in order, and leaves those it did not delete. -/
theorem scan_spec (hs : Sound c) (hnodups : c.nodups = true) (hrdonly : c.rdonly = false)
    (hord : TotalCmp ord) (hcmp : ∀ a b, dom a → dom b → c.cmp a b = ord a b)
    (h : InOrder c ord dom t cs fs leaves ups) (hdepth : ups.length ≤ stackSize)
    {dels : List Bool} (hdels : (contents cs leaves).length ≤ dels.length) :
    (contents cs leaves).Pairwise (fun p q => ord p.1 q.1 < 0) ∧
      ∃ t', scan c dels t = .ok (contents cs leaves, true, t') ∧
        Has c ord dom t' (kept (contents cs leaves) dels) := by
  refine ⟨h.pairs, ?_⟩
  have hfirst := btSeq_first hs h hdepth []
  generalize contents cs leaves = pairs at hfirst hdels ⊢
  obtain ⟨r, reply, t₁, hseq, hfirst⟩ := hfirst.eq_ok
  rw [scan, hseq, ok_bind]
  cases pairs with
  | nil =>
    obtain ⟨-, rfl, hhas⟩ := hfirst
    exact ⟨t₁, by cases dels <;> rfl, by cases dels <;> exact hhas⟩
  | cons p R =>
    obtain ⟨-, rfl, hat⟩ := hfirst
    obtain ⟨t', hloop, hhas⟩ := scanLoop_spec hs hnodups hrdonly hord hcmp hat hdels
    exact ⟨t', hloop, by simpa using hhas⟩

theorem scan_spec_three : ∃ t', scan smallConfig [false, true, false] threePairs =
      .ok ([([1], []), ([2], []), ([3], [])], true, t') ∧
    Has smallConfig lexCmp (OnPage smallConfig) t' [([1], []), ([3], [])] :=
  (scan_spec threePairs_sound (by decide) rfl threePairs_compares.total threePairs_compares.cmp
    threePairs_order (by decide)
    (by decide : (contents [] [threeNode]).length ≤ [false, true, false].length)).2

/-- Internal page `p`, with one entry that leads to the next page. -/
def tallNode (p : Nat) : Node := ⟨p, .binternal, [some (.bi ⟨[], p + 1, false⟩)]⟩

/-- `n` levels of one such page each, the root on top. -/
def tallUps : Nat → List (List Node)
  | 0 => []
  | p + 1 => [tallNode (p + 1)] :: tallUps p

def tallLeaf : Node := ⟨52, .bleaf, [some (.bl (bytePair 1))]⟩

/-- A tree with one level more than `bt_stack` has entries. -/
def tallTree : Btree :=
  { newTree .bleaf with
    pages := junkPage :: ((List.range 51).map fun i =>
      { rootPage .binternal with pgno := i + 1, linp := (tallNode (i + 1)).linp }) ++
        [{ rootPage .bleaf with pgno := 52, linp := tallLeaf.linp }] }

theorem mem_tallUps {n : Nat} {up : List Node} (h : up ∈ tallUps n) :
    ∃ p < n, up = [tallNode (p + 1)] := by
  induction n with
  | zero => exact absurd h (by simp [tallUps])
  | succ n ih =>
    rcases List.mem_cons.1 h with rfl | h
    · exact ⟨n, Nat.lt_succ_self n, rfl⟩
    · obtain ⟨p, hp, rfl⟩ := ih h
      exact ⟨p, Nat.lt_succ_of_lt hp, rfl⟩

theorem kids_tallUps (n : Nat) : kids Node.linp slotChild pRoot (tallUps n) = [some (n + 1)] := by
  cases n <;> rfl

theorem tower_tallUps (n : Nat) : Tower Node.linp slotChild Node.pgno pRoot (tallUps n) := by
  induction n with
  | zero => trivial
  | succ n ih => exact ⟨by rw [kids_tallUps]; rfl, ih⟩

theorem fences_tallUps (n : Nat) : leafFences [] (tallUps n) = [none] := by
  induction n with
  | zero => rfl
  | succ n ih =>
    rw [leafFences, tallUps, fences,
      show fences Node.linp (slotKey []) (tallUps n) = [none] from ih]
    rfl

theorem tallTree_page {p : Nat} (hp : p < 51) :
    tallTree.pages[p + 1]? = some { rootPage .binternal with
      pgno := p + 1, linp := (tallNode (p + 1)).linp } := by
  have hlen : p < ((List.range 51).map fun i =>
      { rootPage .binternal with pgno := i + 1, linp := (tallNode (i + 1)).linp }).length := by
    simpa using hp
  rw [tallTree, List.cons_append, List.getElem?_cons_succ, List.getElem?_append_left hlen,
    List.getElem?_map, List.getElem?_range hp, Option.map_some]

theorem tallTree_order :
    InOrder smallConfig lexCmp (OnPage smallConfig) tallTree [] [] [tallLeaf] (tallUps 51) where
  tree :=
    { rep :=
        { linked := by
            intro level hlevel
            rcases List.mem_cons.1 hlevel with rfl | hup
            · exact ⟨⟨_, rfl, ⟨rfl, rfl, rfl, rfl, rfl⟩⟩, trivial⟩
            · obtain ⟨p, hp, rfl⟩ := mem_tallUps hup
              exact ⟨⟨_, tallTree_page hp, ⟨rfl, rfl, rfl, rfl, rfl⟩⟩, trivial⟩
          chains := by simp
          free := rfl
          nodup := by decide +kernel
          nonzero := by decide +kernel
          pos := by simp [tallTree]
          max := by decide +kernel }
      shape :=
        { tower := ⟨by rw [kids_tallUps]; rfl, tower_tallUps 51⟩
          leaf := by
            intro n hn
            obtain rfl := List.mem_singleton.1 hn
            refine ⟨rfl, fun s hs => ?_, by rw [Fits]; decide +kernel⟩
            obtain rfl := List.mem_singleton.1 hs
            exact ⟨_, rfl, by decide +kernel, by simp [bytePair], by simp [bytePair]⟩
          internal := by
            intro up hup n hn
            obtain ⟨p, -, rfl⟩ := mem_tallUps hup
            obtain rfl := List.mem_singleton.1 hn
            refine ⟨rfl, fun s hs => ?_, ?_, by simp [tallNode]⟩
            · obtain rfl := List.mem_singleton.1 hs
              exact ⟨_, rfl, Nat.zero_le _, by simp⟩
            · show btdataoff + indxSize * 1 + (nbinternal 0 + 0) ≤ smallConfig.psize
              decide +kernel
          refs := by decide +kernel } }
  filled := by
    intro _ n hn
    obtain rfl := List.mem_singleton.1 hn
    simp [tallLeaf]
  ordered :=
    { fenced := by
        rw [fences_tallUps]
        simp [Fenced, marks, nodeKeys, tallLeaf, slotKey, itemKey, Mark.Before]
      dom := by
        intro level hlevel n hn s hs k hk
        rcases List.mem_cons.1 hlevel with rfl | hup
        · obtain rfl := List.mem_singleton.1 hn
          obtain rfl := List.mem_singleton.1 hs
          obtain rfl := Option.some.inj hk
          rw [OnPage]
          decide +kernel
        · obtain ⟨p, -, rfl⟩ := mem_tallUps hup
          obtain rfl := List.mem_singleton.1 hn
          obtain rfl := List.mem_singleton.1 hs
          obtain rfl := Option.some.inj hk
          exact Nat.zero_le _ }

/-- A delete in a tree that is too deep writes past the end of `bt_stack`. -/
theorem scan_too_deep :
    Sound smallConfig ∧ smallConfig.nodups = true ∧ smallConfig.rdonly = false ∧
      smallConfig.cmp = btDefcmp ∧
      InOrder smallConfig lexCmp (OnPage smallConfig) tallTree [] [] [tallLeaf] (tallUps 51) ∧
      ¬ ∃ t', scan smallConfig [true] tallTree = .ok (contents [] [tallLeaf], true, t') := by
  refine ⟨threePairs_sound, by decide, rfl, rfl, tallTree_order, ?_⟩
  rintro ⟨t', hscan⟩
  have hfault : (scan smallConfig [true] tallTree).toOption.isNone = true := by decide +kernel
  rw [hscan] at hfault
  exact Bool.false_ne_true hfault

/-- After a run of safe calls on a new tree a scan returns the pairs of the map, in order, and
leaves those it does not delete. -/
theorem scan_of_run (hs : Sound c) (hnodups : c.nodups = true) (hrdonly : c.rdonly = false)
    (hord : Compares c ord) {ops : List Op} (hsmall : ∀ op ∈ ops, op.Small c)
    (hsafe : Admitted (step c) (Safe c) (newTree .bleaf) ops) :
    Ensures (· = .nospace) (run (step c) (newTree .bleaf) ops) fun r =>
      depth r.2.pages (stackSize + 1) pRoot ≤ stackSize → ∃ pairs : List (Dbt × Dbt),
        Represents pairs (specRun mapStep (fun _ => none) ops).2 ∧
        pairs.Pairwise (fun p q => ord p.1 q.1 < 0) ∧
        ∀ dels : List Bool, pairs.length ≤ dels.length →
          ∃ t, scan c dels r.2 = .ok (pairs, true, t) ∧
            Has c ord (fun k => k.length ≤ c.ovflsize) t (kept pairs dels) := by
  have hstep : ∀ t m op, Holds c ord t m → Safe c t op ∧ op.Small c →
      Ensures (· = .nospace) (step c t op) fun r =>
        r.1 = (mapStep m op).1 ∧ Holds c ord r.2 (mapStep m op).2 := fun t m op h hok =>
    step_spec hs hnodups hrdonly hord h hok.1 hok.2
  refine (run_simulates hstep (holds_new hs) (hsafe.and hsmall)).mono ?_
  rintro ⟨replies, t⟩ ⟨-, cs, fs, leaves, ups, hsorted, hm⟩ hdepth
  have horder : InOrder c ord _ t cs fs leaves ups :=
    ⟨hsorted.tree, hsorted.filled, hsorted.ordered⟩
  refine ⟨_, hm, horder.pairs, fun dels hdels => ?_⟩
  have hfirst := btSeq_first hs horder (hsorted.depth_le hdepth) []
  generalize contents cs leaves = pairs at hfirst hdels ⊢
  obtain ⟨r, reply, t₁, hseq, hfirst⟩ := hfirst.eq_ok
  rw [scan, hseq, ok_bind]
  cases pairs with
  | nil =>
    obtain ⟨-, rfl, hhas⟩ := hfirst
    exact ⟨t₁, by cases dels <;> rfl, by cases dels <;> exact hhas⟩
  | cons p R =>
    obtain ⟨-, rfl, hat⟩ := hfirst
    obtain ⟨t', hloop, hhas⟩ := scanLoop_spec hs hnodups hrdonly hord.total hord.cmp hat hdels
    exact ⟨t', hloop, by simpa using hhas⟩

theorem scan_of_run_one :
    Ensures (· = .nospace) (run (step (openConfig ⟨false, 512, 2, none, none⟩ 8192 1000))
      (newTree .bleaf) [.put [1] [2]]) fun r => ∃ pairs t, ([1], [2]) ∈ pairs ∧
        scan (openConfig ⟨false, 512, 2, none, none⟩ 8192 1000)
          (List.replicate pairs.length false) r.2 = .ok (pairs, true, t) := by
  have hspace : indxSize + nbleafdbt 0 0 ≤ pairSpace ⟨false, 512, 2, none, none⟩ 8192 := by decide
  have hrun := scan_of_run (sound_open (by decide) (by decide : 1000 ≤ u32Mod) hspace) rfl rfl
    (compares_default (by decide) (by decide) hspace rfl rfl)
    (by decide : ∀ op ∈ [Op.put [1] [2]], op.Small _)
    ⟨⟨by decide, fun hne => absurd rfl hne, ?_⟩, fun _ _ _ => trivial⟩
  · obtain ⟨pairs, hm, -, hscan⟩ := hrun (by decide)
    obtain ⟨t, hscan, -⟩ := hscan (List.replicate pairs.length false) (by simp)
    exact ⟨pairs, t, (hm.mem _ _).1 rfl, hscan⟩
  · intro _ h items bl heq _ hget _ hkey _ hdata hroom
    obtain rfl := Except.ok.inj heq
    obtain rfl := Option.some.inj hget
    have hbytes : (Item.bl bl).nbytes = lalign (4 + 4 + 1 + bl.key.length + bl.data.length) := rfl
    rw [hbytes, hkey, hdata] at hroom
    exact absurd hroom (by decide)

end Btree

end Bsdi.Db
