import Bsdi.Db.Btree.Scan

/-!
# Replacing the record at the cursor

`__bt_put` with `R_CURSOR` goes to the cursor's record without a search. If its page has to be
split, `__bt_split` finds the parents on `bt_stack`, where the last search left them.
-/

namespace Bsdi.Db

open Bsdi.Lib

namespace Btree

variable {c : Config} {t t' : Btree} {cs : List Chain} {fs : List Pgno}
variable {leaves A B : List Node} {ups : List (List Node)} {x : Node} {bl : BLeaf}
variable {ord : Dbt → Dbt → Int} {u v w : List (Option Item)} {key data : Dbt}
variable {m : Dbt → Option Dbt}

/-- A tree in order whose pairs are those of the map `m`, whatever `bt_last` designates. -/
def Stores (c : Config) (ord : Dbt → Dbt → Int) (t : Btree) (m : Dbt → Option Dbt) : Prop :=
  ∃ cs fs leaves ups, Arranged c ord t cs fs leaves ups ∧ Represents (contents cs leaves) m

theorem Holds.stores (h : Holds c ord t m) : Stores c ord t m := by
  obtain ⟨cs, fs, leaves, ups, hsorted, hm⟩ := h
  exact ⟨cs, fs, leaves, ups, hsorted.arranged, hm⟩

theorem Stores.get (hs : Sound c) (hnodups : c.nodups = true) (hord : Compares c ord)
    (h : Stores c ord t m) (hdepth : depth t.pages (stackSize + 1) pRoot ≤ stackSize)
    (hkey : key.length ≤ c.ovflsize) :
    ∃ t', btGet c t key .none =
      .ok (if (m key).isSome then .success else .special, m key, t') := by
  obtain ⟨cs, fs, leaves, ups, harranged, hm⟩ := h
  have hups : ups.length ≤ stackSize := by
    rw [harranged.tree.depth_eq] at hdepth
    omega
  obtain ⟨st, heq⟩ := harranged.get hs hnodups hord hm hups hkey
  exact ⟨_, heq⟩

def OnKey (c : Config) (t : Btree) (key : Dbt) : Prop :=
  ∃ t', btSearch c t key = .ok (t', t.cursor.pg, true)

/-- If the record with the new data does not fit on the cursor's page, `bt_stack` is the path to
that page. -/
def StackFits (c : Config) (t : Btree) (key data : Dbt) : Prop :=
  ∀ r h, btSearch c t key = .ok r → t.pages[t.cursor.pg.pgno]? = some h →
    (withoutRecord h t.cursor.pg.index true).room c.psize <
      nbleafdbt key.length (dataOnPage c key data) + indxSize → t.stack = r.1.stack

theorem Sorted.found {e : Epgno} (hs : Sound c) (hnodups : c.nodups = true) (hord : Compares c ord)
    (h : Sorted c ord t cs fs leaves ups) (hm : Represents (contents cs leaves) m)
    (hdepth : ups.length ≤ stackSize) (hkey : key.length ≤ c.ovflsize)
    (hfound : btSearch c t key = .ok (t', e, true)) : (m key).isSome = true := by
  obtain ⟨r, A, x, B, u, v, heq, hloc, -, hhit⟩ := h.arranged.search hs hnodups hord hdepth hkey
  obtain rfl := Except.ok.inj (hfound.symm.trans heq)
  obtain ⟨bl, w, rfl, -, hbl⟩ := hhit rfl
  obtain ⟨rfl, hlinp, -⟩ := hloc
  have hpair : recordPair cs bl = (key, full cs bl.bigdata bl.data) := by
    rw [recordPair, ← hbl]
    rfl
  rw [(hm.mem key (full cs bl.bigdata bl.data)).2 (by rw [← hpair, contents_split hlinp]; simp)]
  rfl

theorem Sorted.putCursor (hs : Sound c) (hnodups : c.nodups = true) (hord : Compares c ord)
    (hrdonly : c.rdonly = false) (h : Sorted c ord t cs fs leaves ups)
    (hm : Represents (contents cs leaves) m) (hdepth : ups.length ≤ stackSize)
    (hkey : key.length + novflsize ≤ c.ovflsize) (hdata : data.length < u32Mod)
    (hcursor : CursorAt t t.cursor.pg) (hon : OnKey c t key) (hstack : StackFits c t key data)
    (hwell : SplitsWell c t key data true) :
    (m key).isSome = true ∧ Ensures (· = .nospace) (btPut c t key data .cursor) fun res =>
      res.1 = .success ∧ Stores c ord res.2 (Function.update m key (some data)) ∧
        (t.order = .not → Holds c ord res.2 (Function.update m key (some data))) := by
  obtain ⟨t₀, hfound⟩ := hon
  have hovfl := hs.room
  have hpsize := hs.psize_le
  have hkey32 : key.length < u32Mod := by simp only [indxMod, u32Mod] at *; omega
  refine ⟨h.found hs hnodups hord hm hdepth (Nat.le_trans (Nat.le_add_right _ _) hkey) hfound, ?_⟩
  rw [btPut, if_neg (by simp [hrdonly])]
  simp only [hcursor.init, hcursor.acquire, hcursor.after, hcursor.before, Bool.or_self,
    Bool.not_false, Bool.and_self, if_true]
  refine (storePair_spec hs h.tree.rep hkey32 hdata).bind ?_
  rintro ⟨t₁, bl⟩ ⟨new, fs₁, hp, hlen, hsmall⟩
  dsimp only at hp hlen hsmall ⊢
  obtain ⟨hbig, honpage⟩ := hsmall hkey
  have hblkey : bl.key = key := by
    have := congrArg Prod.fst hp.pair
    simpa [recordPair, hbig] using this
  obtain ⟨htree, hordered, hcontents, hplain, hlow⟩ := h.store hp
  have harranged : Arranged c ord t₁ (new ++ cs) fs₁ leaves ups :=
    ⟨htree, h.filled, hordered.fenced, h.small, hplain, hlow⟩
  -- the search `__bt_put` leaves out would find the cursor's record
  obtain ⟨r, A, x, B, u, v, hsearch, hloc, hplace⟩ :=
    btSearch_spec (t := { t₁ with order := .not }) bl.key hs.plen_pos hnodups htree.shape htree.rep
      hdepth
  obtain ⟨r₀, heq₀, hr₀, hstack₀⟩ := h.search_before hs hnodups hdepth hp (hblkey ▸ hsearch)
  obtain rfl : (t₀, t.cursor.pg, true) = r₀ := Except.ok.inj (hfound.symm.trans heq₀)
  have hplaced := hplace ord _ hord.total hord.cmp (by omega) hordered
  obtain ⟨rfl, hlinp, -, hpath, hpgno, hindex, -⟩ := hloc
  have hexact : r.2.2 = true := congrArg Prod.snd hr₀.symm
  have hpos : t.cursor.pg = r.2.1 := congrArg Prod.fst hr₀
  have hat : r.2.1 = ⟨x.pgno, u.length⟩ := by rw [← hpgno, ← hindex]
  have hcur : t₁.cursor.pg = ⟨x.pgno, u.length⟩ := by
    have heq : t₁.cursor = t.cursor := by rw [hp.eq]
    rw [heq, hpos, hat]
  rw [hexact] at hplaced
  obtain ⟨old, w, rfl, hold, hkeyold⟩ := hplaced.record htree.shape hlinp
  obtain ⟨t₂, cs₂, fs₂, heq₂, hremoves⟩ := btDleaf_spec (some bl.key) hs.plen_pos hnodups
    htree.rep hold (htree.shape.refs_apart hlinp).1 hlinp
  obtain ⟨hinsertable, hpair⟩ := harranged.insertable_replace hlinp hplaced hbig (hp.slot hlen)
    (hp.nodup_refs h.tree.shape hlinp) hremoves
  have hframe : t₂.stack = t.stack ∧ t₂.order = t.order := by
    have honly := hremoves.only
    rw [SplitOnly] at honly
    rw [honly, hp.eq]
    exact ⟨rfl, rfl⟩
  have hready : SplitReady c t₂ A { x with linp := u ++ w } ups u bl := by
    intro pg items hget hitems hroom
    have hpages : t₁.pages[x.pgno]? = t.pages[x.pgno]? := hp.agree h.tree.rep x.pgno (by simp)
    obtain ⟨pg₁, hget₁, hpg₁⟩ := Rep.getNode (D := []) htree.rep
    have hpg := Option.some.inj (hget.symm.trans (hremoves.page pg₁ hget₁))
    have herase : pg₁.linp.eraseIdx u.length = u ++ w := by
      rw [hpg₁.linp, hlinp, List.eraseIdx_append_of_length_le (Nat.le_refl _)]
      simp
    have hwithout : { pg with dead := none } =
        { withoutRecord pg₁ u.length true with dead := none } := by
      rw [withoutRecord, hpg, if_pos rfl, herase]
    -- the stack is the path the search would have left
    have hsame : t.stack = r.1.stack := by
      rw [← hstack₀]
      refine hstack _ pg₁ hfound ?_ ?_
      · rw [hpos, hpgno, ← hpages, hget₁]
      · rw [hpos, hindex]
        have hbytes : (Item.bl bl).nbytes = nbleafdbt bl.key.length bl.data.length := rfl
        have hrooms : (withoutRecord pg₁ u.length true).room c.psize = pg.room c.psize :=
          (congrArg (fun q : Page => q.room c.psize) hwithout).symm
        rw [hbytes, hblkey, honpage] at hroom
        exact hrooms ▸ hroom
    obtain ⟨hpage, hparents⟩ := h.divides hs hnodups hdepth hp hblkey hbig honpage hwell hsearch
      hat (fun _ => rfl) (fun pg₀ hget₀ => by
        rw [← hpages, hget₁] at hget₀
        rw [hexact, ← Option.some.inj hget₀]
        exact hwithout) (by rw [hpg]; exact hitems) hroom
    rw [hframe.1, hsame]
    refine ⟨hpath, hpage, hparents.congr fun e he => ?_⟩
    have hmem := path_mem hpath e he
    rw [hremoves.same e.pgno (by simp only [List.mem_append]; exact .inl (.inr hmem))]
    exact hp.agree h.tree.rep e.pgno (by
      rw [List.flatten_cons, List.map_append]
      exact List.mem_append_right _ hmem)
  have hrep : ∀ {leaves' : List Node}, contents cs₂ leaves' = contents cs₂ A ++
      (u.filterMap (slotPair cs₂) ++ recordPair cs₂ bl :: w.filterMap (slotPair cs₂)) ++
        contents cs₂ B → Represents (contents cs₂ leaves') (Function.update m key (some data)) :=
    fun hafter => harranged.represents_replace hlinp hremoves (hcontents ▸ hm)
      (by rw [← hblkey, ← hkeyold]; rfl) (hpair.trans hp.pair) hafter
  rw [putAt, if_pos rfl, hcur, heq₂, ok_bind]
  by_cases horder : t.order = .not
  · have hready' : Ready c ord t₂ cs₂ fs₂ A { x with linp := u ++ w } B ups u w bl :=
      { hinsertable with cached := fun hne => absurd (hframe.2.trans horder) hne }
    refine (hready'.insertLeaf hs hord hready).bind ?_
    rintro t' ⟨fs', leaves', ups', hsorted', hafter⟩
    have hholds : Holds c ord { t' with modified := true } (Function.update m key (some data)) :=
      ⟨cs₂, fs', leaves', ups', hsorted'.frame rfl rfl rfl rfl, hrep hafter⟩
    exact ⟨rfl, hholds.stores, fun _ => hholds⟩
  · refine (hinsertable.insertLeaf hs hord hready).bind ?_
    rintro t' ⟨fs', leaves', ups', harranged', hafter⟩
    exact ⟨rfl, ⟨cs₂, fs', leaves', ups', harranged'.frame rfl rfl, hrep hafter⟩,
      fun hnot => absurd hnot horder⟩

theorem Sorted.removeCursor (hs : Sound c) (hnodups : c.nodups = true) (hord : Compares c ord)
    (h : Sorted c ord t cs fs leaves ups) (hm : Represents (contents cs leaves) m)
    (hdepth : ups.length ≤ stackSize) (hkey : key.length ≤ c.ovflsize)
    (hcursor : CursorAt t t.cursor.pg) (hon : OnKey c t key) :
    ∃ t₁, deleteCursor c t = .ok (.success, t₁) ∧ Holds c ord t₁ (Function.update m key none) := by
  obtain ⟨t₀, hfound⟩ := hon
  obtain ⟨r, A, x, B, u, v, heq, hloc, -, hhit⟩ := h.arranged.search hs hnodups hord hdepth hkey
  obtain rfl := Except.ok.inj (hfound.symm.trans heq)
  obtain ⟨bl, w, rfl, -, hbl⟩ := hhit rfl
  obtain ⟨hleaves, hlinp, -, -, hpgno, hindex, -⟩ := hloc
  have hat : RecordAt leaves A x B u bl w t.cursor.pg :=
    ⟨hleaves, hlinp, by rw [← hpgno, ← hindex]⟩
  obtain ⟨st, hpath, hrun⟩ := deleteCursor_eq hs hnodups h.tree hdepth hat hcursor
  subst hleaves
  have h₁ : Sorted c ord { t with stack := st } cs fs (A ++ x :: B) ups := h.frame rfl rfl rfl rfl
  obtain ⟨t₁, pg, t', heq₁, hget, hpdelete, cs', fs', leaves', ups', hsorted', hcontents⟩ :=
    h₁.delete hs hord.total hnodups hlinp hpath none
  have hpair : recordPair cs bl = (key, full cs bl.bigdata bl.data) := by
    rw [recordPair, ← hbl]
    rfl
  rw [contents_split hlinp, hpair] at hm
  refine ⟨_, hrun t₁ pg t' heq₁ hget hpdelete, cs', fs', leaves', ups',
    hsorted'.frame rfl rfl rfl rfl, ?_⟩
  rw [hcontents]
  simpa using hm.erase

/-- The states have the same tree. -/
structure SameTree (t t' : Btree) : Prop where
  pages : t'.pages = t.pages
  free : t'.free = t.free
  order : t'.order = t.order
  last : t'.last = t.last

theorem SameTree.holds (h : SameTree t t') (hholds : Holds c ord t m) : Holds c ord t' m := by
  obtain ⟨cs, fs, leaves, ups, hsorted, hm⟩ := hholds
  exact ⟨cs, fs, leaves, ups, hsorted.frame h.pages h.free h.order h.last, hm⟩

theorem SameTree.trans {t'' : Btree} (h : SameTree t t') (h' : SameTree t' t'') : SameTree t t'' :=
  ⟨h'.pages.trans h.pages, h'.free.trans h.free, h'.order.trans h.order, h'.last.trans h.last⟩

theorem btSearchFrom_same (f : Nat) (t : Btree) (p : Pgno) :
    Ensures (fun _ => True) (btSearchFrom c key f t p) fun r => SameTree t r.1 := by
  induction f generalizing t p with
  | zero => trivial
  | succ f ih =>
    rw [btSearchFrom]
    refine Ensures.bind .any fun h _ => .bind .any fun base _ => ?_
    dsimp only
    split_ifs
    · exact ⟨rfl, rfl, rfl, rfl⟩
    · exact .bind .any fun e _ => ⟨rfl, rfl, rfl, rfl⟩
    · refine .bind .any fun bi _ => (ih _ _).mono fun r hr => ?_
      exact ⟨hr.pages, hr.free, hr.order, hr.last⟩
    · refine .bind .any fun bi _ => (ih _ _).mono fun r hr => ?_
      exact ⟨hr.pages, hr.free, hr.order, hr.last⟩

theorem btFirst_same (t : Btree) (key : Dbt) :
    Ensures (fun _ => True) (btFirst c t key) fun r => SameTree t r.2.2 := by
  rw [btFirst, btSearch]
  refine (btSearchFrom_same (stackSize + 1) { t with stack := [] } pRoot).bind ?_
  rintro ⟨t₁, e, exact⟩ hsame
  have hsame : SameTree t t₁ := ⟨hsame.pages, hsame.free, hsame.order, hsame.last⟩
  dsimp only
  split_ifs
  · exact hsame
  · exact .bind .any fun h _ => .bind .any fun e _ => hsame
  · refine .bind .any fun h _ => ?_
    split_ifs
    · exact hsame
    · exact .bind .any fun h' _ => hsame
    · exact hsame

theorem btSeqadv_same (t : Btree) (flags : Flag) :
    Ensures (fun _ => True) (btSeqadv c t flags) fun r => SameTree t r.2.2 := by
  rw [btSeqadv]
  by_cases hacquire : t.cursor.acquire = true
  · rw [if_pos hacquire]
    exact btFirst_same t t.cursor.key
  · rw [if_neg hacquire]
    refine .bind .any fun h _ => ?_
    split_ifs <;> first
      | exact ⟨rfl, rfl, rfl, rfl⟩
      | exact .bind .any fun h' _ => ⟨rfl, rfl, rfl, rfl⟩

theorem btSeqset_same (t : Btree) (key : Dbt) (flags : Flag) :
    Ensures (fun _ => True) (btSeqset c t key flags) fun r => SameTree t r.2.2 := by
  rw [btSeqset]
  split_ifs
  · exact ⟨rfl, rfl, rfl, rfl⟩
  · exact btFirst_same t key
  · exact .bind .any fun e _ => ⟨rfl, rfl, rfl, rfl⟩

theorem btSeq_same (t : Btree) (key : Dbt) (flags : Flag) :
    Ensures (fun _ => True) (btSeq c t key flags) fun r => SameTree t r.2.2 := by
  rw [btSeq]
  split_ifs
  · refine (btSeqadv_same t flags).bind ?_
    rintro ⟨r, e, t₁⟩ hsame
    cases e with
    | none => exact hsame
    | some e => exact .bind .any fun pair _ => SameTree.trans hsame ⟨rfl, rfl, rfl, rfl⟩
  · refine (btSeqset_same t key flags).bind ?_
    rintro ⟨r, e, t₁⟩ hsame
    cases e with
    | none => exact hsame
    | some e => exact .bind .any fun pair _ => SameTree.trans hsame ⟨rfl, rfl, rfl, rfl⟩
  · exact ⟨rfl, rfl, rfl, rfl⟩

/-- A call on a tree: those of `Op`, scans, and `__bt_delete` and `__bt_put` with `R_CURSOR`. -/
inductive Call
  | op (op : Op)
  | seq (key : Dbt) (flags : Flag)
  | deleteCursor
  | putCursor (key data : Dbt)

def callStep (c : Config) (t : Btree) : Call → Except Fault (Ret × Btree)
  | .op op => do
    let (r, t) ← step c t op
    .ok (r.1, t)
  | .seq key flags => do
    let (r, _, t) ← btSeq c t key flags
    .ok (r, t)
  | .deleteCursor => btDelete c t [] .cursor
  | .putCursor key data => btPut c t key data .cursor

/-- What `__bt_put` at the cursor needs: the key is that of the cursor's record, and if the record
does not fit on the page, the page and its parents divide well and are on `bt_stack`. -/
structure Replaceable (c : Config) (t : Btree) (key data : Dbt) : Prop where
  small : key.length + novflsize ≤ c.ovflsize
  size : data.length < u32Mod
  depth : depth t.pages (stackSize + 1) pRoot ≤ stackSize
  on : OnKey c t key
  stack : StackFits c t key data
  splits : SplitsWell c t key data true

/-- The state before a call does not lead to one of the defects. A split while `bt_last` is in use
may make it designate an internal page. -/
def CallSafe (c : Config) (t : Btree) : Call → Prop
  | .op op => Safe c t op ∧ op.Small c
  | .seq _ _ => True
  | .deleteCursor => CursorAt t t.cursor.pg → depth t.pages (stackSize + 1) pRoot ≤ stackSize ∧
    ∃ key, key.length ≤ c.ovflsize ∧ OnKey c t key
  | .putCursor key data => CursorAt t t.cursor.pg → Replaceable c t key data ∧ t.order = .not

theorem callStep_holds (hs : Sound c) (hnodups : c.nodups = true) (hrdonly : c.rdonly = false)
    (hord : Compares c ord) {call : Call} (h : ∃ m, Holds c ord t m) (hsafe : CallSafe c t call) :
    Ensures (fun _ => True) (callStep c t call) fun r => ∃ m, Holds c ord r.2 m := by
  obtain ⟨m, hholds⟩ := h
  have hcursor : ∀ e, t.cursor.init = true → (t.cursor.acquire || t.cursor.after ||
      t.cursor.before) = false → t.cursor.pg = e → CursorAt t e := by
    intro e hinit hflags hpg
    simp only [Bool.or_eq_false_iff] at hflags
    exact ⟨hinit, hflags.1.1, hflags.1.2, hflags.2, hpg⟩
  cases call with
  | op op =>
    refine (step_spec hs hnodups hrdonly hord hholds hsafe.1 hsafe.2).errors.bind ?_
    exact fun r hr => ⟨_, hr.2⟩
  | seq key flags =>
    exact (btSeq_same t key flags).bind fun r hr => ⟨m, hr.holds hholds⟩
  | deleteCursor =>
    rw [callStep, btDelete, if_neg (by simp [hrdonly])]
    by_cases hat : CursorAt t t.cursor.pg
    · obtain ⟨hdepth, key, hkey, hon⟩ := hsafe hat
      obtain ⟨cs, fs, leaves, ups, hsorted, hm⟩ := hholds
      obtain ⟨t₁, heq, hholds₁⟩ := hsorted.removeCursor hs hnodups hord hm
        (hsorted.depth_le hdepth) hkey hat hon
      exact .of_eq_ok heq ⟨_, hholds₁⟩
    · simp only [Btree.deleteCursor]
      split_ifs with hinit hflags
      · exact ⟨m, hholds⟩
      · exact ⟨m, hholds⟩
      · exact absurd (hcursor _ (by simpa using hinit) (by simpa using hflags) rfl) hat
  | putCursor key data =>
    rw [callStep]
    by_cases hat : CursorAt t t.cursor.pg
    · obtain ⟨hsafe, hnot⟩ := hsafe hat
      obtain ⟨cs, fs, leaves, ups, hsorted, hm⟩ := hholds
      have hput := (hsorted.putCursor hs hnodups hord hrdonly hm (hsorted.depth_le hsafe.depth)
        hsafe.small hsafe.size hat hsafe.on hsafe.stack hsafe.splits).2
      exact hput.errors.mono fun r hr => ⟨_, hr.2.2 hnot⟩
    · rw [btPut, if_neg (by simp [hrdonly])]
      dsimp only
      split_ifs with hflags
      · simp only [Bool.and_eq_true, Bool.not_eq_true'] at hflags
        exact absurd (hcursor _ hflags.1 hflags.2 rfl) hat
      · exact ⟨m, hholds⟩

def onePair : Btree :=
  { newTree .bleaf with
    pages := [junkPage, { rootPage .bleaf with linp := [some (.bl ⟨[1], [2], false, false⟩)] }]
    order := .forward
    last := ⟨pRoot, 0⟩
    cursor := { noCursor with init := true, pg := ⟨pRoot, 0⟩ }
    modified := true }

def grownData : Dbt := List.replicate 220 7

/-- Nine pairs on three leaf pages, a search for the first one, and the cursor moved back from the
end to the last pair of the second page. -/
def staleCalls : List Call :=
  let data : Dbt := List.replicate 90 7
  [.op (.put [1] data), .op (.put [2] data), .op (.put [3] data), .op (.put [4] data),
    .op (.put [5] data), .op (.put [6] data), .op (.put [7] data), .op (.put [8] data),
    .op (.put [9] data), .op (.get [1]), .seq [] .last, .seq [] .prev, .seq [] .prev]

end Btree

end Bsdi.Db
