import Bsdi.Db.Btree.Compare
import Bsdi.Lib.Runs

/-!
# A tree as a finite map

Calls of `__bt_put`, `__bt_get` and `__bt_delete` on a tree without duplicates whose keys
stay on their pages.
-/

namespace Bsdi.Db

open Bsdi.Lib

namespace Btree

/-- A call on a tree; `putNew` is `__bt_put` with `R_NOOVERWRITE`. -/
inductive Op
  | put (key data : Dbt)
  | putNew (key data : Dbt)
  | get (key : Dbt)
  | delete (key : Dbt)

/-- What a call returns, with the data of `__bt_get`. -/
abbrev Reply := Ret × Option Dbt

/-- The key stays on its page, and the size of the data is a `size_t`. -/
def Op.Small (c : Config) : Op → Prop
  | put key data => key.length + novflsize ≤ c.ovflsize ∧ data.length < u32Mod
  | putNew key data => key.length + novflsize ≤ c.ovflsize ∧ data.length < u32Mod
  | get key => key.length + novflsize ≤ c.ovflsize
  | delete key => key.length + novflsize ≤ c.ovflsize

instance (c : Config) : DecidablePred (Op.Small c)
  | .put _ _ => inferInstanceAs (Decidable (_ ∧ _))
  | .putNew _ _ => inferInstanceAs (Decidable (_ ∧ _))
  | .get _ => inferInstanceAs (Decidable (_ ≤ _))
  | .delete _ => inferInstanceAs (Decidable (_ ≤ _))

def step (c : Config) (t : Btree) : Op → Except Fault (Reply × Btree)
  | .put key data => do
    let (r, t) ← btPut c t key data .none
    .ok ((r, none), t)
  | .putNew key data => do
    let (r, t) ← btPut c t key data .nooverwrite
    .ok ((r, none), t)
  | .get key => do
    let (r, data, t) ← btGet c t key .none
    .ok ((r, data), t)
  | .delete key => do
    let (r, t) ← btDelete c t key .none
    .ok ((r, none), t)

def mapStep (m : Dbt → Option Dbt) : Op → Reply × (Dbt → Option Dbt)
  | .put key data => ((.success, none), Function.update m key (some data))
  | .putNew key data =>
    if (m key).isSome then ((.special, none), m)
    else ((.success, none), Function.update m key (some data))
  | .get key => ((if (m key).isSome then .success else .special, m key), m)
  | .delete key =>
    ((if (m key).isSome then .success else .special, none), Function.update m key none)

/-- The number of internal pages on the way from page `p` to the first leaf page below it,
up to a bound. -/
def depth (ps : List Page) : Nat → Pgno → Nat
  | 0, _ => 0
  | fuel + 1, p =>
    match ps[p]? with
    | none => 0
    | some h =>
      if h.type = .bleaf then 0
      else
        match h.getBinternal 0 with
        | .ok bi => depth ps fuel bi.pgno + 1
        | .error _ => 0

/-- The state before a call does not lead to one of the defects: the tree is not deeper than
`bt_stack`, `bt_fast` does not hit an emptied page, and what has to be split divides well. -/
def Safe (c : Config) (t : Btree) : Op → Prop
  | .put key data => depth t.pages (stackSize + 1) pRoot ≤ stackSize ∧
    Fresh c t key data ∧ SplitsWell c t key data true
  | .putNew key data => depth t.pages (stackSize + 1) pRoot ≤ stackSize ∧
    Fresh c t key data ∧ SplitsWell c t key data false
  | .get _ => depth t.pages (stackSize + 1) pRoot ≤ stackSize
  | .delete _ => depth t.pages (stackSize + 1) pRoot ≤ stackSize

variable {c : Config} {t : Btree} {cs : List Chain} {fs : List Pgno}
variable {leaves : List Node} {ups : List (List Node)} {key data : Dbt}
variable {ord : Dbt → Dbt → Int} {m : Dbt → Option Dbt}

theorem depth_node (fuel : Nat) {D U : List (List Node)} {A B : List Node} {x : Node}
    (hshape : Shape c cs leaves ups) (hrep : Rep (plen c) t.pages t.free ⟨leaves :: ups, cs, fs⟩)
    (hsplit : leaves :: ups = D ++ (A ++ x :: B) :: U) :
    depth t.pages fuel x.pgno = min fuel D.length := by
  induction fuel generalizing D A x B U with
  | zero => simp [depth]
  | succ fuel ih =>
    have hrep' := hrep
    rw [hsplit] at hrep'
    obtain ⟨pg, hget, hpg⟩ := hrep'.getNode
    simp only [depth, hget, hpg.type]
    obtain rfl | ⟨D, below, rfl⟩ := List.eq_nil_or_concat D
    · obtain ⟨rfl, rfl⟩ : leaves = A ++ x :: B ∧ ups = U := by simpa using hsplit
      rw [if_pos (hshape.leaf x (by simp)).type]
      simp
    · rw [List.concat_eq_append, List.append_assoc, List.singleton_append] at hsplit
      have hup : A ++ x :: B ∈ ups := by
        cases D with
        | nil => exact (List.cons.inj hsplit).2 ▸ List.mem_cons_self ..
        | cons L D => rw [(List.cons.inj hsplit).2]; simp
      have hint := hshape.internal _ hup x (by simp)
      obtain ⟨s, w, hlinp⟩ := List.exists_cons_of_ne_nil hint.ne
      obtain ⟨bi, rfl, -⟩ := hint.slots s (by simp [hlinp])
      have hbi : pg.getBinternal 0 = .ok bi := by
        simp [Page.getBinternal, Page.slot, hpg.linp, hlinp]
      have htower : Tower Node.linp slotChild Node.pgno pRoot (below :: (A ++ x :: B) :: U) := by
        have := hshape.tower
        rw [hsplit] at this
        exact this.suffix
      obtain ⟨A₁, x₁, B₁, rfl, -, hx₁⟩ := htower.child_node (u := []) hlinp rfl
      rw [if_neg (by rw [hint.type]; decide), hbi]
      simp only [← hx₁, ih hsplit, List.concat_eq_append, List.length_append, List.length_singleton]
      omega

theorem Tree.depth_eq {fuel : Nat} (h : Tree c t cs fs leaves ups) :
    depth t.pages fuel pRoot = min fuel ups.length := by
  obtain ⟨D, top, hlevels⟩ : ∃ D top, leaves :: ups = D ++ [top] :=
    (List.eq_nil_or_concat (leaves :: ups)).resolve_left (by simp) |>.imp fun D => by simp
  obtain ⟨x, rfl, hx⟩ := h.shape.tower.root_node hlevels
  have hlen := congrArg List.length hlevels
  simp only [List.length_cons, List.length_append, List.length_nil] at hlen
  have := depth_node (A := []) (B := []) fuel h.shape h.rep hlevels
  rw [hx] at this
  rw [this]
  omega

theorem Sorted.depth_le (h : Sorted c ord t cs fs leaves ups)
    (hdepth : depth t.pages (stackSize + 1) pRoot ≤ stackSize) : ups.length ≤ stackSize := by
  rw [h.tree.depth_eq] at hdepth
  omega

theorem Sorted.put {overwrite : Bool} (hs : Sound c) (hnodups : c.nodups = true)
    (hord : Compares c ord) (h : Sorted c ord t cs fs leaves ups)
    (hm : Represents (contents cs leaves) m) (hdepth : ups.length ≤ stackSize)
    (hkey : key.length + novflsize ≤ c.ovflsize) (hdata : data.length < u32Mod)
    (hfresh : Fresh c t key data) (hwell : SplitsWell c t key data overwrite) :
    Ensures (· = .nospace) (storePair c t key data) fun s =>
      ∃ r, putSearch c s.1 s.2 = .ok r ∧
        (r.2.2 = false → m key = none ∧ Ensures (· = .nospace) (putAt c r.1 r.2.1 false s.2)
          fun res => res.1 = .success ∧ Holds c ord res.2 (Function.update m key (some data))) ∧
        (r.2.2 = true → (m key).isSome = true ∧ Holds c ord r.1 m ∧
          (overwrite = true → Ensures (· = .nospace) (putAt c r.1 r.2.1 true s.2)
            fun res => res.1 = .success ∧
              Holds c ord res.2 (Function.update m key (some data)))) := by
  have hovfl := hs.room
  have hpsize := hs.psize_le
  have hkey32 : key.length < u32Mod := by simp only [indxMod, u32Mod] at *; omega
  refine (storePair_spec hs h.tree.rep hkey32 hdata).with_eq.mono ?_
  rintro ⟨t₁, bl⟩ ⟨hstore, new, fs₁, hp, hlen, hsmall⟩
  dsimp only at hp hlen hsmall ⊢
  obtain ⟨hbig, honpage⟩ := hsmall hkey
  have hblkey : bl.key = key := by
    have := congrArg Prod.fst hp.pair
    simpa [recordPair, hbig] using this
  obtain ⟨r, A, x, B, u, v, heq, rfl, hfinds, hsorted⟩ :=
    h.located hs hnodups hdepth hp hstore hfresh
  refine ⟨r, heq, fun hexact => ?_, fun hexact => ⟨?_, ?_, fun hover => ?_⟩⟩
  · exact h.putNew hs hnodups hord hdepth hm hp hblkey hbig hlen honpage hwell hfinds hsorted hexact
  · have hplaced := hfinds.position.place hord (by omega) hsorted.ordered
    rw [hexact] at hplaced
    obtain ⟨old, w, rfl, -, hkeyold⟩ := hplaced.record hsorted.tree.shape hfinds.position.linp
    have hmem : recordPair (new ++ cs) old ∈ contents cs (A ++ x :: B) := by
      rw [← (h.store hp).2.2.1, contents_split hfinds.position.linp]
      simp
    have hpair : recordPair (new ++ cs) old = (key, full (new ++ cs) old.bigdata old.data) := by
      rw [recordPair, ← hblkey, ← hkeyold]
      rfl
    rw [hpair, ← hm.mem] at hmem
    rw [hmem, Option.isSome_some]
  · exact ⟨new ++ cs, fs₁, _, ups, hsorted, (h.store hp).2.2.1 ▸ hm⟩
  · subst hover
    exact h.putOver hs hnodups hord hdepth hm hp hblkey hbig hlen honpage hwell hfinds hsorted hexact

theorem step_spec {op : Op} (hs : Sound c) (hnodups : c.nodups = true) (hrdonly : c.rdonly = false)
    (hord : Compares c ord) (h : Holds c ord t m) (hsafe : Safe c t op) (hsmall : op.Small c) :
    Ensures (· = .nospace) (step c t op) fun r =>
      r.1 = (mapStep m op).1 ∧ Holds c ord r.2 (mapStep m op).2 := by
  obtain ⟨cs, fs, leaves, ups, hsorted, hm⟩ := h
  cases op with
  | put key data =>
    obtain ⟨hdepth, hfresh, hwell⟩ := hsafe
    have hput := hsorted.put hs hnodups hord hm (hsorted.depth_le hdepth) hsmall.1 hsmall.2 hfresh
      hwell
    rw [step, btPut, if_neg (by simp [hrdonly])]
    refine Ensures.bind (P := fun res => res.1 = .success ∧
      Holds c ord res.2 (Function.update m key (some data))) (hput.bind ?_)
      fun res hres => ⟨Prod.ext hres.1 rfl, hres.2⟩
    rintro ⟨t₁, bl⟩ ⟨⟨t₂, e, exact⟩, heq, hmiss, hhit⟩
    dsimp only at heq hmiss hhit ⊢
    rw [heq, ok_bind, hnodups, Bool.and_true]
    cases exact with
    | false => exact (hmiss rfl).2
    | true => exact (hhit rfl).2.2 rfl
  | putNew key data =>
    obtain ⟨hdepth, hfresh, hwell⟩ := hsafe
    have hput := hsorted.put hs hnodups hord hm (hsorted.depth_le hdepth) hsmall.1 hsmall.2 hfresh
      hwell
    rw [step, btPut, if_neg (by simp [hrdonly])]
    refine Ensures.bind (P := fun res => (res.1, none) = (mapStep m (.putNew key data)).1 ∧
      Holds c ord res.2 (mapStep m (.putNew key data)).2) (hput.bind ?_) fun res hres => ?_
    · rintro ⟨t₁, bl⟩ ⟨⟨t₂, e, exact⟩, heq, hmiss, hhit⟩
      dsimp only at heq hmiss hhit ⊢
      rw [heq, ok_bind]
      cases exact with
      | false =>
        obtain ⟨hnone, hput⟩ := hmiss rfl
        simp only [mapStep, hnone, Option.isSome_none, Bool.false_eq_true, if_false]
        exact hput.mono fun res hres => ⟨by rw [hres.1], hres.2⟩
      | true =>
        obtain ⟨hsome, hholds, -⟩ := hhit rfl
        simp only [mapStep, hsome, if_true]
        exact ⟨rfl, hholds⟩
    · exact hres
  | get key =>
    obtain ⟨t', heq, hsorted'⟩ := hsorted.get hs hnodups hord hm (hsorted.depth_le hsafe)
      (Nat.le_trans (Nat.le_add_right _ _) hsmall)
    rw [step, heq]
    exact ⟨rfl, cs, fs, leaves, ups, hsorted', hm⟩
  | delete key =>
    obtain ⟨t', heq, hholds⟩ := hsorted.remove hs hnodups hord hrdonly hm (hsorted.depth_le hsafe)
      (Nat.le_trans (Nat.le_add_right _ _) hsmall)
    rw [step, heq]
    exact ⟨rfl, hholds⟩

theorem holds_new (hs : Sound c) : Holds c ord (newTree .bleaf) fun _ => none :=
  ⟨[], [], _, [], { tree := tree_new hs
                    filled := fun hne => absurd rfl hne
                    fenced := by simp [Fenced, leafFences, fences, marks, nodeKeys]
                    small := by simp
                    plain := by simp
                    low := trivial
                    cached := fun hne => absurd rfl hne }, represents_nil⟩

/-- Every run of calls on a new tree, each from a state in which it is safe, gives the
replies of a finite map, unless it runs out of pages. -/
theorem run_eq_map (b : Btreeinfo) (blksize maxpages : Nat) (ord : Dbt → Dbt → Int)
    (ops : List Op) (hvalid : b.valid = true) (hdup : b.dup = false) (hmax : maxpages ≤ u32Mod)
    (hspace : indxSize + nbleafdbt 0 0 ≤ pairSpace b blksize)
    (hord : Compares (openConfig b blksize maxpages) ord)
    (hsmall : ∀ op ∈ ops, op.Small (openConfig b blksize maxpages))
    (hsafe : Admitted (step (openConfig b blksize maxpages)) (Safe (openConfig b blksize maxpages))
      (newTree .bleaf) ops) :
    Ensures (· = .nospace) (run (step (openConfig b blksize maxpages)) (newTree .bleaf) ops)
      fun r => r.1 = (specRun mapStep (fun _ => none) ops).1 := by
  have hs := sound_open hvalid hmax hspace
  have hnodups : (openConfig b blksize maxpages).nodups = true := by simp [openConfig, hdup]
  refine (run_simulates (R := Holds (openConfig b blksize maxpages) ord) (fun t m op h hok => ?_)
    (holds_new hs) (hsafe.and hsmall)).mono fun r hr => hr.1
  exact step_spec hs hnodups rfl hord h hok.1 hok.2

/-- Calls with room for every pair on the root page are safe. -/
theorem run_eq_map_small :
    Ensures (· = .nospace)
      (run (step (openConfig ⟨false, 512, 2, none, none⟩ 8192 1000)) (newTree .bleaf)
        [.put [1] [2], .get [1], .delete [1]])
      fun r => r.1 = [(.success, none), (.success, some [2]), (.success, none)] := by
  have hspace : indxSize + nbleafdbt 0 0 ≤ pairSpace ⟨false, 512, 2, none, none⟩ 8192 := by decide
  refine (run_eq_map ⟨false, 512, 2, none, none⟩ 8192 1000 lexCmp [.put [1] [2], .get [1], .delete [1]]
    (by decide) rfl (by decide) hspace (compares_default (by decide) (by decide) hspace rfl rfl) ?_
    ?_).mono fun r hr => hr.trans ?_
  · decide
  · refine ⟨⟨by decide, fun hne => absurd rfl hne, ?_⟩, fun r t' heq => ?_⟩
    · intro r h items bl heq _ hget _ hkey _ hdata hroom
      obtain rfl := Except.ok.inj heq
      obtain rfl := Option.some.inj hget
      have hbytes : (Item.bl bl).nbytes = lalign (4 + 4 + 1 + bl.key.length + bl.data.length) := rfl
      rw [hbytes, hkey, hdata] at hroom
      exact absurd hroom (by decide)
    · obtain ⟨rfl, rfl⟩ := Prod.mk.inj (Except.ok.inj heq)
      refine ⟨(by decide : depth _ _ _ ≤ stackSize), fun r t' heq => ?_⟩
      obtain ⟨rfl, rfl⟩ := Prod.mk.inj (Except.ok.inj heq)
      exact ⟨(by decide : depth _ _ _ ≤ stackSize), fun _ _ _ => trivial⟩
  · decide

/-- Three pages of one pair each: the page of the first one is emptied while `bt_last`
designates it, and the next pair goes to it. -/
def staleOps : List Op :=
  let data : Dbt := List.replicate 200 7
  [.put [2] data, .put [3] data, .put [4] data, .delete [3], .put [1] data, .delete [1],
    .delete [2], .put [0] data, .get [0]]

def replies (res : Except Fault (List Reply × Btree)) : Option (List Reply) :=
  match res with
  | .ok r => some r.1
  | .error _ => none

/-- Without the condition on the calls a pair is lost. -/
theorem run_ne_map :
    ¬ ∀ (b : Btreeinfo) (blksize maxpages : Nat) (ord : Dbt → Dbt → Int) (ops : List Op),
      b.valid = true → b.dup = false → maxpages ≤ u32Mod →
      Compares (openConfig b blksize maxpages) ord →
      (∀ op ∈ ops, op.Small (openConfig b blksize maxpages)) →
      Ensures (· = .nospace) (run (step (openConfig b blksize maxpages)) (newTree .bleaf) ops)
        fun r => r.1 = (specRun mapStep (fun _ => none) ops).1 := by
  intro h
  have hspace : indxSize + nbleafdbt 0 0 ≤ pairSpace ⟨false, 512, 2, none, none⟩ 8192 := by decide
  have hsmall : ∀ op ∈ staleOps, op.Small (openConfig ⟨false, 512, 2, none, none⟩ 8192 1000) := by
    decide +kernel
  have hreplies : (replies (run (step (openConfig ⟨false, 512, 2, none, none⟩ 8192 1000))
      (newTree .bleaf) staleOps)).map List.getLast? = some (some (.special, none)) := by
    decide +kernel
  have hmap : ((specRun mapStep (fun _ => none) staleOps).1).getLast? =
      some (.success, some (List.replicate 200 7)) := by decide +kernel
  generalize staleOps = ops at hsmall hreplies hmap
  have hrun := h ⟨false, 512, 2, none, none⟩ 8192 1000 lexCmp ops (by decide) rfl (by decide)
    (compares_default (by decide) (by decide) hspace rfl rfl) hsmall
  generalize run (step (openConfig ⟨false, 512, 2, none, none⟩ 8192 1000)) (newTree .bleaf)
    ops = res at hrun hreplies
  cases res with
  | error e => simp [replies] at hreplies
  | ok r =>
    have hlast : r.1.getLast? = some (.special, none) := by simpa [replies] using hreplies
    rw [show r.1 = _ from hrun, hmap] at hlast
    simp at hlast

end Btree

end Bsdi.Db
