import Bsdi.Compact.Setup

/-!
# Runs of `compact`

A run goes from file to file, and through the characters of each: a character that has not been
seen counts as `NC` first and is then inserted.
-/

namespace Bsdi.Compact

namespace Tree

/-- A tree of the characters `S`, which have been counted `w` times: the counts are those of what
is below and go down along the places, the links agree in both directions, and the places are
listed by their counts. -/
structure WellFormed (t : Tree) (S : Finset Nat) (w : Nat → Int) : Prop where
  linked : Linked t S
  node_count : ∀ {k c}, k < t.size → t.itemAt k = .node c →
    t.cnt k = t.cnt (2 * c) + t.cnt (2 * c + 1)
  chr_count : ∀ {k ch}, k < t.size → t.itemAt k = .chr ch → t.cnt k = w ch
  falling : Falling t.size t.cnt
  listed : ∃ cls free, Listed t cls free

end Tree

inductive Point
  /-- The tables are ready for `setup`. -/
  | ready
  /-- Between two characters. -/
  | between
  /-- `NC` has been counted for a new character. -/
  | escaped (ch : Nat)
  /-- A new character has been inserted. -/
  | inserted (ch : Nat)

/-- The program, with the characters that are in the tree and how often each has been counted. -/
structure State where
  point : Point
  tree : Tree
  symbols : Finset Nat
  counts : Nat → Int

namespace State

def bump (w : Nat → Int) (ch : Nat) : Nat → Int := Function.update w ch (w ch + 1)

/-- The next call, where `ch` is the next character of the input. -/
def call (s : State) (ch : Nat) : Option State :=
  match s.point with
  | .ready => (plant s.tree ch).map fun t => ⟨.between, t, {ch, nc, ef}, fun _ => 1⟩
  | .between =>
    if (s.tree.inp ch).flags &&& seen = 0 then
      (uptree s.tree nc).map fun t => ⟨.escaped ch, t, s.symbols, bump s.counts nc⟩
    else (uptree s.tree ch).map fun t => ⟨.between, t, s.symbols, bump s.counts ch⟩
  | .escaped ch =>
    (insert s.tree ch).map fun t =>
      ⟨.inserted ch, t, Insert.insert ch s.symbols, Function.update s.counts ch 0⟩
  | .inserted ch => (uptree s.tree ch).map fun t => ⟨.between, t, s.symbols, bump s.counts ch⟩

/-- The first lines of `compact`, when a file is done or has been refused. -/
def nextFile (s : State) : Option State :=
  match s.point with
  | .ready | .between => (reset s.tree).map fun t => ⟨.ready, t, ∅, fun _ => 0⟩
  | _ => none

def start : State := ⟨.ready, tables, ∅, fun _ => 0⟩

def Step (s s' : State) : Prop := (∃ ch < 256, s.call ch = some s') ∨ s.nextFile = some s'

/-- `FBIT` is set for `EF` before `setup`, and no count is at its maximum where one is raised. -/
def Fit (s : State) : Prop :=
  match s.point with
  | .ready => (s.tree.inp ef).flags % 2 = 1
  | .escaped _ => True
  | _ => s.tree.cnt 0 < 2 ^ 31 - 1

def FitStep (s s' : State) : Prop :=
  (s.Fit ∧ ∃ ch < 256, s.call ch = some s') ∨ s.nextFile = some s'

def Good (s : State) : Prop :=
  match s.point with
  | .ready => True
  | _ => s.tree.WellFormed s.symbols s.counts

end State

open Bsdi.Compact.Tree

variable {t : Tree} {S : Finset Nat} {w : Nat → Int} {s s' : State}

theorem Tree.Kept.wellFormed (h : Kept t S w none) : WellFormed t S w := by
  have hsum : ∀ {k}, k < t.size → t.cnt k = t.weight w (t.itemAt k) := by
    intro k hk
    have := h.weighed.sum hk
    rwa [if_neg (Option.some_ne_none k), Int.add_zero] at this
  refine ⟨h.linked, fun hk hitem => ?_, fun hk hitem => ?_, h.weighed.falling, h.listed⟩
  · rw [hsum hk, hitem, weight]
  · rw [hsum hk, hitem, weight]

theorem Tree.Kept.wellFormed_inserted {k ch : Nat} (h : Kept t S (State.bump w ch) (some k))
    (hk : k < t.size) (hitem : t.itemAt k = .chr ch) : WellFormed t S w := by
  refine ⟨h.linked, fun {i c} hi hnode => ?_, fun {i x} hi hchr => ?_, h.weighed.falling, h.listed⟩
  · have hik : i ≠ k := fun heq => by simp [heq, hitem] at hnode
    have := h.weighed.sum hi
    rwa [if_neg (fun heq => hik (Option.some.inj heq)), Int.add_zero, hnode, weight] at this
  · have hsum := h.weighed.sum hi
    rw [hchr, weight, State.bump] at hsum
    rcases eq_or_ne i k with rfl | hik
    · obtain rfl := Item.chr.inj (hitem.symm.trans hchr)
      rw [if_pos rfl, Function.update_self] at hsum
      omega
    · have hx : x ≠ ch := fun heq =>
        hik (h.linked.item_inj hi hk (by rw [hchr, hitem, heq]))
      rwa [if_neg (fun heq => hik (Option.some.inj heq)), Int.add_zero,
        Function.update_of_ne hx] at hsum

/-- The characters fill the tree. -/
structure Tree.Full (t : Tree) (S : Finset Nat) : Prop where
  card : S.card = t.bottom + 2
  subset : S ⊆ Finset.range nf
  escape : nc ∈ S
  pos : 1 ≤ t.bottom
  marked : Marked t S

theorem Tree.Full.bottom_lt (h : Full t S) : t.bottom < nf := by
  have hcard := Finset.card_le_card h.subset
  rw [Finset.card_range, h.card] at hcard
  omega

def State.Sound (s : State) : Prop :=
  match s.point with
  | .ready => Ready s.tree
  | .between => Kept s.tree s.symbols s.counts none ∧ Full s.tree s.symbols ∧ Ends s.tree
  | .escaped ch => Kept s.tree s.symbols s.counts none ∧ Full s.tree s.symbols ∧
      ch ∉ s.symbols ∧ ch < 256
  | .inserted ch => Full s.tree s.symbols ∧ ∃ k < s.tree.size, s.tree.itemAt k = .chr ch ∧
      Kept s.tree s.symbols (State.bump s.counts ch) (some k)

theorem State.Sound.good (h : s.Sound) : s.Good := by
  obtain ⟨point, t, S, w⟩ := s
  cases point with
  | ready => trivial
  | between => exact h.1.wellFormed
  | escaped ch => exact h.1.wellFormed
  | inserted ch =>
    obtain ⟨-, k, hk, hitem, hkept⟩ := h
    exact hkept.wellFormed_inserted hk hitem

theorem count_step {ch : Nat} (h : Kept t S w none) (hfull : Full t S) (hch : ch ∈ S)
    (hbound : t.cnt 0 < 2 ^ 31 - 1) :
    (∃ t', uptree t ch = some t' ∧ Kept t' S (State.bump w ch) none ∧ Full t' S ∧ Ends t') ∨
      256 ≤ t.bottom ∧ uptree t ch = none := by
  obtain ⟨k, hk, hitem⟩ := h.linked.chr hch
  rcases (h.count hk hitem).uptree hk hitem hbound hfull.bottom_lt with
    ⟨t', heq, hkept, hends, hbottom⟩ | hnone
  · exact .inl ⟨t', heq, hkept, ⟨hbottom ▸ hfull.card, hfull.subset, hfull.escape,
      hbottom ▸ hfull.pos, (sameSeen_uptree heq).marked hfull.marked⟩, hends⟩
  · exact .inr hnone

theorem lt_nf {ch : Nat} (hch : ch < 256) : ch < nf := hch.trans (by decide)

theorem call_sound {ch : Nat} (h : s.Sound) (hfit : s.Fit) (hch : ch < 256) :
    (∃ s', s.call ch = some s' ∧ s'.Sound) ∨
      s.call ch = none ∧ s.point ≠ .ready ∧ 256 ≤ s.tree.bottom := by
  obtain ⟨point, t, S, w⟩ := s
  cases point with
  | ready =>
    obtain ⟨t', heq, hbottom, hends, hmarked, hkept⟩ := Ready.plant h hch
    have hne : ch ≠ nc ∧ ch ≠ ef := by
      rw [nc, ef]
      omega
    have hfull : Full t' {ch, nc, ef} := by
      refine ⟨?_, ?_, by simp, by omega, hmarked⟩
      · rw [hbottom, Finset.card_insert_of_notMem (by simp [hne.1, hne.2]),
          Finset.card_pair (by decide)]
      · intro x hx
        simp only [Finset.mem_insert, Finset.mem_singleton] at hx
        rw [Finset.mem_range]
        rcases hx with rfl | rfl | rfl
        · exact lt_nf hch
        · decide
        · decide
    refine .inl ⟨⟨.between, t', {ch, nc, ef}, fun _ => 1⟩, ?_, hkept hfit, hfull, hends⟩
    simp only [State.call, heq, Option.map_some]
  | between =>
    obtain ⟨hkept, hfull, -⟩ := h
    by_cases hseen : (t.inp ch).flags &&& seen = 0
    · have hnot : ch ∉ S := fun hin => (hfull.marked ch hch).mpr hin hseen
      rcases count_step hkept hfull hfull.escape hfit with ⟨t', heq, hkept', hfull', -⟩ | ⟨hb, heq⟩
      · refine .inl ⟨⟨.escaped ch, t', S, State.bump w nc⟩, ?_, hkept', hfull', hnot, hch⟩
        simp only [State.call, if_pos hseen, heq, Option.map_some]
      · refine .inr ⟨?_, by simp, hb⟩
        simp only [State.call, if_pos hseen, heq, Option.map_none]
    · have hin : ch ∈ S := (hfull.marked ch hch).mp hseen
      rcases count_step hkept hfull hin hfit with ⟨t', heq, hkept', hfull', hends⟩ | ⟨hb, heq⟩
      · refine .inl ⟨⟨.between, t', S, State.bump w ch⟩, ?_, hkept', hfull', hends⟩
        simp only [State.call, if_neg hseen, heq, Option.map_some]
      · refine .inr ⟨?_, by simp, hb⟩
        simp only [State.call, if_neg hseen, heq, Option.map_none]
  | escaped x =>
    obtain ⟨hkept, hfull, hnot, hx⟩ := h
    rcases hkept.insert hfull.marked hnot with
      ⟨t', heq, hbottom, hitem, hmarked, hkept'⟩ | ⟨hb, heq⟩
    · replace hbottom : t'.bottom = t.bottom + 1 := hbottom
      have hfull' : Full t' (Insert.insert x S) := by
        refine ⟨?_, ?_, Finset.mem_insert_of_mem hfull.escape, by omega, hmarked⟩
        · rw [Finset.card_insert_of_notMem hnot, hfull.card, hbottom]
        · exact Finset.insert_subset (Finset.mem_range.mpr (lt_nf hx)) hfull.subset
      have hsize : t'.size = t.size + 2 := by
        rw [size, size, hbottom]
        omega
      have hbump : State.bump (Function.update w x 0) x = Function.update w x 1 := by
        rw [State.bump, Function.update_idem, Function.update_self, Int.zero_add]
      refine .inl ⟨⟨.inserted x, t', Insert.insert x S, Function.update w x 0⟩, ?_, hfull',
        t.size + 1, by change _ < t'.size; omega, hitem, hbump ▸ hkept'⟩
      simp only [State.call, heq, Option.map_some]
    · refine .inr ⟨?_, by simp, hb⟩
      simp only [State.call, heq, Option.map_none]
  | inserted x =>
    obtain ⟨hfull, k, hk, hitem, hkept⟩ := h
    rcases hkept.uptree hk hitem hfit hfull.bottom_lt with
      ⟨t', heq, hkept', hends, hbottom⟩ | ⟨hb, heq⟩
    · refine .inl ⟨⟨.between, t', S, State.bump w x⟩, ?_, hkept', ⟨hbottom ▸ hfull.card,
        hfull.subset, hfull.escape, hbottom ▸ hfull.pos,
        (sameSeen_uptree heq).marked hfull.marked⟩, hends⟩
      simp only [State.call, heq, Option.map_some]
    · refine .inr ⟨?_, by simp, hb⟩
      simp only [State.call, heq, Option.map_none]

theorem nextFile_sound (h : s.Sound) (hnext : s.nextFile = some s') : s'.Sound := by
  obtain ⟨point, t, S, w⟩ := s
  cases point with
  | ready =>
    obtain ⟨t', heq, hready, -⟩ := Ready.reset h
    obtain ⟨t'', heq', rfl⟩ := Option.map_eq_some_iff.1 hnext
    obtain rfl := Option.some.inj (heq.symm.trans heq')
    exact hready
  | between =>
    obtain ⟨hkept, hfull, hends⟩ := h
    obtain ⟨t', heq, hready, -⟩ := hkept.reset hends hfull.pos
    obtain ⟨t'', heq', rfl⟩ := Option.map_eq_some_iff.1 hnext
    obtain rfl := Option.some.inj (heq.symm.trans heq')
    exact hready
  | escaped x => exact absurd hnext (by simp [State.nextFile])
  | inserted x => exact absurd hnext (by simp [State.nextFile])

theorem sound_of_run (h : Relation.ReflTransGen State.FitStep State.start s) : s.Sound := by
  induction h with
  | refl => exact ready_tables
  | tail _ hstep ih =>
    rcases hstep with ⟨hfit, ch, hch, hcall⟩ | hnext
    · rcases call_sound ih hfit hch with ⟨s', heq, hsound⟩ | ⟨hnone, -⟩
      · exact Option.some.inj (heq.symm.trans hcall) ▸ hsound
      · exact absurd (hnone.symm.trans hcall) (by simp)
    · exact nextFile_sound ih hnext

/-- In a run through files whose steps are all fit, every tree is well formed, and a call fails
only when all cells are in use. -/
theorem wellFormed_of_run (h : Relation.ReflTransGen State.FitStep State.start s) :
    s.Good ∧ (s.Fit → ∀ ch < 256, s.call ch = none → s.point ≠ .ready ∧ 256 ≤ s.tree.bottom) := by
  have hsound := sound_of_run h
  refine ⟨hsound.good, fun hfit ch hch hnone => ?_⟩
  rcases call_sound hsound hfit hch with ⟨s', heq, -⟩ | ⟨-, hpoint, hb⟩
  · exact absurd (heq.symm.trans hnone) (by simp)
  · exact ⟨hpoint, hb⟩

theorem good_after_setup : ∃ s, State.start.call 97 = some s ∧ s.Good := by
  have hfit : State.start.Fit := by
    change (tables.inp ef).flags % 2 = 1
    decide
  obtain ⟨s, hs⟩ : ∃ s, State.start.call 97 = some s :=
    Option.isSome_iff_exists.mp (by decide +kernel)
  exact ⟨s, hs, (wellFormed_of_run (.single (.inl ⟨hfit, 97, by decide, hs⟩))).1⟩

/-- The files `l`, with `none` between two of them. -/
def State.run : List (Option Nat) → State → Option State
  | [], s => some s
  | some ch :: l, s => (s.call ch).bind (State.run l)
  | none :: l, s => s.nextFile.bind (State.run l)

theorem run_steps {l : List (Option Nat)} (hl : ∀ o ∈ l, o.all (· < 256) = true)
    (h : State.run l s = some s') : Relation.ReflTransGen State.Step s s' := by
  induction l generalizing s with
  | nil =>
    obtain rfl := Option.some.inj h
    exact .refl
  | cons o l ih =>
    have hl' : ∀ o ∈ l, o.all (· < 256) = true := fun o ho => hl o (List.mem_cons_of_mem _ ho)
    cases o with
    | none =>
      obtain ⟨s₁, hnext, h⟩ := Option.bind_eq_some_iff.1 h
      exact .head (.inr hnext) (ih hl' h)
    | some ch =>
      obtain ⟨s₁, hcall, h⟩ := Option.bind_eq_some_iff.1 h
      exact .head (.inl ⟨ch, of_decide_eq_true (hl (some ch) List.mem_cons_self), hcall⟩)
        (ih hl' h)

/-- The file `ab`, and the first character of the next one. The three calls for `b` have no use
for the characters after the first. -/
def twoFiles : List (Option Nat) := [some 97, some 97, some 98, some 98, some 98, none, some 97]

/-- After the file `ab` the flags of `EF` do not have `FBIT`, and `setup` leaves them so. -/
theorem exists_not_wellFormed :
    ¬ ∀ s, Relation.ReflTransGen State.Step State.start s → s.Good := by
  intro h
  have hrun : (State.run twoFiles State.start).map (fun s => (s.point matches .between,
      s.tree.bottom, s.tree.itemAt 3, s.tree.upOf (s.tree.itemAt 3))) =
        some (true, 1, .chr ef, some 1, 0) := by
    decide +kernel
  obtain ⟨s, hs, heq⟩ := Option.map_eq_some_iff.1 hrun
  have hgood := h s (run_steps (by decide) hs)
  obtain ⟨point, t, S, w⟩ := s
  simp only [Prod.mk.injEq] at heq
  obtain ⟨hpoint, hbottom, hitem, hup⟩ := heq
  cases point with
  | between =>
    have hlink := hgood.linked.up (k := 3) (by rw [size, hbottom]; decide)
    have hodd := congrArg Prod.snd (hlink.symm.trans hup)
    exact absurd hodd (by decide)
  | ready => exact absurd hpoint (by simp)
  | escaped ch => exact absurd hpoint (by simp)
  | inserted ch => exact absurd hpoint (by simp)

end Bsdi.Compact
