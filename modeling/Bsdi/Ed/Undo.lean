import Bsdi.Ed.Subst

/-!
# Undo

In every run of commands and undos: undo brings back the lines there were before the last command, a
second one those behind it, and no line of either is freed.
-/

namespace Bsdi.Ed

open Bsdi.Lib

/-- A command that changes the buffer, with its addresses and what it read. -/
inductive Command
  | a (start : Option Line) (hs : List Nat)
  | i (line : Line) (hs : List Nat)
  | c (start fini : Line) (hs : List Nat)
  | d (start fini : Line)
  | j (start fini : Line) (h : Nat)
  | m (start fini : Line) (dest : Option Line)
  | t (add : Nat → Nat) (start fini : Line) (dest : Option Line)
  | s (subst : Line → Option (List Nat)) (start fini : Line)

namespace Command

def run : Command → Editor → Option Editor
  | a start hs, e => some (e.a start hs)
  | i line hs, e => some (e.i line hs)
  | c start fini hs, e => e.c start fini hs
  | d start fini, e => e.d start fini
  | j start fini h, e => e.j start fini h
  | m start fini dest, e => e.m start fini dest
  | t add start fini dest, e => e.t add start fini dest
  | s subst start fini, e => e.s subst start fini

def Spans (B P R S : List Line) (start fini : Line) : Prop :=
  B = P ++ R ++ S ∧ first R = some start ∧ last R = some fini

/-- The addresses are in the buffer. Lines are not moved into their range nor behind the line before it,
and there is something to substitute. -/
def Valid (B : List Line) : Command → Prop
  | a start _ => ∀ l, start = some l → l ∈ B
  | i line _ => line ∈ B
  | c start fini _ => ∃ P R S, Spans B P R S start fini
  | d start fini => ∃ P R S, Spans B P R S start fini
  | j start fini _ => ∃ P R S, Spans B P R S start fini
  | m start fini dest => ∃ P R S, Spans B P R S start fini ∧
    ∀ l, dest = some l → l ∈ B ∧ l ∉ R ∧ last P ≠ some l
  | t _ start fini dest => ∃ P R S, Spans B P R S start fini ∧ ∀ l, dest = some l → l ∈ B
  | s subst start fini => ∃ P R S, Spans B P R S start fini ∧
    (∀ l hs, subst l = some hs → hs ≠ []) ∧
    ∃ l ∈ R, (subst l).isSome

end Command

variable {e e' : Editor} {B B' : List Line}

theorem Command.Valid.ran {cmd : Command} (hv : cmd.Valid B) (hbuf : e.Buf B) :
    ∃ e' B', cmd.run e = some e' ∧ Ran B B' e.uClrStk e' := by
  cases cmd with
  | a start hs =>
    obtain ⟨B', hran⟩ := hbuf.a hv hs
    exact ⟨_, B', rfl, hran⟩
  | i line hs =>
    obtain ⟨B', hran⟩ := hbuf.i hv hs
    exact ⟨_, B', rfl, hran⟩
  | c start fini hs =>
    obtain ⟨P, R, S, rfl, hs', hf⟩ := hv
    exact hbuf.c hs' hf hs
  | d start fini =>
    obtain ⟨P, R, S, rfl, hs, hf⟩ := hv
    obtain ⟨e', hrun, hran⟩ := hbuf.d hs hf
    exact ⟨e', _, hrun, hran⟩
  | j start fini h =>
    obtain ⟨P, R, S, rfl, hs, hf⟩ := hv
    exact hbuf.j hs hf h
  | m start fini dest =>
    obtain ⟨P, R, S, ⟨rfl, hs, hf⟩, hdest⟩ := hv
    apply hbuf.m hs hf
    · intro l hl
      obtain ⟨hlB, hlR, -⟩ := hdest l hl
      simp only [List.mem_append] at hlB ⊢
      tauto
    · exact fun l hl => (hdest l hl).2.2
  | t add start fini dest =>
    obtain ⟨P, R, S, ⟨rfl, hs, hf⟩, hdest⟩ := hv
    exact hbuf.t hs hf hdest add
  | s subst start fini =>
    obtain ⟨P, R, S, ⟨rfl, hs, hf⟩, hsub, -⟩ := hv
    exact hbuf.s hs hf hsub

theorem undo_mem : e.undo.mem = unwind e.mem e.uStk := rewind_fst

theorem undo_undo (e : Editor) : e.undo.undo = e := by
  have h := rewind_rewind e.mem e.uStk [] []
  rw [List.append_nil, rewind] at h
  simp only [Editor.undo]
  rw [h]

/-- The buffer with all its lines and the current line are as they were. -/
structure Restored (e e' : Editor) : Prop where
  top : e'.top = e.top
  bottom : e'.bottom = e.bottom
  current : e'.current = e.current
  links : ∀ l < e.fresh, e'.mem (.above l) = e.mem (.above l) ∧ e'.mem (.below l) = e.mem (.below l)
  marks : ∀ i, e'.mem (.mark i) = e.mem (.mark i)
  handle : ∀ l < e.fresh, e'.handle l = e.handle l

/-- What holds of a state and of the one that undo leads to: the buffer, and that no line of it is freed
or is going to be. -/
structure Settled (e : Editor) (B : List Line) : Prop where
  buf : e.Buf B
  deleted : ∀ r ∈ e.dStk, ∃ R, Range e.mem R r.1 r.2 ∧ ∀ l ∈ R, l < e.fresh ∧ l ∉ B
  freed : ∀ l ∈ e.freed, l < e.fresh ∧ l ∉ B

theorem Settled.uClrStk (h : Settled e B) : Settled e.uClrStk B := by
  refine ⟨h.buf.uClrStk, ?_, ?_⟩
  · unfold Editor.uClrStk
    simp only
    split
    · exact fun r hr => absurd hr (by simp [Editor.dDo])
    · exact h.deleted
  · unfold Editor.uClrStk
    simp only
    split
    · intro l hl
      rcases List.mem_append.1 hl with hl | hl
      · obtain ⟨r, hr, hl⟩ := List.mem_flatMap.1 hl
        obtain ⟨R, hR, hlt⟩ := h.deleted r hr
        rw [hR.walk_eq (length_le_of_lt hR.nodup fun l hl => (hlt l hl).1)] at hl
        exact hlt l hl
      · exact h.freed l hl
    · exact h.freed

theorem Ran.settled (hran : Ran B B' e e') (h : Settled e B) : Settled e' B' := by
  have hB' : ∀ l, l < e.fresh → l ∉ B → l < e'.fresh ∧ l ∉ B' := by
    intro l hl hB
    refine ⟨Nat.lt_of_lt_of_le hl hran.kept.fresh, ?_⟩
    intro hc
    rcases hran.lines l hc with hc | hc
    · exact hB hc
    · exact Nat.not_lt.2 hc hl
  have hold : ∀ r ∈ e.dStk, ∃ R, Range e'.mem R r.1 r.2 ∧ ∀ l ∈ R, l < e'.fresh ∧ l ∉ B' := by
    intro r hr
    obtain ⟨R, hR, hlt⟩ := h.deleted r hr
    exact ⟨R, hR.congr fun l hl => hran.kept.frame l (hlt l hl).1 (hlt l hl).2,
      fun l hl => hB' l (hlt l hl).1 (hlt l hl).2⟩
  refine ⟨hran.buf, ?_, ?_⟩
  · intro r hr
    rcases hran.deleted with hds | ⟨R, start, fini, hds, hR, hRB⟩
    · exact hold r (hds ▸ hr)
    · rw [hds] at hr
      rcases List.mem_cons.1 hr with rfl | hr
      · exact ⟨R, hR, fun l hl =>
          ⟨Nat.lt_of_lt_of_le (h.buf.lines l (hRB l hl).1) hran.kept.fresh, (hRB l hl).2⟩⟩
      · exact hold r hr
  · intro l hl
    rw [hran.kept.freed] at hl
    exact hB' l (h.freed l hl).1 (h.freed l hl).2

theorem Ran.restored (hran : Ran B B' e.uClrStk e') : Restored e e'.undo := by
  have hmem : ∀ c : Cell, c.Old e.fresh → e'.undo.mem c = e.mem c := by
    intro c hc
    have hlogs := hran.kept.logs c (by simpa using hc)
    obtain ⟨_, _, heq⟩ := uClrStk_eq e
    rw [heq] at hlogs
    rw [undo_mem, hlogs]
    rfl
  obtain ⟨_, _, heq⟩ := uClrStk_eq e
  have hk := hran.kept
  rw [heq] at hk
  exact ⟨hk.uTop, hk.uBottom, hk.uCurrent, fun l hl => ⟨hmem (.above l) hl, hmem (.below l) hl⟩,
    fun i => hmem (.mark i) trivial, hk.handle⟩

theorem Ran.settled_undo (hran : Ran B B' e.uClrStk e') (h : Settled e B) : Settled e'.undo B := by
  have hr := hran.restored
  have hfr := hran.kept.fresh
  have hclr := h.uClrStk
  rw [uClrStk_fresh] at hfr
  refine ⟨⟨h.buf.nodup, ?_, ?_, ?_, ?_⟩, ?_, ?_⟩
  · exact h.buf.links.congr fun l hl => hr.links l (h.buf.lines l hl)
  · rw [hr.top, h.buf.top]
  · rw [hr.bottom, h.buf.bottom]
  · exact fun l hl => Nat.lt_of_lt_of_le (h.buf.lines l hl) hfr
  · intro r hr
    have hold : e'.oldDStk = [] := by
      rw [hran.kept.oldDStk]
      obtain ⟨_, _, heq⟩ := uClrStk_eq e
      rw [heq]
    rw [show e'.undo.dStk = e'.oldDStk from rfl, hold] at hr
    simp at hr
  · intro l hl
    rw [show e'.undo.freed = e'.freed from rfl, hran.kept.freed] at hl
    have hl' := hclr.freed l hl
    rw [uClrStk_fresh] at hl'
    exact ⟨Nat.lt_of_lt_of_le hl'.1 hfr, hl'.2⟩

/-- The states of an editor. It starts with any buffer and nothing to undo; between the commands and the
undos the current line and the marks may be set. -/
inductive Reachable : Editor → Prop
  | start {e : Editor} {B : List Line} (hbuf : e.Buf B) (hstk : e.uStk = []) (htop : e.uTop = e.top)
      (hbottom : e.uBottom = e.bottom) (hdel : e.dStk = []) (hold : e.oldDStk = [])
        (hfreed : e.freed = []) :
      Reachable e
  | command {e e' : Editor} {B : List Line} (cmd : Command) (h : Reachable e) (hbuf : e.Buf B)
      (hv : cmd.Valid B) (hrun : cmd.run e = some e') : Reachable e'
  | undo {e : Editor} (h : Reachable e) : Reachable e.undo
  | current {e : Editor} (h : Reachable e) (l : Option Line) : Reachable { e with current := l }
  | mark {e : Editor} (h : Reachable e) (i : Fin 26) (l : Option Line) :
      Reachable (e.put (.mark i) l)

theorem Editor.Buf.unique (h : e.Buf B) (h' : e.Buf B') : B = B' :=
  h.links.unique h'.links (h.top.symm.trans h'.top)

theorem Settled.same (h : Settled e B) (hlinks : SameLinks e.mem e'.mem) (ht : e'.top = e.top)
    (hb : e'.bottom = e.bottom) (hd : e'.dStk = e.dStk) (hfr : e'.fresh = e.fresh)
    (hf : e'.freed = e.freed) : Settled e' B := by
  refine ⟨⟨h.buf.nodup, h.buf.links.same hlinks, ht.trans h.buf.top, hb.trans h.buf.bottom, ?_⟩, ?_,
    ?_⟩
  · rw [hfr]
    exact h.buf.lines
  · rw [hd, hfr]
    intro r hr
    obtain ⟨R, hR, hlt⟩ := h.deleted r hr
    exact ⟨R, hR.congr fun l _ => (hlinks l).2, hlt⟩
  · rw [hf, hfr]
    exact h.freed

theorem Reachable.settled (h : Reachable e) : (∃ B, Settled e B) ∧ ∃ B, Settled e.undo B := by
  induction h with
  | @start e B hbuf hstk htop hbottom hdel hold hfreed =>
    have hs : Settled e B := ⟨hbuf, by simp [hdel], by simp [hfreed]⟩
    refine ⟨⟨B, hs⟩, B, hs.same ?_ htop hbottom ?_ rfl rfl⟩
    · rw [undo_mem, hstk]
      exact .refl _
    · exact hold.trans hdel.symm
  | @command e e' B cmd _ hbuf hv hrun ih =>
    obtain ⟨⟨B₁, hs⟩, -⟩ := ih
    obtain rfl := hbuf.unique hs.buf
    obtain ⟨e₁, B', hrun₁, hran⟩ := hv.ran hbuf
    obtain rfl : e' = e₁ := by simpa [hrun] using hrun₁
    exact ⟨⟨B', hran.settled hs.uClrStk⟩, B, hran.settled_undo hs⟩
  | @undo e _ ih =>
    rw [undo_undo]
    exact ih.symm
  | @current e _ l ih =>
    obtain ⟨⟨B, hs⟩, B', hs'⟩ := ih
    exact ⟨⟨B, hs.same (.refl _) rfl rfl rfl rfl rfl⟩, B', hs'.same (.refl _) rfl rfl rfl rfl rfl⟩
  | @mark e _ i l ih =>
    obtain ⟨⟨B, hs⟩, B', hs'⟩ := ih
    refine ⟨⟨B, hs.same ?_ rfl rfl rfl rfl rfl⟩, B', hs'.same ?_ rfl rfl rfl rfl rfl⟩
    · intro k
      simp [Editor.put]
    · rw [undo_mem, undo_mem]
      intro k
      exact ⟨unwind_update_of_ne (by simp), unwind_update_of_ne (by simp)⟩

/-- In every state: no line that was freed is in the buffer or in the one that undo leads to, undo can be
undone, and behind every command undo restores the buffer and the current line. -/
theorem undo_exact (h : Reachable e) :
    ∃ B, e.Buf B ∧ (∃ Bu, e.undo.Buf Bu ∧ ∀ l ∈ e.freed, l ∉ B ∧ l ∉ Bu) ∧ e.undo.undo = e ∧
      ∀ cmd : Command, cmd.Valid B → ∃ e', cmd.run e = some e' ∧ Reachable e' ∧ Restored e e'.undo ∧
      e'.undo.Buf B ∧ e'.undo.undo = e' := by
  obtain ⟨⟨B, hs⟩, Bu, hu⟩ := h.settled
  refine ⟨B, hs.buf, ⟨Bu, hu.buf, fun l hl => ⟨(hs.freed l hl).2, (hu.freed l hl).2⟩⟩, undo_undo e,
    ?_⟩
  intro cmd hv
  obtain ⟨e', B', hrun, hran⟩ := hv.ran hs.buf
  exact ⟨e', hrun, .command cmd h hs.buf hv hrun, hran.restored, (hran.settled_undo hs).buf,
    undo_undo e'⟩

theorem undo_exact_delete :
    ∃ e', (Editor.empty.a none [7, 8]).d 0 0 = some e' ∧ e'.top = some 1 ∧ e'.undo.top = some 0 ∧
      Restored (Editor.empty.a none [7, 8]) e'.undo ∧ e'.undo.undo = e' := by
  have hstart : Reachable .empty := .start .empty rfl rfl rfl rfl rfl rfl
  have hbuf : (Editor.empty.a none [7, 8]).Buf [0, 1] :=
    ⟨by decide, ⟨⟨rfl, rfl⟩, ⟨rfl, rfl⟩, trivial⟩, rfl, rfl, by decide⟩
  have hreach : Reachable (Editor.empty.a none [7, 8]) :=
    .command (.a none [7, 8]) hstart .empty (by simp [Command.Valid]) rfl
  obtain ⟨B, hB, -, -, hcmd⟩ := undo_exact hreach
  obtain rfl := hbuf.unique hB
  obtain ⟨e', hrun, -, hr, -, hu⟩ := hcmd (.d 0 0) ⟨[], [0], [1], rfl, rfl, rfl⟩
  have htop : ((Editor.empty.a none [7, 8]).d 0 0).map (·.top) = some (some 1) := rfl
  rw [show (Editor.empty.a none [7, 8]).d 0 0 = some e' from hrun] at htop
  exact ⟨e', hrun, by simpa using htop, hr.top, hr, hu⟩

end Bsdi.Ed
