import Bsdi.Gen.Setmode
import Mathlib.Data.BitVec

/-!
# Compressing the commands

`compress_mode` replaces each run of `+`, `-` and `X` commands by at most three, in place. A run
  acts
on a mode like its merged bits: some are cleared, then some are set, then some are set if `X` holds.
`u`, `g` and `o` read the mode and end a run.
-/

namespace Bsdi.Setmode

variable {omode m : Mode} {g g' : Merged} {b : Bitcmd} {l mem mem' : List Bitcmd} {n set nset : Nat}

def Merged.apply (g : Merged) (omode m : Mode) : Mode :=
  (m &&& ~~~g.clrbits) ||| g.setbits ||| (if XApplies omode then g.xbits else 0#16)

theorem merges_iff {op : Char} : merges op = true ↔ op = '+' ∨ op = '-' ∨ op = 'X' := by
  simp [merges, or_assoc]

theorem command_set (h : b.cmd = '+') : command omode b m = some (m ||| b.bits) := by
  simp [command, h]

theorem command_clear (h : b.cmd = '-') : command omode b m = some (m &&& ~~~b.bits) := by
  simp [command, h]

theorem command_X (h : b.cmd = 'X') :
    command omode b m = some (m ||| if XApplies omode then b.bits else 0#16) := by
  by_cases hx : XApplies omode <;> simp [command, h, hx]

theorem Merged.add_apply (h : merges b.cmd = true) :
    command omode b (g.apply omode m) = some ((g.add b).apply omode m) := by
  rcases merges_iff.mp h with h | h | h
  · simp only [command_set h, Merged.add, h, Char.reduceEq, if_false, if_true]
    refine congrArg some (BitVec.eq_of_getLsbD_eq fun i hi => ?_)
    by_cases hx : XApplies omode <;> simp only [Merged.apply, hx, if_true, if_false] <;>
      simp [hi] <;> grind
  · simp only [command_clear h, Merged.add, h, if_true]
    refine congrArg some (BitVec.eq_of_getLsbD_eq fun i hi => ?_)
    by_cases hx : XApplies omode <;> simp only [Merged.apply, hx, if_true, if_false] <;>
      simp [hi] <;> grind
  · simp only [command_X h, Merged.add, h, Char.reduceEq, if_false]
    refine congrArg some (BitVec.eq_of_getLsbD_eq fun i hi => ?_)
    by_cases hx : XApplies omode <;> simp only [Merged.apply, hx, if_true, if_false] <;>
      simp [hi] <;> grind

theorem getmodeLoop_entry (cmd : Char) {bits r : Mode}
    (h : command omode ⟨cmd, ⟨false, false, false, false, false⟩, bits⟩ m = some r)
    (h0 : bits = 0#16 → r = m) :
    getmodeLoop omode (entry cmd bits ++ l) m = getmodeLoop omode l r := by
  unfold entry
  split
  · next hbits => rw [List.nil_append, h0 hbits]
  · rw [List.singleton_append, getmodeLoop, h]

theorem getmodeLoop_commands :
    getmodeLoop omode (g.commands ++ l) m = getmodeLoop omode l (g.apply omode m) := by
  have hclear : g.clrbits = 0#16 → m &&& ~~~g.clrbits = m := by
    intro h
    rw [h]
    exact BitVec.and_allOnes
  simp only [Merged.commands, List.append_assoc]
  rw [getmodeLoop_entry '-' (command_clear (b := ⟨'-', _, _⟩) rfl) hclear,
    getmodeLoop_entry '+' (command_set (b := ⟨'+', _, _⟩) rfl)
      (fun h => by rw [h, BitVec.or_zero]),
    getmodeLoop_entry 'X' (command_X (b := ⟨'X', _, _⟩) rfl)
      (fun h => by rw [h, ite_self, BitVec.or_zero])]
  rfl

theorem length_entry_le (cmd : Char) (bits : Mode) : (entry cmd bits).length ≤ 1 := by
  unfold entry
  split <;> simp

theorem length_entry_clear (cmd : Char) (bits bits' : Mode) :
    (entry cmd (bits &&& ~~~bits')).length ≤ (entry cmd bits).length := by
  unfold entry
  by_cases h : bits = 0#16
  · simp [h]
  · rw [if_neg h]
    split <;> simp

theorem Merged.length_add : (g.add b).commands.length ≤ g.commands.length + 1 := by
  simp only [Merged.commands, Merged.add, List.length_append]
  split
  · have h1 := length_entry_clear '+' g.setbits b.bits
    have h2 := length_entry_clear 'X' g.xbits b.bits
    have h3 := length_entry_le '-' (g.clrbits ||| b.bits)
    dsimp only
    omega
  · split
    · have h1 := length_entry_clear '-' g.clrbits b.bits
      have h2 := length_entry_clear 'X' g.xbits b.bits
      have h3 := length_entry_le '+' (g.setbits ||| b.bits)
      dsimp only
      omega
    · have h3 := length_entry_le 'X' (g.xbits ||| b.bits &&& ~~~g.setbits)
      dsimp only
      omega

theorem mergeRun_spec (hend : ∃ b ∈ l, b.cmd = '\x00') :
    ∃ g' n, mergeRun g l = some (g', n) ∧ n < l.length ∧
      g'.commands.length ≤ g.commands.length + n ∧
      (∃ b ∈ l.drop n, b.cmd = '\x00') ∧
      ∀ omode m, getmodeLoop omode l (g.apply omode m) =
        getmodeLoop omode (l.drop n) (g'.apply omode m) := by
  induction l generalizing g with
  | nil => simp at hend
  | cons b rest ih =>
    by_cases hb : merges b.cmd
    · have hrest : ∃ b ∈ rest, b.cmd = '\x00' := by
        obtain ⟨e, he, hcmd⟩ := hend
        rcases List.mem_cons.mp he with rfl | he
        · rw [hcmd] at hb
          exact absurd hb (by decide)
        · exact ⟨e, he, hcmd⟩
      obtain ⟨g', n, hrun, hn, hlen, hend', hsame⟩ := ih (g := g.add b) hrest
      refine ⟨g', n + 1, by simp [mergeRun, hb, hrun], by simpa using hn, ?_, by simpa using hend',
        fun omode m => ?_⟩
      · have := Merged.length_add (g := g) (b := b)
        omega
      · rw [getmodeLoop, Merged.add_apply hb]
        exact hsame omode m
    · exact ⟨g, 0, by simp [mergeRun, hb], by simp, by simp, by simpa using hend, fun _ _ => rfl⟩

theorem store_spec (mem out : List Bitcmd) (set : Nat) (h : set + out.length ≤ mem.length) :
    (store mem set out).length = mem.length ∧
      store mem set out = mem.take set ++ (out ++ mem.drop (set + out.length)) := by
  induction out generalizing mem set with
  | nil => simp [store]
  | cons b out ih =>
    simp only [List.length_cons] at h
    obtain ⟨hlen, hstore⟩ := ih (mem.set set b) (set + 1) (by simp; omega)
    refine ⟨by simpa [store] using hlen, ?_⟩
    have htake : (mem.set set b).take (set + 1) = mem.take set ++ [b] := by
      rw [List.take_succ_eq_append_getElem (by simp; omega)]
      simp [List.take_set_of_le]
    rw [store, hstore, htake, List.drop_set_of_lt (by omega)]
    simp [Nat.add_comm, Nat.add_left_comm]

theorem take_drop_of_take_eq (l pre out : List Bitcmd)
    (h : l.take (pre.length + out.length) = pre ++ out) :
    l.take pre.length = pre ∧ l.drop pre.length = out ++ l.drop (pre.length + out.length) := by
  have hl : l = pre ++ (out ++ l.drop (pre.length + out.length)) := by
    rw [← List.append_assoc, ← h, List.take_append_drop]
  constructor
  · rw [hl]
    simp
  · conv_lhs => rw [hl]
    simp

theorem compressLoop_spec {fuel : Nat} (hfuel : mem.length - nset < fuel) (hle : set ≤ nset)
    (hend : ∃ b ∈ mem.drop nset, b.cmd = '\x00') :
    ∃ mem', compressLoop fuel mem set nset = some mem' ∧ mem'.take set = mem.take set ∧
      ∀ omode m, getmodeLoop omode (mem'.drop set) m = getmodeLoop omode (mem.drop nset) m := by
  induction fuel generalizing mem set nset with
  | zero => omega
  | succ fuel ih =>
    have hlt : nset < mem.length := by
      obtain ⟨e, he, -⟩ := hend
      have := List.length_pos_of_mem he
      rw [List.length_drop] at this
      omega
    have hdrop : mem.drop nset = mem[nset] :: mem.drop (nset + 1) := List.drop_eq_getElem_cons hlt
    by_cases hb : merges mem[nset].cmd
    · obtain ⟨g, n, hrun, hn, hlen, hend', hsame⟩ :=
        mergeRun_spec (g := ⟨0#16, 0#16, 0#16⟩) hend
      have hpos : 0 < n := by
        rw [hdrop, mergeRun, if_pos hb] at hrun
        obtain ⟨r, -, hr⟩ := Option.map_eq_some_iff.mp hrun
        simp only [Prod.mk.injEq] at hr
        omega
      rw [List.length_drop] at hn
      have hlen : g.commands.length ≤ n := by simpa [Merged.commands, entry] using hlen
      have hpre : (mem.take set).length = set := List.length_take_of_le (by omega)
      obtain ⟨hlength, hstore⟩ := store_spec mem g.commands set (by omega)
      have hrest : (store mem set g.commands).drop (nset + n) = mem.drop (nset + n) := by
        rw [hstore, ← List.append_assoc, List.drop_append, List.drop_eq_nil_of_le, List.drop_drop]
        · rw [List.nil_append, List.length_append, hpre]
          congr 1
          omega
        · rw [List.length_append, hpre]
          omega
      obtain ⟨mem', hloop, htake, hmodes⟩ := @ih (store mem set g.commands)
        (set + g.commands.length) (nset + n) (by omega) (by omega)
        (by rwa [hrest, ← List.drop_drop])
      have hfront : mem'.take ((mem.take set).length + g.commands.length) =
          mem.take set ++ g.commands := by
        rw [hpre, htake, hstore, ← List.append_assoc, List.take_left']
        rw [List.length_append, hpre]
      obtain ⟨hbefore, hafter⟩ := take_drop_of_take_eq _ _ _ hfront
      rw [hpre] at hbefore hafter
      refine ⟨mem', by simp [compressLoop, List.getElem?_eq_getElem hlt, hb, hrun, hloop], hbefore,
        fun omode m => ?_⟩
      have hstart : Merged.apply ⟨0#16, 0#16, 0#16⟩ omode m = m := by
        rw [Merged.apply, ite_self, BitVec.or_zero, BitVec.or_zero]
        exact BitVec.and_allOnes
      rw [hafter, getmodeLoop_commands, hmodes, hrest, ← List.drop_drop, ← hsame, hstart]
    · -- the command is copied
      have hpre : (mem.take set).length = set := List.length_take_of_le (by omega)
      have hcopy : (mem.set set mem[nset]).take (set + 1) = mem.take set ++ [mem[nset]] := by
        rw [List.take_succ_eq_append_getElem (by simp; omega)]
        simp [List.take_set_of_le]
      have hrest : (mem.set set mem[nset]).drop (nset + 1) = mem.drop (nset + 1) :=
        List.drop_set_of_lt (by omega)
      by_cases hzero : mem[nset].cmd = '\x00'
      · have hnone : ∀ omode m, command omode mem[nset] m = none := by
          intro omode m
          simp [command, hzero]
        obtain ⟨hbefore, hafter⟩ := take_drop_of_take_eq (mem.set set mem[nset])
          (mem.take set) [mem[nset]] (by rw [hpre]; exact hcopy)
        rw [hpre] at hbefore hafter
        refine ⟨mem.set set mem[nset], ?_, hbefore, fun omode m => ?_⟩
        · simp only [compressLoop, List.getElem?_eq_getElem hlt, if_neg hb, if_pos hzero]
        · rw [hafter, hdrop, List.singleton_append, getmodeLoop, hnone, getmodeLoop, hnone]
      · have hend' : ∃ b ∈ (mem.set set mem[nset]).drop (nset + 1), b.cmd = '\x00' := by
          obtain ⟨e, he, hcmd⟩ := hend
          rw [hdrop] at he
          rcases List.mem_cons.mp he with rfl | he
          · exact absurd hcmd hzero
          · exact ⟨e, by rwa [hrest], hcmd⟩
        obtain ⟨mem', hloop, htake, hmodes⟩ := @ih (mem.set set mem[nset]) (set + 1) (nset + 1)
          (by rw [List.length_set]; omega) (by omega) hend'
        obtain ⟨hbefore, hafter⟩ := take_drop_of_take_eq mem' (mem.take set)
          [mem[nset]] (by rw [hpre, ← hcopy]; exact htake)
        rw [hpre] at hbefore hafter
        refine ⟨mem', ?_, hbefore, fun omode m => ?_⟩
        · simp only [compressLoop, List.getElem?_eq_getElem hlt, if_neg hb, if_neg hzero, hloop]
        · rw [hafter, hdrop, List.singleton_append, getmodeLoop, getmodeLoop]
          cases command omode mem[nset] m with
          | none => rfl
          | some r => simpa [hrest] using hmodes omode r

theorem compressMode_spec (hend : ∃ b ∈ mem, b.cmd = '\x00') :
    ∃ mem', compressMode mem = some mem' ∧ ∀ omode, getmode mem' omode = getmode mem omode := by
  obtain ⟨mem', hloop, -, hmodes⟩ := @compressLoop_spec mem 0 0 (mem.length + 1)
    (by omega) le_rfl (by simpa using hend)
  exact ⟨mem', hloop, fun omode => by simpa [getmode] using hmodes omode omode⟩

variable {stale : Nat → Bitcmd} {mask : Mode} {a : Filled} {ls : Locals}

def Filled.Roomy (a : Filled) : Prop := a.set < a.mem.length

theorem Filled.Roomy.grow (h : a.Roomy) :
    (a.grow stale).Roomy ∧ (a.grow stale).set + 2 < (a.grow stale).mem.length := by
  unfold Filled.Roomy Filled.grow at *
  split
  · simp only [List.length_append, List.length_map, List.length_range]
    omega
  · omega

theorem addcmd_roomy (h : a.set + 2 < a.mem.length) (op : Char) (who perm : Mode) :
    (addcmd a op who perm mask).Roomy := by
  unfold Filled.Roomy addcmd
  dsimp only
  split <;> simp only [Filled.put, List.length_modify] <;> omega

theorem addcopy_roomy (h : a.set + 2 < a.mem.length) (cmd op : Char) (who : Mode) :
    (addcopy a cmd who op mask).Roomy := by
  simp only [Filled.Roomy, addcopy, List.length_set]
  omega

theorem addPerm_roomy (h : ls.out.Roomy) : (ls.addPerm stale mask).out.Roomy :=
  addcmd_roomy h.grow.2 _ _ _

theorem addX_roomy (h : ls.out.Roomy) : (ls.addX stale mask).out.Roomy :=
  addcmd_roomy h.grow.2 _ _ _

theorem copy_roomy (h : ls.out.Roomy) (c : Char) : (ls.copy stale mask c).out.Roomy := by
  unfold Locals.copy
  refine addcopy_roomy (Filled.Roomy.grow ?_).2 _ _ _
  split_ifs
  all_goals first
    | exact addX_roomy (addPerm_roomy h)
    | exact addX_roomy h
    | exact addPerm_roomy h
    | exact h

theorem done_roomy (h : ls.out.Roomy) : (ls.done stale mask).out.Roomy := by
  unfold Locals.done
  dsimp only
  split_ifs
  all_goals first
    | exact addX_roomy (addPerm_roomy h)
    | exact addX_roomy h
    | exact addPerm_roomy h
    | exact h

theorem letter_roomy (h : ls.out.Roomy) {c : Char} {ls' : Locals}
    (hl : ls.letter stale mask c = some ls') : ls'.out.Roomy := by
  unfold Locals.letter at hl
  split_ifs at hl
  all_goals
    cases hl
    first
      | exact h
      | exact copy_roomy h c

theorem clauses_roomy {p : List Char} {who : Bool} (h : ls.out.Roomy)
    (hc : clauses stale mask who ls p = some a) : a.Roomy := by
  induction p generalizing ls who with
  | nil =>
    cases who with
    | true => simp [clauses] at hc
    | false =>
      simp only [clauses, Option.some.injEq] at hc
      exact hc ▸ done_roomy h
  | cons c p ih =>
    cases who with
    | true =>
      simp only [clauses] at hc
      split at hc
      · exact @ih { ls with who := ls.who ||| _ } true h hc
      · split_ifs at hc
        exact @ih (ls.getop c) false h hc
    | false =>
      simp only [clauses] at hc
      split at hc
      · next hl => exact ih (letter_roomy h hl) hc
      · split_ifs at hc
        · exact @ih { ls.done stale mask with who := 0#16 } true (done_roomy h) hc
        · exact @ih ((ls.done stale mask).getop c) false (done_roomy h) hc

theorem symbolic_ends {p : List Char} (h : symbolic stale mask p = some mem) :
    ∃ b ∈ mem, b.cmd = '\x00' := by
  obtain ⟨a, hc, hmem⟩ := Option.bind_eq_some_iff.mp h
  have hroomy : a.set < a.mem.length := clauses_roomy (by simp [Filled.Roomy, allocated]) hc
  simp only [Option.some.injEq] at hmem
  subst hmem
  refine ⟨{ a.mem[a.set] with cmd := '\x00' }, ?_, rfl⟩
  rw [List.mem_iff_getElem]
  exact ⟨a.set, by simpa using hroomy, by rw [List.getElem_modify_eq]⟩

theorem getmodeLoop_ends (hend : ∃ b ∈ l, b.cmd = '\x00') : ∃ r, getmodeLoop omode l m = some r :=
    by
  induction l generalizing m with
  | nil => simp at hend
  | cons b rest ih =>
    rw [getmodeLoop]
    cases hc : command omode b m with
    | none => exact ⟨m, rfl⟩
    | some r =>
      obtain ⟨e, he, hcmd⟩ := hend
      rcases List.mem_cons.mp he with rfl | he
      · simp [command, hcmd] at hc
      · exact ih ⟨e, he, hcmd⟩

/-- **Compressing the commands of a symbolic mode changes none of the modes they give.** -/
theorem compressMode_symbolic {p : List Char} (h : symbolic stale mask p = some mem) :
    ∃ mem', compressMode mem = some mem' ∧
      ∀ omode, ∃ r, getmode mem omode = some r ∧ getmode mem' omode = some r := by
  obtain ⟨mem', hmem', hmodes⟩ := compressMode_spec (symbolic_ends h)
  refine ⟨mem', hmem', fun omode => ?_⟩
  obtain ⟨r, hr⟩ : ∃ r, getmode mem omode = some r := getmodeLoop_ends (symbolic_ends h)
  exact ⟨r, hr, by rw [hmodes, hr]⟩

/-- "u=rwx,go=u-w" is compiled into an array of zeros and compressed. -/
theorem compressMode_example : ∃ mem mem',
    symbolic (fun _ => ⟨'\x00', ⟨false, false, false, false, false⟩, 0#16⟩) (~~~0o022#16)
      "u=rwx,go=u-w".toList = some mem ∧ compressMode mem = some mem' ∧
      ∀ omode, ∃ r, getmode mem omode = some r ∧ getmode mem' omode = some r := by
  obtain ⟨mem, hmem⟩ : ∃ mem,
      symbolic (fun _ => ⟨'\x00', ⟨false, false, false, false, false⟩, 0#16⟩) (~~~0o022#16)
        "u=rwx,go=u-w".toList = some mem := ⟨_, rfl⟩
  obtain ⟨mem', hmem', hmodes⟩ := compressMode_symbolic hmem
  exact ⟨mem, mem', hmem, hmem', hmodes⟩

end Bsdi.Setmode
