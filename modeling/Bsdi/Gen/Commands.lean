import Mathlib.Tactic.IntervalCases
import Bsdi.Gen.Chmod

/-!
# The commands of a mode

What each command of the array makes of the mode of a file, and which bits the letters that say who
stand for.
-/

namespace Bsdi.Setmode

variable {stale : Nat → Bitcmd} {umask omode m m' : Mode} {a : Action} {f : Filled}

def classMask (u g o : Bool) : Mode :=
  (if u then S_IRWXU else 0#16) ||| ((if g then S_IRWXG else 0#16) ||| if o then S_IRWXO else 0#16)

theorem copyBits_add (c : Char) (u g o : Bool) (bits : Mode) (v : BitVec 3) (m : Mode) :
    copyBits ⟨c, ⟨false, true, u, g, o⟩, bits⟩ (v.setWidth 16) m =
      m ||| (spread v &&& (classMask u g o &&& bits)) := by
  obtain ⟨hu, hg, ho⟩ := spread_shifts v
  simp only [copyBits, Bool.false_and, Bool.true_and, Bool.false_eq_true, if_false, hu, hg,
    ho, classMask]
  clear hu hg ho
  ext i hi
  cases u <;> cases g <;> cases o <;>
    simp only [Bool.false_eq_true, if_true, if_false, BitVec.getElem_and, BitVec.getElem_or,
      BitVec.getElem_zero] <;>
    grind

theorem copyBits_clear (c : Char) (u g o : Bool) (bits : Mode) (v : BitVec 3) (m : Mode) :
    copyBits ⟨c, ⟨true, false, u, g, o⟩, bits⟩ (v.setWidth 16) m =
      m &&& ~~~(spread v &&& (classMask u g o &&& bits)) := by
  obtain ⟨hu, hg, ho⟩ := spread_shifts v
  simp only [copyBits, Bool.false_and, Bool.true_and, Bool.false_eq_true, if_false, hu, hg,
    ho, classMask]
  clear hu hg ho
  ext i hi
  cases u <;> cases g <;> cases o <;>
    simp only [Bool.false_eq_true, if_true, if_false, BitVec.getElem_and, BitVec.getElem_or,
      BitVec.getElem_not, BitVec.getElem_zero] <;>
    grind

theorem copyBits_assign (c : Char) (u g o : Bool) (bits : Mode) (v : BitVec 3) (m : Mode) :
    copyBits ⟨c, ⟨true, true, u, g, o⟩, bits⟩ (v.setWidth 16) m =
      (m &&& ~~~(classMask u g o &&& bits)) ||| (spread v &&& (classMask u g o &&& bits)) := by
  obtain ⟨hu, hg, ho⟩ := spread_shifts v
  have hall : S_IRWXO <<< 6 = S_IRWXU ∧ S_IRWXO <<< 3 = S_IRWXG ∧ S_IRWXO <<< 0 = S_IRWXO := by
    decide
  simp only [copyBits, Bool.true_and, if_true, hu, hg, hall,
    ho, classMask]
  clear hu hg ho
  ext i hi
  cases u <;> cases g <;> cases o <;>
    simp only [Bool.false_eq_true, if_true, if_false, BitVec.getElem_and, BitVec.getElem_or,
      BitVec.getElem_not, BitVec.getElem_zero] <;>
    grind

theorem isCopy_iff {c : Char} : isCopy c = true ↔ c = 'u' ∨ c = 'g' ∨ c = 'o' := by
  simp [isCopy, or_assoc]

theorem command_copy {c : Char} (hc : isCopy c = true) (cmd2 : Cmd2) (bits : Mode) :
    command omode ⟨c, cmd2, bits⟩ m =
      some (copyBits ⟨c, cmd2, bits⟩ ((classBits m c).setWidth 16) m) := by
  have hu : (m &&& S_IRWXU) >>> 6 = (m.extractLsb' 6 3).setWidth 16 := by
    ext i hi
    interval_cases i <;> simp [S_IRWXU]
  have hg : (m &&& S_IRWXG) >>> 3 = (m.extractLsb' 3 3).setWidth 16 := by
    ext i hi
    interval_cases i <;> simp [S_IRWXG]
  have ho : m &&& S_IRWXO = (m.extractLsb' 0 3).setWidth 16 := by
    ext i hi
    interval_cases i <;> simp [S_IRWXO]
  rcases isCopy_iff.1 hc with rfl | rfl | rfl
  · rw [command, if_pos rfl, hu]
    rfl
  · rw [command, if_neg (show ¬ 'g' = 'u' by decide), if_pos rfl, hg]
    rfl
  · rw [command, if_neg (show ¬ 'o' = 'u' by decide), if_neg (show ¬ 'o' = 'g' by decide),
      if_pos rfl, ho]
    rfl

/-- The commands so far make the mode `m` of a file. -/
structure Ran (omode : Mode) (f : Filled) (m : Mode) : Prop where
  roomy : f.Roomy
  run : (f.mem.take f.set).foldlM (fun m b => command omode b m) omode = some m

theorem Ran.grow (h : Ran omode f m) (stale : Nat → Bitcmd) :
    Ran omode (f.grow stale) m ∧ (f.grow stale).set + 2 < (f.grow stale).mem.length := by
  obtain ⟨hroomy, hroom⟩ :
      (f.grow stale).Roomy ∧ (f.grow stale).set + 2 < (f.grow stale).mem.length := h.roomy.grow
  refine ⟨⟨hroomy, ?_⟩, hroom⟩
  have hle : f.set ≤ f.mem.length := Nat.le_of_lt h.roomy
  unfold Filled.grow
  split
  · rw [List.take_append_of_le_length hle, h.run]
  · exact h.run

theorem Ran.put (h : Ran omode f m) (hroom : f.set + 1 < f.mem.length) {cmd : Char} {bits : Mode}
    (hcmd : ∀ cmd2, command omode ⟨cmd, cmd2, bits⟩ m = some m') :
    Ran omode (f.put cmd bits) m' := by
  refine ⟨by simpa [Filled.Roomy, Filled.put] using hroom, ?_⟩
  have htake : (f.put cmd bits).mem.take (f.put cmd bits).set =
      f.mem.take f.set ++ [{ f.mem[f.set] with cmd := cmd, bits := bits }] := by
    simp only [Filled.put, List.modify_eq_take_cons_drop (show f.set < f.mem.length by omega)]
    rw [List.take_append, List.take_of_length_le (by simp), List.length_take,
      Nat.min_eq_left (by omega), Nat.add_sub_cancel_left]
    rfl
  rw [htake, List.foldlM_append, h.run]
  simp only [Option.bind_eq_bind, Option.bind_some, List.foldlM_cons, List.foldlM_nil]
  rw [hcmd]
  rfl

def bitsFor (who mask : Mode) : Mode := if who ≠ 0#16 then who else mask

theorem Ran.addcmd_plus (h : Ran omode f m) (hroom : f.set + 2 < f.mem.length)
    (who perm mask : Mode) :
    Ran omode (addcmd f '+' who perm mask) (m ||| (bitsFor who mask &&& perm)) :=
  h.put (by omega) fun _ => command_set rfl

theorem Ran.addcmd_minus (h : Ran omode f m) (hroom : f.set + 2 < f.mem.length)
    (who perm mask : Mode) :
    Ran omode (addcmd f '-' who perm mask) (m &&& ~~~(bitsFor who mask &&& perm)) :=
  h.put (by omega) fun _ => command_clear rfl

theorem Ran.addcmd_X (h : Ran omode f m) (hroom : f.set + 2 < f.mem.length) (who perm mask : Mode) :
    Ran omode (addcmd f 'X' who perm mask)
      (m ||| (bitsFor who mask &&& if XApplies omode then perm else 0#16)) := by
  refine h.put (by omega) fun _ => ?_
  rw [command_X rfl]
  split <;> simp [bitsFor]

theorem Ran.addcmd_assign (h : Ran omode f m) (hroom : f.set + 2 < f.mem.length)
    (who perm mask : Mode) :
    Ran omode (addcmd f '=' who perm mask)
      ((m &&& ~~~(if who ≠ 0#16 then who else standardBits)) ||| (bitsFor who mask &&& perm)) := by
  refine Ran.put (m := m &&& ~~~(if who ≠ 0#16 then who else standardBits)) ?_ ?_ fun _ =>
    command_set rfl
  · exact h.put (by omega) fun _ => command_clear rfl
  · simp only [Filled.put, List.length_modify]
    omega

def copyMask (who mask : Mode) : Mode :=
  if who ≠ 0#16 then
    classMask (who &&& 0o400#16 ≠ 0#16) (who &&& 0o040#16 ≠ 0#16) (who &&& 0o004#16 ≠ 0#16)
  else 0o777#16 &&& mask

theorem Ran.addcopy (h : Ran omode f m) (hroom : f.set + 2 < f.mem.length) {c : Char}
    (hc : isCopy c = true)
    (who : Mode) {op : Char} (hop : isOp op = true) (mask : Mode) :
    Ran omode (addcopy f c who op mask)
      (let v := spread (classBits m c) &&& copyMask who mask
      if op = '+' then m ||| v
      else if op = '-' then m &&& ~~~v
      else (m &&& ~~~copyMask who mask) ||| v) := by
  let flags := fun bit : Mode => decide (who = 0#16 ∨ who &&& bit ≠ 0#16)
  let b : Bitcmd := ⟨c, ⟨op = '-' || op = '=', op = '+' || op = '=', flags 0o400#16, flags 0o040#16,
    flags 0o004#16⟩, if who ≠ 0#16 then ~~~0#16 else mask⟩
  have hmask : classMask (flags 0o400#16) (flags 0o040#16) (flags 0o004#16) &&& b.bits =
      copyMask who mask := by
    by_cases hwho : who = 0#16
    · simp only [flags, b, copyMask, hwho, true_or, decide_true, ne_eq, not_true_eq_false, if_false]
      rfl
    · simp only [flags, b, copyMask, hwho, false_or, ne_eq, not_false_eq_true, if_true]
      exact BitVec.and_allOnes
  refine ⟨by simp only [Filled.Roomy, Setmode.addcopy, List.length_set]; omega, ?_⟩
  have htake : (Setmode.addcopy f c who op mask).mem.take (Setmode.addcopy f c who op mask).set =
      f.mem.take f.set ++ [b] := by
    simp only [Setmode.addcopy, List.set_eq_take_append_cons_drop]
    rw [if_pos (by omega), List.take_append, List.take_of_length_le (by simp), List.length_take,
      Nat.min_eq_left (by omega), Nat.add_sub_cancel_left]
    simp [b, flags]
  rw [htake, List.foldlM_append, h.run]
  simp only [Option.bind_eq_bind, Option.bind_some, List.foldlM_cons, List.foldlM_nil]
  rw [command_copy hc]
  simp only [isOp, Bool.or_eq_true, decide_eq_true_eq, or_assoc] at hop
  rcases hop with rfl | rfl | rfl
  · have hcopy := copyBits_add c (flags 0o400#16) (flags 0o040#16) (flags 0o004#16) b.bits
      (classBits m c) m
    rw [hmask] at hcopy
    exact congrArg some hcopy
  · have hcopy := copyBits_clear c (flags 0o400#16) (flags 0o040#16) (flags 0o004#16) b.bits
      (classBits m c) m
    rw [hmask] at hcopy
    exact congrArg some hcopy
  · have hcopy := copyBits_assign c (flags 0o400#16) (flags 0o040#16) (flags 0o004#16) b.bits
      (classBits m c) m
    rw [hmask] at hcopy
    exact congrArg some hcopy

def whoOf (u g o : Bool) : Mode :=
  (if u then S_ISUID ||| S_IRWXU else 0#16) |||
    ((if g then S_ISGID ||| S_IRWXG else 0#16) ||| if o then S_IRWXO else 0#16)

theorem whoOf_or : ∀ u g o u' g' o' : Bool,
    whoOf u g o ||| whoOf u' g' o' = whoOf (u || u') (g || g') (o || o') := by
  decide

theorem whoMask_append (who : List Char) (c : Char) :
    whoMask (who ++ [c]) = whoMask who ||| (whoBits c).getD 0#16 := by
  simp [whoMask]

theorem whoMask_eq (who : List Char) : ∃ u g o, whoMask who = whoOf u g o := by
  induction who using List.reverseRecOn with
  | nil => exact ⟨false, false, false, rfl⟩
  | append_singleton who c ih =>
    obtain ⟨u, g, o, heq⟩ := ih
    have hc : ∃ u' g' o', (whoBits c).getD 0#16 = whoOf u' g' o' := by
      unfold whoBits
      split
      · exact ⟨true, true, true, by decide⟩
      split
      · exact ⟨true, false, false, by decide⟩
      split
      · exact ⟨false, true, false, by decide⟩
      split
      · exact ⟨false, false, true, by decide⟩
      · exact ⟨false, false, false, by decide⟩
    obtain ⟨u', g', o', hc⟩ := hc
    exact ⟨_, _, _, by rw [whoMask_append, heq, hc, whoOf_or]⟩

theorem isWho_iff {c : Char} : isWho c = true ↔ (whoBits c).isSome = true := by
  unfold isWho whoBits
  split_ifs <;> simp_all

theorem whoBits_ne_zero {c : Char} {b : Mode} (h : whoBits c = some b) : b ≠ 0#16 := by
  unfold whoBits at h
  split_ifs at h <;> cases h <;> decide

theorem whoMask_ne_zero {who : List Char} (h : ∀ c ∈ who, isWho c = true) (hne : who ≠ []) :
    whoMask who ≠ 0#16 := by
  obtain ⟨l, c, rfl⟩ := List.eq_nil_or_concat who |>.resolve_left hne
  rw [List.concat_eq_append] at h ⊢
  rw [whoMask_append]
  obtain ⟨b, hb⟩ := Option.isSome_iff_exists.1 (isWho_iff.1 (h c (by simp)))
  rw [hb, Option.getD_some]
  intro hzero
  refine whoBits_ne_zero hb ?_
  ext i hi
  have hi' := congrArg (·[i]) hzero
  simp only [BitVec.getElem_or, BitVec.getElem_zero, Bool.or_eq_false_iff] at hi' ⊢
  exact hi'.2

theorem whoMask_low (who : List Char) : whoMask who &&& S_ISTXT = 0#16 := by
  obtain ⟨u, g, o, heq⟩ := whoMask_eq who
  rw [heq]
  clear heq
  revert u g o
  decide

theorem othersOnly_setid (h : a.othersOnly = true) :
    (S_ISUID ||| S_ISGID) &&& whoMask a.who = 0#16 := by
  have hall : ∀ c ∈ a.who, c = 'o' := by
    simp only [Action.othersOnly, Bool.and_eq_true, List.all_eq_true, decide_eq_true_eq] at h
    exact h.2
  generalize a.who = who at hall
  induction who using List.reverseRecOn with
  | nil => rfl
  | append_singleton who c ih =>
    have hc : c = 'o' := hall c (by simp)
    rw [whoMask_append, hc, BitVec.and_or_distrib_left, ih fun c hc => hall c (by simp [hc])]
    rfl

theorem copyMask_whoMask (who : List Char) (mask : Mode) (hne : whoMask who ≠ 0#16) :
    copyMask (whoMask who) mask = whoMask who &&& 0o777#16 ∧
      copyMask (whoMask who ||| S_ISTXT) mask = whoMask who &&& 0o777#16 := by
  have hne' : whoMask who ||| S_ISTXT ≠ 0#16 := by
    intro hzero
    have hbit := congrArg (·.getLsbD 9) hzero
    simp [S_ISTXT] at hbit
  rw [copyMask, copyMask, if_pos hne, if_pos hne']
  obtain ⟨u, g, o, heq⟩ := whoMask_eq who
  rw [heq]
  clear heq
  revert u g o
  decide

theorem copyMask_low (who mask : Mode) : copyMask who mask &&& 0o777#16 = copyMask who mask := by
  unfold copyMask
  split
  · generalize decide (who &&& 0o400#16 ≠ 0#16) = u
    generalize decide (who &&& 0o040#16 ≠ 0#16) = g
    generalize decide (who &&& 0o004#16 ≠ 0#16) = o
    revert u g o
    decide
  · rw [BitVec.and_comm, ← BitVec.and_assoc, BitVec.and_self]

end Bsdi.Setmode
