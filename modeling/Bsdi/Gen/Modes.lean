import Mathlib.Data.List.TakeWhile
import Bsdi.Gen.Actions

/-!
# Modes

The loops of `setmode` compile the actions of the clauses in their order, and `getmode` gives the
mode that `chmod` describes.
-/

namespace Bsdi.Setmode

variable {stale : Nat → Bitcmd} {umask omode m m' : Mode} {a : Action} {f : Filled}
  {perms : List Char} {l l' : Locals} {done : Mode} {c : Char}

variable {mask : Mode} {p : List Char} {acts : List Action}

theorem letter_isSome : (l.letter stale mask c).isSome = isPerm c := by
  unfold Locals.letter isPerm isCopy
  split_ifs <;> simp_all [or_assoc]

theorem copy_who : (l.copy stale mask c).who = l.who := by
  unfold Locals.copy
  dsimp only
  split_ifs <;> rfl

theorem done_who : (l.done stale mask).who = l.who := by
  unfold Locals.done
  dsimp only
  split_ifs <;> rfl

theorem letter_who (h : l.letter stale mask c = some l') :
    l'.who &&& ~~~S_ISTXT = l.who &&& ~~~S_ISTXT := by
  unfold Locals.letter at h
  split_ifs at h <;> obtain rfl := Option.some.inj h <;> try rfl
  · rw [BitVec.and_or_distrib_right, BitVec.and_not_self]
    exact BitVec.or_zero
  · rw [copy_who]

theorem letters_who {cs : List Char}
    (h : cs.foldlM (fun (l : Locals) c => l.letter stale mask c) l = some l') :
    l'.who &&& ~~~S_ISTXT = l.who &&& ~~~S_ISTXT := by
  induction cs generalizing l with
  | nil => rw [← Option.some.inj h]
  | cons c cs ih =>
    rw [List.foldlM_cons] at h
    obtain ⟨l₁, hl₁, h⟩ := Option.bind_eq_some_iff.1 h
    rw [ih h, letter_who hl₁]

theorem getop_done {l₁ : Locals} {who : List Char} {op : Char} {cs : List Char} (d : Char)
    (h : cs.foldlM (fun (l : Locals) c => l.letter stale mask c)
      ({ l with who := whoMask who }.getop op) =
      some l₁) :
    { l₁.done stale mask with who := whoMask who }.getop d = (l₁.done stale mask).getop d := by
  have hwho := letters_who h
  rw [getop_who] at hwho
  simp only [Locals.getop, done_who, hwho]

theorem clauses_actions (p : List Char) : ∀ (l : Locals) (a : Action),
    clauses stale mask true { l with who := whoMask a.who } p =
        ((actions true a p).bind fun acts => (acts.foldlM (Locals.run stale mask) l).map (·.out)) ∧
      ∀ l₁, a.perms.foldlM (fun (l : Locals) c => l.letter stale mask c)
          ({ l with who := whoMask a.who }.getop a.op) = some l₁ →
        clauses stale mask false l₁ p =
          (actions false a p).bind fun acts =>
            (acts.foldlM (Locals.run stale mask) l).map (·.out) := by
  induction p with
  | nil =>
    refine fun l a => ⟨rfl, fun l₁ hletters => ?_⟩
    simp [clauses, actions, Locals.run, hletters]
  | cons c p ih =>
    refine fun l a => ⟨?_, fun l₁ hletters => ?_⟩
    · rw [clauses, actions]
      have hwho := isWho_iff (c := c)
      cases hbits : whoBits c with
      | some b =>
        rw [hbits] at hwho
        rw [if_pos (hwho.2 rfl), ← (ih l { a with who := a.who ++ [c] }).1, whoMask_append, hbits]
        rfl
      | none =>
        rw [hbits] at hwho
        have hnot : ¬ isWho c = true := fun h => by simpa using hwho.1 h
        rw [if_neg hnot]
        dsimp only
        split_ifs with hop
        · exact (ih l ⟨a.who, c, []⟩).2 _ rfl
        · rfl
    · have hdone : Locals.run stale mask l a = some (l₁.done stale mask) := by
        rw [Locals.run, hletters]
        rfl
      rw [clauses, actions]
      cases hletter : l₁.letter stale mask c with
      | some l₂ =>
        have hperm : isPerm c = true := by rw [← letter_isSome, hletter]; rfl
        rw [if_pos hperm]
        refine (ih l { a with perms := a.perms ++ [c] }).2 l₂ ?_
        rw [List.foldlM_append]
        dsimp only
        rw [hletters]
        simp [hletter]
      | none =>
        have hperm : ¬ isPerm c = true := by rw [← letter_isSome, hletter]; simp
        rw [if_neg hperm]
        dsimp only
        split_ifs with hcomma hop
        · rw [Option.bind_map]
          simp only [Function.comp_def, List.foldlM_cons, hdone]
          exact (ih (l₁.done stale mask) ⟨[], '+', []⟩).1
        · rw [Option.bind_map]
          simp only [Function.comp_def, List.foldlM_cons, hdone]
          rw [← getop_done c hletters]
          exact (ih (l₁.done stale mask) ⟨a.who, c, []⟩).2 _ rfl
        · rfl

theorem actions_named (p : List Char) : ∀ (who : Bool) (a : Action), a.Named →
    (who = false → isOp a.op = true) → ∀ acts, actions who a p = some acts →
    ∀ b ∈ acts, b.Named ∧ isOp b.op = true := by
  induction p with
  | nil =>
    intro who a hnamed hop acts h b hb
    cases who with
    | true => cases h
    | false =>
      obtain rfl := Option.some.inj h
      obtain rfl := List.mem_singleton.1 hb
      exact ⟨hnamed, hop rfl⟩
  | cons c p ih =>
    intro who a hnamed hop acts h b hb
    cases who with
    | true =>
      rw [actions] at h
      split_ifs at h with hwho hc
      · refine ih true _ (fun d hd => ?_) (fun h => by cases h) acts h b hb
        rcases List.mem_append.1 hd with hd | hd
        · exact hnamed d hd
        · rwa [List.mem_singleton.1 hd]
      · exact ih false ⟨a.who, c, []⟩ hnamed (fun _ => hc) acts h b hb
    | false =>
      rw [actions] at h
      split_ifs at h with hperm hcomma hc
      · exact ih false { a with perms := a.perms ++ [c] } hnamed hop acts h b hb
      · obtain ⟨acts', h', rfl⟩ := Option.map_eq_some_iff.1 h
        rcases List.mem_cons.1 hb with rfl | hb
        · exact ⟨hnamed, hop rfl⟩
        · exact ih true ⟨[], '+', []⟩ (fun d hd => by cases hd) (fun h => by cases h) acts' h' b hb
      · obtain ⟨acts', h', rfl⟩ := Option.map_eq_some_iff.1 h
        rcases List.mem_cons.1 hb with rfl | hb
        · exact ⟨hnamed, hop rfl⟩
        · exact ih false ⟨a.who, c, []⟩ hnamed (fun _ => hc) acts' h' b hb

theorem runs_spec {l' : Locals} (hacts : ∀ b ∈ acts, b.Named ∧ isOp b.op = true)
    (h : Ran omode l.out m)
    (hplain : Action.AllPlain umask omode m acts)
    (hrun : acts.foldlM (Locals.run stale (~~~umask)) l = some l') :
    Ran omode l'.out (acts.foldl (Action.apply umask omode) m) := by
  induction acts generalizing l m with
  | nil =>
    obtain rfl := Option.some.inj hrun
    exact h
  | cons a acts ih =>
    rw [List.foldlM_cons] at hrun
    obtain ⟨l₁, hl₁, hrun⟩ := Option.bind_eq_some_iff.1 hrun
    obtain ⟨hnamed, hop⟩ := hacts a (by simp)
    exact ih (fun b hb => hacts b (by simp [hb])) (run_spec h hop hnamed hplain.1 hl₁) hplain.2 hrun

theorem getmodeLoop_foldlM {cmds rest : List Bitcmd}
    (h : cmds.foldlM (fun m b => command omode b m) m = some m') :
    getmodeLoop omode (cmds ++ rest) m = getmodeLoop omode rest m' := by
  induction cmds generalizing m with
  | nil => rw [← Option.some.inj h, List.nil_append]
  | cons b cmds ih =>
    rw [List.foldlM_cons] at h
    obtain ⟨m₁, hm₁, h⟩ := Option.bind_eq_some_iff.1 h
    rw [List.cons_append, getmodeLoop, hm₁]
    exact ih h

theorem Ran.getmode_terminated (h : Ran omode f m) :
    getmode (f.mem.modify f.set fun b => { b with cmd := '\x00' }) omode = some m := by
  rw [getmode, List.modify_eq_take_cons_drop h.roomy, getmodeLoop_foldlM h.run, getmodeLoop]
  rfl

theorem ran_allocated (stale : Nat → Bitcmd) (omode : Mode) : Ran omode (allocated stale) omode :=
  ⟨by simp [Filled.Roomy, allocated], rfl⟩

theorem symbolic_chmod {mem : List Bitcmd} (h : symbolic stale (~~~umask) p = some mem)
    (hplain : ∀ acts, actions true ⟨[], '+', []⟩ p = some acts →
      Action.AllPlain umask omode omode acts) :
    ∃ acts, actions true ⟨[], '+', []⟩ p = some acts ∧
      getmode mem omode = some (acts.foldl (Action.apply umask omode) omode) := by
  obtain ⟨f, hclauses, hmem⟩ := Option.bind_eq_some_iff.1 h
  obtain rfl := Option.some.inj hmem
  let l : Locals := ⟨allocated stale, 0#16, '+', 0#16, 0#16, false⟩
  have heq : clauses stale (~~~umask) true { l with who := whoMask [] } p =
      (actions true ⟨[], '+', []⟩ p).bind fun acts =>
        (acts.foldlM (Locals.run stale (~~~umask)) l).map (·.out) :=
    (clauses_actions p l ⟨[], '+', []⟩).1
  have hl : { l with who := whoMask [] } = l := rfl
  rw [hl, hclauses] at heq
  obtain ⟨acts, hacts, hrun⟩ := Option.bind_eq_some_iff.1 heq.symm
  obtain ⟨l', hrun', rfl⟩ := Option.map_eq_some_iff.1 hrun
  have hnamed := actions_named p true ⟨[], '+', []⟩ (fun _ hd => by cases hd)
    (fun h => by cases h) acts hacts
  have hstart : Ran omode l.out omode := ran_allocated stale omode
  have hran := runs_spec hnamed hstart (hplain acts hacts) hrun'
  exact ⟨acts, hacts, hran.getmode_terminated⟩

theorem isCommand_of_command {b : Bitcmd} (h : isCommand b.cmd = false) :
    command omode b m = none := by
  simp only [isCommand, isCopy, Bool.or_eq_false_iff, decide_eq_false_iff_not] at h
  simp [command, h]

theorem absolute_chmod {mem : List Bitcmd} (h : absolute stale mask p = some mem)
    (hoctal : p.all isoctal = true)
    (hstale : isCommand (stale 2).cmd = false) :
    getmode mem omode =
      some ((omode &&& ~~~permissionBits) |||
        (BitVec.ofNat 16 (octalValue p) &&& permissionBits)) := by
  have hall : p.takeWhile isoctal = p := List.takeWhile_eq_self_iff.2 (by simpa using hoctal)
  have hstrtol : strtol8 p = min (2 ^ 31 - 1) (octalValue p) := by
    rw [strtol8, hall]
    rfl
  rw [absolute] at h
  split_ifs at h with hbits htail
  obtain rfl := Option.some.inj h
  -- a number that does not fit is refused
  have hvalue : strtol8 p = octalValue p := by
    rcases Nat.lt_or_ge (octalValue p) (2 ^ 31 - 1) with hlt | hge
    · rw [hstrtol, Nat.min_eq_right (Nat.le_of_lt hlt)]
    · rw [hstrtol, Nat.min_eq_left hge] at hbits
      exact absurd (by decide) hbits
  rw [hvalue]
  have hran := (ran_allocated stale omode).grow stale
  have hcmd := hran.1.addcmd_assign hran.2 permissionBits (BitVec.ofNat 16 (octalValue p)) mask
  have hne : permissionBits ≠ 0#16 := by decide
  generalize BitVec.ofNat 16 (octalValue p) = perm at *
  rw [bitsFor, if_pos hne, if_pos hne, BitVec.and_comm permissionBits perm] at hcmd
  have hset : (addcmd ((allocated stale).grow stale) '=' permissionBits perm mask).set = 2 := rfl
  have hthird : (addcmd ((allocated stale).grow stale) '=' permissionBits perm mask).mem[2]? = some
    (stale 2) := rfl
  have hrun := hcmd.run
  change getmode (addcmd ((allocated stale).grow stale) '=' permissionBits perm mask).mem omode = _
  generalize (addcmd ((allocated stale).grow stale) '=' permissionBits perm mask) = f at *
  have hsplit : f.mem = f.mem.take 2 ++ stale 2 :: f.mem.drop 3 := by
    obtain ⟨hlt, hget⟩ := List.getElem?_eq_some_iff.1 hthird
    rw [← hget, ← List.drop_eq_getElem_cons hlt, List.take_append_drop]
  rw [hset] at hrun
  have hmode : getmodeLoop omode (f.mem.take 2 ++ stale 2 :: f.mem.drop 3) omode =
      getmodeLoop omode (stale 2 :: f.mem.drop 3) _ := getmodeLoop_foldlM hrun
  rw [← hsplit, getmodeLoop, isCommand_of_command hstale] at hmode
  exact hmode

/-- **`getmode` of what `setmode` compiles gives the mode that `chmod` is to give**, when `setmode`
does what is meant with the number or the actions. -/
theorem setmode_chmod (stale : Nat → Bitcmd) (umask omode : Mode) (p : List Char)
    (mem : List Bitcmd) (h : setmode stale umask p = some mem) (hfaithful : Faithful stale umask omode p) :
    ∃ r, getmode mem omode = some r ∧ chmod umask omode p = some r := by
  cases p with
  | nil => cases h
  | cons c p =>
    rw [setmode] at h
    rw [Faithful] at hfaithful
    rw [chmod]
    by_cases hdigit : isdigit c = true
    · rw [if_pos hdigit] at h hfaithful ⊢
      rw [if_pos hfaithful.1]
      exact ⟨_, absolute_chmod h hfaithful.1 hfaithful.2, rfl⟩
    · rw [if_neg hdigit] at h hfaithful ⊢
      obtain ⟨mem', hsymbolic, hcompress⟩ := Option.bind_eq_some_iff.1 h
      obtain ⟨acts, hacts, hmode⟩ := symbolic_chmod hsymbolic hfaithful
      obtain ⟨mem'', heq, hmodes⟩ := compressMode_spec (symbolic_ends hsymbolic)
      obtain rfl : mem'' = mem := Option.some.inj (heq.symm.trans hcompress)
      exact ⟨_, (hmodes omode).trans hmode, by rw [hacts]; rfl⟩

/-- An array of zeros, and one with a command that was left in its third entry. -/
def zeros : Nat → Bitcmd := fun _ => ⟨'\x00', ⟨false, false, false, false, false⟩, 0#16⟩

def leftover : Nat → Bitcmd := fun i =>
  if i = 2 then ⟨'+', ⟨false, false, false, false, false⟩, 0o111#16⟩ else zeros i

theorem Action.plain_of_perms (h : ∀ c ∈ a.perms, c ≠ 's' ∧ c ≠ 't' ∧ c ≠ 'X')
    (hcopies : a.op = '=' → ∀ c ∈ a.perms, isCopy c = false) : a.Plain umask omode m where
  nobody _ := ⟨fun hs => (h 's' hs).1 rfl, fun ht => absurd rfl (h 't' ht).2.1⟩
  others _ ht := (h 't' ht).2.1 rfl
  copies hop hcopy := by
    obtain ⟨c, hc, hcopy⟩ := hcopy
    rw [hcopies hop c hc] at hcopy
    cases hcopy
  searches hX := absurd rfl (h 'X' hX).2.2

def goFromU : List Char := ['u', '=', 'r', 'w', 'x', ',', 'g', 'o', '=', 'u', '-', 'w']

theorem faithful_goFromU : Faithful zeros 0o022#16 0o100644#16 goFromU := by
  intro acts hacts
  obtain rfl : [⟨['u'], '=', ['r', 'w', 'x']⟩, ⟨['g', 'o'], '=', ['u']⟩,
      ⟨['g', 'o'], '-', ['w']⟩] = acts := Option.some.inj hacts
  refine ⟨Action.plain_of_perms (by simp) (by simp [isCopy]), ?_,
    Action.plain_of_perms (by simp) (by simp), trivial⟩
  exact
    { nobody := by simp
      others := by simp
      copies := fun _ _ => ⟨⟨'u', rfl⟩, by decide⟩
      searches := by simp }

theorem setmode_chmod_goFromU : ∃ mem r, setmode zeros 0o022#16 goFromU = some mem ∧
    getmode mem 0o100644#16 = some r ∧ chmod 0o022#16 0o100644#16 goFromU = some r := by
  obtain ⟨mem, hmem⟩ : ∃ mem, setmode zeros 0o022#16 goFromU = some mem := ⟨_, rfl⟩
  obtain ⟨r, hr⟩ := setmode_chmod zeros 0o022#16 0o100644#16 _ mem hmem faithful_goFromU
  exact ⟨mem, r, hmem, hr⟩

/-- With something left in memory the mode 644 becomes 755. -/
theorem setmode_leftover : ¬ ∀ (stale : Nat → Bitcmd) (umask omode : Mode) (p : List Char)
    (mem : List Bitcmd), setmode stale umask p = some mem →
    ∃ r, getmode mem omode = some r ∧ chmod umask omode p = some r := by
  intro h
  have hsome : (setmode leftover 0o022#16 ['6', '4', '4']).isSome = true := by decide
  have hmode : ((setmode leftover 0o022#16 ['6', '4', '4']).bind
      fun mem => getmode mem 0o100600#16) = some 0o100755#16 := by decide
  have hchmod : chmod 0o022#16 0o100600#16 ['6', '4', '4'] = some 0o100644#16 := by decide
  obtain ⟨mem, hmem⟩ := Option.isSome_iff_exists.1 hsome
  obtain ⟨r, hr, hr'⟩ := h leftover 0o022#16 0o100600#16 ['6', '4', '4'] mem hmem
  rw [hmem, Option.bind_some, hr, ← hr', hchmod] at hmode
  exact absurd hmode (by decide)

end Bsdi.Setmode
