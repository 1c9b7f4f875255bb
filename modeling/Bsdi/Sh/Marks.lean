import Bsdi.Sh.Words

/-!
# Command substitutions and their marks

The expansion of a word in which each mark runs its own command, and what `argstr` does with the
text of the word and the list of its commands.
-/

namespace Bsdi.Sh.Param

variable {α : Type}

namespace Word

/-- The expansion of a word: each mark that is reached runs its own command. -/
def run (w : World α) : Word α → Flags → State α → Except (State α × List Byte) (State α)
  | .nil, _, s => .ok s
  | .lit c _ rest, flag, s => rest.run w flag (s.put [c])
  | .esc c rest, flag, s => rest.run w flag (s.put (if flag.quotes then [ctlesc, c] else [c]))
  | .mark quoted cmd rest, flag, s =>
    match expbackq w cmd quoted flag s with
    | .error e => .error e
    | .ok s' => rest.run w flag { s' with argbackq := s.argbackq.tail }
  | .simple quoted name _ rest, flag, s =>
    let set := isset name false s.env
    if s.env.uflag ∧ ¬ set then
      .error (s, unboundMessage name)
    else rest.run w flag (putvalue name vsnormal quoted set flag s)
  | .var op nul quoted name _ inner rest, flag, s =>
    let set := isset name nul s.env
    let s' := putvalue name op.code quoted set flag s
    if op.takes set then rest.run w flag (pass s' inner)
    else
      match inner.run w (if op = .minus ∨ op = .plus then flag else Flags.none) s' with
      | .error e => .error e
      | .ok e =>
        let startp := e.dest.drop s.dest.length
        match op with
        | .minus => rest.run w flag e
        | .plus => rest.run w flag e
        | .assign =>
          match e.env.setvar name startp with
          | .error m => .error (e, m)
          | .ok env =>
            rest.run w flag (reassigned op quoted name flag (e.dest.take s.dest.length) env e)
        | .question => .error (e, if inner.isNil then unsetMessage name nul else startp)

/-- Whether an assignment is made whose word has a mark. -/
def loses (w : World α) : Word α → Flags → State α → Bool
  | .nil, _, _ => false
  | .lit c _ rest, flag, s => rest.loses w flag (s.put [c])
  | .esc c rest, flag, s => rest.loses w flag (s.put (if flag.quotes then [ctlesc, c] else [c]))
  | .mark quoted cmd rest, flag, s =>
    match expbackq w cmd quoted flag s with
    | .error _ => false
    | .ok s' => rest.loses w flag { s' with argbackq := s.argbackq.tail }
  | .simple quoted name _ rest, flag, s =>
    let set := isset name false s.env
    if s.env.uflag ∧ ¬ set then false
    else rest.loses w flag (putvalue name vsnormal quoted set flag s)
  | .var op nul quoted name _ inner rest, flag, s =>
    let set := isset name nul s.env
    let s' := putvalue name op.code quoted set flag s
    if op.takes set then rest.loses w flag (pass s' inner)
    else
      let flag' := if op = .minus ∨ op = .plus then flag else Flags.none
      inner.loses w flag' s' ||
        match inner.run w flag' s' with
        | .error _ => false
        | .ok e =>
          match op with
          | .minus => rest.loses w flag e
          | .plus => rest.loses w flag e
          | .assign =>
            match e.env.setvar name (e.dest.drop s.dest.length) with
            | .error _ => false
            | .ok env => inner.marks ≠ [] ||
                rest.loses w flag
                  (reassigned op quoted name flag (e.dest.take s.dest.length) env e)
          | .question => false

end Word

/-! ### The comparison -/

section Loop

variable (w : World α) (ev : List Byte → Flags → State α → Res α (List Byte × State α))
  (flag : Flags) (n : Nat) (fe : Bool) (p : List Byte) (s : State α)

theorem argloop_lit {c : Byte} (hc : Plain c) (hp : p.head? ≠ some tilde) :
    argloop w ev flag (n + 1) fe (c :: p) s = argloop w ev flag n fe p (s.put [c]) := by
  obtain ⟨h₁, h₂, h₃, h₄, h₅, -⟩ := hc.ne
  rw [argloop, if_neg h₃, if_neg h₁, if_neg h₂, if_neg h₄, if_neg h₅, if_neg (fun h => hp h.2.2.1)]

theorem argloop_esc (c : Byte) :
    argloop w ev flag (n + 1) fe (ctlesc :: c :: p) s =
      argloop w ev flag n fe p (s.put (if flag.quotes then [ctlesc, c] else [c])) := rfl

theorem argloop_var :
    argloop w ev flag (n + 1) fe (ctlvar :: p) s =
      Res.andThen (ev p flag s) fun r => argloop w ev flag n fe r.1 r.2 := rfl

theorem argloop_mark (quoted : Bool) {cmd : α} {argbackq : List α}
    (h : s.argbackq = cmd :: argbackq) :
    argloop w ev flag (n + 1) fe (markByte quoted :: p) s =
      Res.andThen (some (expbackq w cmd quoted flag s)) fun s' =>
        argloop w ev flag n fe p { s' with argbackq := argbackq } := by
  cases quoted <;>
  · rw [argloop.eq_def]
    simp only [h]
    rfl

theorem argloop_end (tail : List Byte) (htail : tail = [] ∨ tail.head? = some ctlendvar) :
    argloop w ev flag (n + 1) fe tail s = some (.ok s) := by
  rcases htail with rfl | h
  · rfl
  · cases tail with
    | nil => rfl
    | cons c tail =>
      obtain rfl : c = ctlendvar := by simpa using h
      rfl

end Loop

theorem putvalue_frame (name : List Byte) (subtype : Byte) (quoted set : Bool) (flag : Flags)
    (s : State α) :
    (putvalue name subtype quoted set flag s).argbackq = s.argbackq ∧
      (putvalue name subtype quoted set flag s).ran = s.ran ∧
      (putvalue name subtype quoted set flag s).env = s.env ∧
      (putvalue name subtype quoted set flag s).dest = s.dest ++
        if set = true ∧ subtype ≠ vsplus then inserted name quoted flag s.env else [] := by
  unfold putvalue
  dsimp only
  by_cases hset : set = true ∧ subtype ≠ vsplus
  · simp only [if_pos hset]
    split <;> split <;> exact ⟨rfl, rfl, rfl, rfl⟩
  · simp only [if_neg hset, List.append_nil]
    split <;> split <;> exact ⟨rfl, rfl, rfl, rfl⟩

@[simp] theorem putvalue_argbackq (name : List Byte) (subtype : Byte) (quoted set : Bool)
    (flag : Flags) (s : State α) :
    (putvalue name subtype quoted set flag s).argbackq = s.argbackq :=
  (putvalue_frame name subtype quoted set flag s).1

theorem putvalue_dest (name : List Byte) (subtype : Byte) (quoted set : Bool) (flag : Flags)
    (s : State α) : s.dest <+: (putvalue name subtype quoted set flag s).dest :=
  ⟨_, (putvalue_frame name subtype quoted set flag s).2.2.2.symm⟩

theorem expbackq_dest {w : World α} {cmd : α} {quoted : Bool} {flag : Flags} {s s' : State α}
    (h : expbackq w cmd quoted flag s = .ok s') : s.dest <+: s'.dest := by
  unfold expbackq at h
  cases hrun : w.evalbackcmd cmd s.env with
  | error m => simp [hrun] at h
  | ok r =>
    simp only [hrun, Except.ok.injEq] at h
    subst h
    split <;> exact List.prefix_append _ _

namespace Word

variable {w : World α}

theorem run_argbackq (word : Word α) {flag : Flags} {s s' : State α}
    (h : word.run w flag s = .ok s') : s'.argbackq = s.argbackq.drop word.marks.length := by
  induction word generalizing flag s s' with
  | nil =>
    obtain rfl : s = s' := by simpa [run] using h
    rfl
  | lit c hc rest ih =>
    rw [run] at h
    exact (ih h :)
  | esc c rest ih =>
    rw [run] at h
    exact (ih h :)
  | mark quoted cmd rest ih =>
    rw [run] at h
    cases hrun : expbackq w cmd quoted flag s with
    | error e => simp [hrun] at h
    | ok s₁ =>
      simp only [hrun] at h
      rw [ih h, marks, List.length_cons, ← List.drop_one, List.drop_drop, Nat.add_comm]
  | simple quoted name hname rest ih =>
    simp only [run] at h
    split at h
    · simp at h
    · rw [ih h, putvalue_argbackq, marks]
  | var op nul quoted name hname inner rest ihi ihr =>
    simp only [run] at h
    rw [marks, List.length_append, ← List.drop_drop]
    split at h
    · rw [ihr h, pass, putvalue_argbackq]
    · split at h
      · simp at h
      · rename_i e hinner
        have he := ihi hinner
        rw [putvalue_argbackq] at he
        rw [← he]
        split at h
        · exact ihr h
        · exact ihr h
        · split at h
          · simp at h
          · rw [ihr h, reassigned, putvalue_argbackq]
        · simp at h

theorem marks_of_loses (word : Word α) {flag : Flags} {s : State α}
    (h : word.loses w flag s = true) : word.marks ≠ [] := by
  induction word generalizing flag s with
  | nil => simp [loses] at h
  | lit c hc rest ih =>
    rw [loses] at h
    exact ih h
  | esc c rest ih =>
    rw [loses] at h
    exact ih h
  | mark quoted cmd rest ih => simp [marks]
  | simple quoted name hname rest ih =>
    simp only [loses] at h
    split at h
    · simp at h
    · exact ih h
  | var op nul quoted name hname inner rest ihi ihr =>
    rw [marks, Ne, List.append_eq_nil_iff, not_and_or]
    simp only [loses] at h
    split at h
    · exact Or.inr (ihr h)
    · rcases Bool.or_eq_true_iff.1 h with h | h
      · exact Or.inl (ihi h)
      · split at h
        · simp at h
        · split at h
          · exact Or.inr (ihr h)
          · exact Or.inr (ihr h)
          · split at h
            · simp at h
            · rcases Bool.or_eq_true_iff.1 h with h | h
              · exact Or.inl (by simpa using h)
              · exact Or.inr (ihr h)
          · simp at h

end Word

namespace Word

section alternatives

variable {w : World α} {op : Op} {nul quoted : Bool} {name : List Byte} {hname : Named name}
  {inner rest : Word α} {flag : Flags} {s e : State α}

theorem run_takes (ht : op.takes (isset name nul s.env) = true) :
    (var op nul quoted name hname inner rest).run w flag s =
      rest.run w flag (pass (before op nul quoted name flag s) inner) :=
  if_pos ht

theorem loses_takes (ht : op.takes (isset name nul s.env) = true) :
    (var op nul quoted name hname inner rest).loses w flag s =
      rest.loses w flag (pass (before op nul quoted name flag s) inner) :=
  if_pos ht

theorem run_word (hop : op = .minus ∨ op = .plus) (ht : ¬ op.takes (isset name nul s.env) = true) :
    (var op nul quoted name hname inner rest).run w flag s =
      match inner.run w flag (before op nul quoted name flag s) with
      | .error e => .error e
      | .ok e => rest.run w flag e := by
  rcases hop with rfl | rfl
  · exact (if_neg ht).trans rfl
  · exact (if_neg ht).trans rfl

theorem loses_word (hop : op = .minus ∨ op = .plus)
    (ht : ¬ op.takes (isset name nul s.env) = true) :
    (var op nul quoted name hname inner rest).loses w flag s =
      (inner.loses w flag (before op nul quoted name flag s) ||
        match inner.run w flag (before op nul quoted name flag s) with
        | .error _ => false
        | .ok e => rest.loses w flag e) := by
  rcases hop with rfl | rfl
  · exact (if_neg ht).trans rfl
  · exact (if_neg ht).trans rfl

theorem run_assign (ht : ¬ Op.assign.takes (isset name nul s.env) = true) :
    (var .assign nul quoted name hname inner rest).run w flag s =
      match inner.run w Flags.none (before .assign nul quoted name flag s) with
      | .error e => .error e
      | .ok e =>
        match e.env.setvar name (e.dest.drop s.dest.length) with
        | .error m => .error (e, m)
        | .ok env => rest.run w flag
            (reassigned .assign quoted name flag (e.dest.take s.dest.length) env e) :=
  (if_neg ht).trans rfl

theorem loses_assign (ht : ¬ Op.assign.takes (isset name nul s.env) = true) :
    (var .assign nul quoted name hname inner rest).loses w flag s =
      (inner.loses w Flags.none (before .assign nul quoted name flag s) ||
        match inner.run w Flags.none (before .assign nul quoted name flag s) with
        | .error _ => false
        | .ok e =>
          match e.env.setvar name (e.dest.drop s.dest.length) with
          | .error _ => false
          | .ok env => inner.marks ≠ [] || rest.loses w flag
              (reassigned .assign quoted name flag (e.dest.take s.dest.length) env e)) :=
  (if_neg ht).trans rfl

theorem run_question (ht : ¬ Op.question.takes (isset name nul s.env) = true) :
    (var .question nul quoted name hname inner rest).run w flag s =
      match inner.run w Flags.none (before .question nul quoted name flag s) with
      | .error e => .error e
      | .ok e => .error (e, if inner.isNil then unsetMessage name nul
          else e.dest.drop s.dest.length) :=
  (if_neg ht).trans rfl

theorem loses_question (ht : ¬ Op.question.takes (isset name nul s.env) = true) :
    (var .question nul quoted name hname inner rest).loses w flag s =
      inner.loses w Flags.none (before .question nul quoted name flag s) := by
  refine (if_neg ht).trans ?_
  change (inner.loses w Flags.none (before .question nul quoted name flag s) ||
    match inner.run w Flags.none (before .question nul quoted name flag s) with
    | .error _ => false
    | .ok _ => false) = _
  cases inner.run w Flags.none (before .question nul quoted name flag s)
  · exact Bool.or_false _
  · exact Bool.or_false _

end alternatives

end Word

/-- What `argstr` makes of a text from any list, and from one that starts with the commands of the
word: no more is taken from the list than the word has marks, and less if marks are lost; if none is
lost the word is expanded as it should be. -/
structure Follows (w : World α) (word : Word α) (flag : Flags) (s : State α)
    (res : Except (State α × List Byte) (State α)) : Prop where
  le : ∀ s', res = .ok s' → s.argbackq.length ≤ s'.argbackq.length + word.marks.length
  same : word.marks <+: s.argbackq → word.loses w flag s = false → res = word.run w flag s
  lt : word.marks <+: s.argbackq → word.loses w flag s = true →
    ∀ s', res = .ok s' → s.argbackq.length < s'.argbackq.length + word.marks.length
  dest : ∀ s', res = .ok s' → s.dest <+: s'.dest

namespace Follows

variable {w : World α} {flag : Flags} {s : State α}
  {res : Except (State α × List Byte) (State α)}

theorem of_error {word : Word α} {e : State α × List Byte} (h : word.marks <+: s.argbackq →
    word.loses w flag s = false → word.run w flag s = .error e) :
    Follows w word flag s (.error e) :=
  ⟨fun _ h => by simp at h, fun hp hl => (h hp hl).symm, fun _ _ _ h => by simp at h,
    fun _ h => by simp at h⟩

theorem mark {quoted : Bool} {cmd cmd' : α} {rest : Word α} {argbackq : List α}
    (hbq : s.argbackq = cmd' :: argbackq)
    (h : match expbackq w cmd' quoted flag s with
      | .error e => res = .error e
      | .ok s' => Follows w rest flag { s' with argbackq := argbackq } res) :
    Follows w (.mark quoted cmd rest) flag s res := by
  cases hrun : expbackq w cmd' quoted flag s with
  | error e =>
    simp only [hrun] at h
    subst h
    refine of_error fun hp _ => ?_
    obtain ⟨rfl, -⟩ := List.cons_prefix_cons.1 (hbq ▸ hp)
    simp only [Word.run, hrun]
  | ok s₁ =>
    simp only [hrun] at h
    have hlen : s.argbackq.length = argbackq.length + 1 := by simp [hbq]
    refine ⟨fun s' hs' => ?_, fun hp hl => ?_, fun hp hl s' hs' => ?_,
      fun s' hs' => (expbackq_dest hrun).trans (h.dest s' hs')⟩
    · have hle := h.le s' hs'
      simp only [Word.marks, List.length_cons] at hle ⊢
      omega
    · obtain ⟨rfl, hp⟩ := List.cons_prefix_cons.1 (hbq ▸ hp)
      simp only [Word.loses, hrun, hbq, List.tail_cons] at hl
      simpa only [Word.run, hrun, hbq, List.tail_cons] using h.same hp hl
    · obtain ⟨rfl, hp⟩ := List.cons_prefix_cons.1 (hbq ▸ hp)
      simp only [Word.loses, hrun, hbq, List.tail_cons] at hl
      have hlt := h.lt hp hl s' hs'
      simp only [Word.marks, List.length_cons] at hlt ⊢
      omega

end Follows

theorem prefix_drop {l₁ l₂ l : List α} (h : l₁ ++ l₂ <+: l) :
    l₁ <+: l ∧ l₂ <+: l.drop l₁.length := by
  obtain ⟨t, rfl⟩ := h
  exact ⟨⟨l₂ ++ t, by simp⟩, ⟨t, by simp⟩⟩

theorem follows (w : World α) (word : Word α) (flag : Flags) (n k : Nat) (fe : Bool)
    (tail : List Byte) (s : State α) (hn : word.size ≤ n) (hk : word.size ≤ k)
    (htail : tail = [] ∨ tail.head? = some ctlendvar)
    (hlen : word.marks.length ≤ s.argbackq.length) :
    ∃ res, argloop w (evalvar w n) flag k fe (word.text ++ tail) s = some res ∧
      Follows w word flag s res := by
  induction word generalizing flag n k fe tail s with
  | nil =>
    obtain ⟨k, rfl⟩ := Nat.exists_eq_add_of_le' hk
    exact ⟨.ok s, argloop_end _ _ _ _ _ _ _ htail, ⟨fun s' h => by
      obtain rfl : s = s' := by simpa using h
      exact Nat.le_add_right _ _, fun _ _ => rfl, fun _ h => by simp [Word.loses] at h,
      fun s' h => by
        obtain rfl : s = s' := by simpa using h
        exact List.prefix_rfl⟩⟩
  | lit c hc rest ih =>
    obtain ⟨k, rfl⟩ := Nat.exists_eq_add_of_le' (Nat.le_trans (Nat.le_add_left 1 _) hk)
    obtain ⟨res, hres, hf⟩ := ih flag n k fe tail (s.put [c])
      (Nat.le_trans (Nat.le_succ _) hn) (Nat.le_of_succ_le_succ hk) htail hlen
    exact ⟨res, (argloop_lit _ _ _ _ _ _ _ hc (head_text rest tail htail)).trans hres,
      ⟨hf.le, hf.same, hf.lt, fun s' h => (List.prefix_append _ _).trans (hf.dest s' h)⟩⟩
  | esc c rest ih =>
    obtain ⟨k, rfl⟩ := Nat.exists_eq_add_of_le' (Nat.le_trans (Nat.le_add_left 1 _) hk)
    obtain ⟨res, hres, hf⟩ := ih flag n k fe tail
      (s.put (if flag.quotes then [ctlesc, c] else [c]))
      (Nat.le_trans (Nat.le_succ _) hn) (Nat.le_of_succ_le_succ hk) htail hlen
    exact ⟨res, (argloop_esc _ _ _ _ _ _ _ c).trans hres,
      ⟨hf.le, hf.same, hf.lt, fun s' h => (List.prefix_append _ _).trans (hf.dest s' h)⟩⟩
  | mark quoted cmd rest ih =>
    obtain ⟨k, rfl⟩ := Nat.exists_eq_add_of_le' (Nat.le_trans (Nat.le_add_left 1 _) hk)
    cases hbq : s.argbackq with
    | nil => simp [hbq, Word.marks] at hlen
    | cons cmd' argbackq =>
      have hloop := argloop_mark w (evalvar w n) flag k fe (rest.text ++ tail) s quoted hbq
      cases hrun : expbackq w cmd' quoted flag s with
      | error e =>
        exact ⟨.error e, by rw [Word.text, List.cons_append, hloop, hrun]; rfl,
          .mark hbq (by simp only [hrun])⟩
      | ok s₁ =>
        obtain ⟨res, hres, hf⟩ := ih flag n k fe tail { s₁ with argbackq := argbackq }
          (Nat.le_trans (Nat.le_succ _) hn) (Nat.le_of_succ_le_succ hk) htail
          (by simpa [hbq, Word.marks] using hlen)
        exact ⟨res, by rw [Word.text, List.cons_append, hloop, hrun]; exact hres,
          .mark hbq (by simpa only [hrun] using hf)⟩
  | simple quoted name hname rest ih =>
    obtain ⟨k, rfl⟩ := Nat.exists_eq_add_of_le' (Nat.le_trans (Nat.le_add_left 1 _) hk)
    obtain ⟨n, rfl⟩ := Nat.exists_eq_add_of_le' (Nat.le_trans (Nat.le_add_left 1 _) hn)
    have hloop := argloop_var w (evalvar w (n + 1)) flag k fe
      (varflags vsnormal false quoted :: (name ++ 61 :: (rest.text ++ tail))) s
    rw [evalvar, evalvarStep_simple _ hname] at hloop
    have htext : (Word.simple quoted name hname rest).text ++ tail =
        ctlvar :: varflags vsnormal false quoted :: (name ++ 61 :: (rest.text ++ tail)) := by
      simp [Word.text]
    by_cases hu : s.env.uflag = true ∧ ¬ isset name false s.env = true
    · rw [if_pos hu] at hloop
      exact ⟨_, by rw [htext, hloop]; rfl, .of_error fun _ _ => by simp only [Word.run, if_pos hu]⟩
    · rw [if_neg hu] at hloop
      obtain ⟨res, hres, hf⟩ := ih flag (n + 1) k fe tail
        (putvalue name vsnormal quoted (isset name false s.env) flag s)
        (Nat.le_trans (Nat.le_succ _) hn) (Nat.le_of_succ_le_succ hk) htail
        (by simpa [Word.marks] using hlen)
      refine ⟨res, by rw [htext, hloop]; exact hres, ⟨?_, ?_, ?_,
        fun s' h => (putvalue_dest _ _ _ _ _ _).trans (hf.dest s' h)⟩⟩
      · simpa [Word.marks] using hf.le
      · simpa only [Word.run, Word.loses, if_neg hu, Word.marks, putvalue_argbackq] using hf.same
      · simpa only [Word.loses, if_neg hu, Word.marks, putvalue_argbackq] using hf.lt
  | var op nul quoted name hname inner rest ihi ihr =>
    simp only [Word.size] at hn hk
    obtain ⟨k, rfl⟩ := Nat.exists_eq_add_of_le' (show 1 ≤ k by omega)
    obtain ⟨n, rfl⟩ := Nat.exists_eq_add_of_le' (show 1 ≤ n by omega)
    have hend : (ctlendvar :: (rest.text ++ tail)).head? = some ctlendvar := rfl
    have htext : (Word.var op nul quoted name hname inner rest).text ++ tail = ctlvar ::
        varflags op.code nul quoted ::
          (name ++ 61 :: (inner.text ++ ctlendvar :: (rest.text ++ tail))) := by
      simp [Word.text]
    have hloop := argloop_var w (evalvar w (n + 1)) flag k fe (varflags op.code nul quoted ::
      (name ++ 61 :: (inner.text ++ ctlendvar :: (rest.text ++ tail)))) s
    rw [evalvar, evalvarStep_var _ hname] at hloop
    simp only [head_text_isNil] at hloop
    rw [htext, hloop]
    have hbq : (Word.before op nul quoted name flag s).argbackq = s.argbackq :=
      putvalue_argbackq _ _ _ _ _ _
    simp only [Word.marks, List.length_append] at hlen
    by_cases ht : op.takes (isset name nul s.env) = true
    · -- the word is skipped
      rw [if_pos ht, finish_text op false inner _ _ (fun _ => by rw [hbq]; omega)]
      obtain ⟨res, hres, hf⟩ := ihr flag (n + 1) k fe tail
        (Word.pass (Word.before op nul quoted name flag s) inner) (by omega) (by omega) htail
        (by simp only [Word.pass, hbq, List.length_drop]; omega)
      refine ⟨res, hres, ⟨fun s' h => ?_, fun hp hl => ?_, fun hp hl s' h => ?_,
        fun s' h => (putvalue_dest _ _ _ _ _ _).trans (hf.dest s' h)⟩⟩
      · have hle := hf.le s' h
        simp only [Word.pass, hbq, List.length_drop, Word.marks, List.length_append] at hle ⊢
        omega
      · rw [Word.run_takes ht]
        rw [Word.loses_takes ht] at hl
        refine hf.same ?_ hl
        simpa only [Word.pass, hbq] using (prefix_drop hp).2
      · rw [Word.loses_takes ht] at hl
        have hlt := hf.lt (by simpa only [Word.pass, hbq] using (prefix_drop hp).2) hl s' h
        simp only [Word.pass, hbq, List.length_drop, Word.marks, List.length_append] at hlt ⊢
        omega
    · rw [if_neg ht]
      by_cases hop : op = .minus ∨ op = .plus
      · -- the word is expanded in place
        rw [if_pos hop, argstr_text _ _ _ _ _ (Or.inr hend)]
        obtain ⟨ri, hri, hfi⟩ := ihi flag n n true _ (Word.before op nul quoted name flag s)
          (by omega) (by omega) (Or.inr hend) (by rw [hbq]; omega)
        rw [hri]
        cases ri with
        | error e =>
          refine ⟨.error e, rfl, .of_error fun hp hl => ?_⟩
          rw [Word.loses_word hop ht, Bool.or_eq_false_iff] at hl
          rw [Word.run_word hop ht, ← hfi.same (hbq ▸ (prefix_drop hp).1) hl.1]
        | ok e =>
          have hle := hfi.le e rfl
          rw [hbq] at hle
          obtain ⟨res, hres, hf⟩ := ihr flag (n + 1) k fe tail e (by omega) (by omega) htail
            (by omega)
          refine ⟨res, ?_, ⟨fun s' h => ?_, fun hp hl => ?_, fun hp hl s' h => ?_, fun s' h =>
            (putvalue_dest _ _ _ _ _ _).trans ((hfi.dest e rfl).trans (hf.dest s' h))⟩⟩
          · simp only [Res.andThen, finish_text op true inner _ e (fun h => by cases h), if_true]
            exact hres
          · have := hf.le s' h
            simp only [Word.marks, List.length_append]
            omega
          · rw [Word.loses_word hop ht, Bool.or_eq_false_iff] at hl
            have hrun := hfi.same (hbq ▸ (prefix_drop hp).1) hl.1
            rw [← hrun] at hl
            rw [Word.run_word hop ht, ← hrun]
            refine hf.same ?_ hl.2
            rw [inner.run_argbackq hrun.symm, hbq]
            exact (prefix_drop hp).2
          · rw [Word.loses_word hop ht] at hl
            simp only [Word.marks, List.length_append]
            cases hli : inner.loses w flag (Word.before op nul quoted name flag s) with
            | true =>
              have hlt := hfi.lt (hbq ▸ (prefix_drop hp).1) hli e rfl
              have := hf.le s' h
              rw [hbq] at hlt
              omega
            | false =>
              have hrun := hfi.same (hbq ▸ (prefix_drop hp).1) hli
              rw [hli, ← hrun, Bool.false_or] at hl
              have hlt := hf.lt (by
                rw [inner.run_argbackq hrun.symm, hbq]
                exact (prefix_drop hp).2) hl s' h
              omega
      · rw [if_neg hop, argstr_text _ _ _ _ _ (Or.inr hend)]
        obtain ⟨ri, hri, hfi⟩ := ihi Flags.none n n true _ (Word.before op nul quoted name flag s)
          (by omega) (by omega) (Or.inr hend) (by rw [hbq]; omega)
        rw [hri]
        cases op with
        | minus => exact absurd (Or.inl rfl) hop
        | plus => exact absurd (Or.inr rfl) hop
        | question =>
          cases ri with
          | error e =>
            refine ⟨.error e, rfl, .of_error fun hp hl => ?_⟩
            rw [Word.loses_question ht] at hl
            rw [Word.run_question ht, ← hfi.same (hbq ▸ (prefix_drop hp).1) hl]
          | ok e =>
            refine ⟨_, rfl, .of_error fun hp hl => ?_⟩
            rw [Word.loses_question ht] at hl
            rw [Word.run_question ht, ← hfi.same (hbq ▸ (prefix_drop hp).1) hl]
        | assign =>
          cases ri with
          | error e =>
            refine ⟨.error e, rfl, .of_error fun hp hl => ?_⟩
            rw [Word.loses_assign ht, Bool.or_eq_false_iff] at hl
            rw [Word.run_assign ht, ← hfi.same (hbq ▸ (prefix_drop hp).1) hl.1]
          | ok e =>
            cases hset : e.env.setvar name (e.dest.drop s.dest.length) with
            | error m =>
              refine ⟨.error (e, m), by simp only [Res.andThen, if_true, hset],
                .of_error fun hp hl => ?_⟩
              rw [Word.loses_assign ht, Bool.or_eq_false_iff] at hl
              rw [Word.run_assign ht, ← hfi.same (hbq ▸ (prefix_drop hp).1) hl.1]
              simp only [hset]
            | ok env =>
              -- the list is put back, and the marks of the word are not passed again
              obtain ⟨res, hres, hf⟩ := ihr flag (n + 1) k fe tail
                (Word.reassigned .assign quoted name flag (e.dest.take s.dest.length) env
                  { e with argbackq := s.argbackq }) (by omega) (by omega) htail
                (by simp only [Word.reassigned, putvalue_argbackq]; omega)
              have hrestored : (Word.reassigned .assign quoted name flag
                  (e.dest.take s.dest.length) env { e with argbackq := s.argbackq }).argbackq =
                  s.argbackq := by
                simp only [Word.reassigned, putvalue_argbackq]
              have hstays : s.dest <+: e.dest.take s.dest.length := by
                have := (putvalue_dest _ _ _ _ _ _).trans (hfi.dest e rfl)
                exact ⟨[], (List.append_nil _).trans (List.prefix_iff_eq_take.1 this)⟩
              refine ⟨res, ?_, ⟨fun s' h => ?_, fun hp hl => ?_, fun hp hl s' h => ?_,
                fun s' h => hstays.trans ((putvalue_dest _ _ _ _ _ _).trans (hf.dest s' h))⟩⟩
              · simp only [Res.andThen, if_true, hset]
                rw [finish_text .assign true inner _ _ (fun h => by cases h)]
                exact hres
              · have hle := hf.le s' h
                rw [hrestored] at hle
                simp only [Word.marks, List.length_append]
                omega
              · rw [Word.loses_assign ht, Bool.or_eq_false_iff] at hl
                have hrun := hfi.same (hbq ▸ (prefix_drop hp).1) hl.1
                rw [← hrun] at hl
                simp only [hset, Bool.or_eq_false_iff, decide_eq_false_iff_not, not_not] at hl
                obtain ⟨-, hnone, hl⟩ := hl
                have he : e.argbackq = s.argbackq := by
                  rw [inner.run_argbackq hrun.symm, hnone, hbq]
                  rfl
                rw [← he] at hf
                rw [Word.run_assign ht, ← hrun]
                simp only [hset]
                refine hf.same ?_ hl
                simp only [Word.reassigned, putvalue_argbackq, he]
                simpa [Word.marks, hnone] using hp
              · have hle := hf.le s' h
                rw [hrestored] at hle
                simp only [Word.marks, List.length_append]
                by_cases hnone : inner.marks = []
                · have hli : inner.loses w Flags.none
                      (Word.before .assign nul quoted name flag s) = false :=
                    Bool.eq_false_iff.2 fun h => inner.marks_of_loses h hnone
                  have hrun := hfi.same (hbq ▸ (prefix_drop hp).1) hli
                  have he : e.argbackq = s.argbackq := by
                    rw [inner.run_argbackq hrun.symm, hnone, hbq]
                    rfl
                  rw [Word.loses_assign ht, hli, ← hrun] at hl
                  simp only [hset, hnone, Bool.false_or, ne_eq, not_true_eq_false,
                    decide_false] at hl
                  rw [← he] at hf hp ⊢
                  have hlt := hf.lt (by
                    simp only [Word.reassigned, putvalue_argbackq]
                    simpa [Word.marks, hnone] using hp) hl s' h
                  simp only [Word.reassigned, putvalue_argbackq] at hlt
                  omega
                · have := List.length_pos_iff.2 hnone
                  omega

/-- The state with the commands of a word in the list, as the parser leaves them. -/
def given (word : Word α) (s : State α) (more : List α) : State α :=
  { s with argbackq := word.marks ++ more }

/-- The commands that `argstr` runs for a word are those of the marks that are reached, and on
return the list has been moved on by the marks of the word. -/
def Paired (w : World α) (word : Word α) (flag : Flags) (s : State α) (more : List α) : Prop :=
  ∃ turns, ∀ n ≥ turns, ∃ res, expand w n word.text flag (given word s more) = some res ∧
    match word.run w flag (given word s more) with
    | .ok r => ∃ s', res = .ok s' ∧ s'.ran = r.ran ∧ s'.argbackq = more
    | .error e => ∃ s' m, res = .error (s', m) ∧ s'.ran = e.1.ran

section paired

variable (w : World α) (word : Word α) (flag : Flags) (s : State α) (more : List α)

theorem expand_follows {n : Nat} (hn : word.size ≤ n) :
    ∃ res, expand w n word.text flag (given word s more) = some res ∧
      Follows w word flag (given word s more) res := by
  obtain ⟨res, hres, hf⟩ := follows w word flag n n true [] (given word s more) hn hn (Or.inl rfl)
    (by rw [given, List.length_append]; omega)
  refine ⟨res, ?_, hf⟩
  rw [← argstr_text w _ n word [] (Or.inl rfl), List.append_nil] at hres
  exact hres

theorem paired_of_kept (hl : word.loses w flag (given word s more) = false) :
    Paired w word flag s more := by
  refine ⟨word.size, fun n hn => ?_⟩
  obtain ⟨res, hres, hf⟩ := expand_follows w word flag s more hn
  have hsame := hf.same ⟨more, rfl⟩ hl
  refine ⟨res, hres, ?_⟩
  cases hrun : word.run w flag (given word s more) with
  | error e => exact ⟨e.1, e.2, hsame.trans hrun, rfl⟩
  | ok r =>
    refine ⟨r, hsame.trans hrun, rfl, ?_⟩
    rw [word.run_argbackq hrun, given, List.drop_left]

theorem not_paired_of_loses {r : State α} (hrun : word.run w flag (given word s more) = .ok r)
    (hl : word.loses w flag (given word s more) = true) : ¬ Paired w word flag s more := by
  rintro ⟨turns, hpaired⟩
  obtain ⟨res, hres, hpaired⟩ := hpaired (max turns word.size) (Nat.le_max_left _ _)
  obtain ⟨res', hres', hf⟩ := expand_follows w word flag s more (Nat.le_max_right turns word.size)
  obtain rfl : res = res' := Option.some.inj (hres.symm.trans hres')
  rw [hrun] at hpaired
  obtain ⟨s', rfl, -, hlist⟩ := hpaired
  have hlt := hf.lt ⟨more, rfl⟩ hl s' rfl
  rw [hlist, given, List.length_append] at hlt
  omega

/-- The marks of a word and its commands stay together exactly as long as no assignment is made
whose word has a mark. (Where the shell gives up there is no list to compare.) -/
theorem paired_iff : (word.loses w flag (given word s more) = false → Paired w word flag s more) ∧
    ∀ r, word.run w flag (given word s more) = .ok r →
      (Paired w word flag s more ↔ word.loses w flag (given word s more) = false) :=
  ⟨paired_of_kept w word flag s more, fun _ hrun =>
    ⟨fun hpaired => Bool.eq_false_iff.2 fun hl =>
      not_paired_of_loses w word flag s more hrun hl hpaired, paired_of_kept w word flag s more⟩⟩

end paired

def blank : Env := ⟨fun _ => none, fun _ => none, [], [], fun _ => none, by simp, false⟩

def quiet : World Nat := ⟨fun _ env => .ok ([], env), fun _ s => some (.ok s), fun _ => none⟩

/-- In `${v=`0`}`1`` the second mark runs the first command again. -/
theorem not_paired : ¬ ∀ (word : Word Nat) (flag : Flags) (s : State Nat) (more : List Nat),
    Paired quiet word flag s more := fun h =>
  not_paired_of_loses quiet
    (.var .assign false false [118] (Or.inl ⟨rfl, List.forall_mem_singleton.2 rfl⟩)
      (.mark false 0 .nil) (.mark false 1 .nil))
    Flags.none ⟨⟨[], [], []⟩, blank, []⟩ [] rfl rfl (h _ _ _ _)

end Bsdi.Sh.Param
