import Bsdi.Sh.Marks

/-!
# The operators of parameters

What `${p-w}`, `${p+w}`, `${p=w}` and `${p?w}` mean, with and without a colon, and when `evalvar`
does it.
-/

namespace Bsdi.Sh.Param

variable {α : Type}

/-- A variable, a positional parameter, `@` or `*`. -/
def Parameter (name : List Byte) : Prop :=
  (isName (name.headD 0) = true ∧ ∀ c ∈ name, isInName c = true) ∨
    ∃ c, name = [c] ∧ ((49 ≤ c ∧ c ≤ 57) ∨ c = 64 ∨ c = 42)

/-- The value of a parameter, or `none` where it is unset. -/
def value (name : List Byte) (env : Env) : Option (List Byte) :=
  if isName (name.headD 0) then env.vars name
  else if name = [64] ∨ name = [42] then
    if env.params = [] then none else some ([32].intercalate env.params)
  else env.params[(name.headD 0).toNat - 49]?

def used (nul : Bool) (v : Option (List Byte)) : Option (List Byte) :=
  if nul ∧ v = some [] then none else v

/-- The text after the substitution, what the string then is, and the variables. -/
def Gives (p dest : List Byte) (env : Env)
    (res : Except (State α × List Byte) (List Byte × State α)) : Prop :=
  ∃ s', res = .ok (p, s') ∧ s'.dest = dest ∧ s'.env = env

def Substitutes (p : List Byte) (word : Except (State α × List Byte) (State α))
    (res : Except (State α × List Byte) (List Byte × State α)) : Prop :=
  match word with
  | .error e => res = .error e
  | .ok e => Gives p e.dest e.env res

def Env.assigned (env : Env) (name text : List Byte) : Env :=
  { env with vars := fun v => if v = name then some text else env.vars v }

/-- The expansion of the word is assigned, if the parameter is a variable that can be set, and the
new value is substituted. -/
def Assigns (p name : List Byte) (quoted : Bool) (flag : Flags) (dest : List Byte)
    (word : Except (State α × List Byte) (State α))
    (res : Except (State α × List Byte) (List Byte × State α)) : Prop :=
  match word with
  | .error e => res = .error e
  | .ok e =>
    let text := e.dest.drop dest.length
    if isName (name.headD 0) ∧ e.env.refused name = none then
      Gives p (dest ++ escaped flag.quotes (quoteTable quoted) text)
        (e.env.assigned name text) res
    else ∃ m, res = .error (e, m)

/-- The shell gives up with the expansion of the word, or with a message where there is none. -/
def Complains (name : List Byte) (nul isNil : Bool) (dest : List Byte)
    (word : Except (State α × List Byte) (State α))
    (res : Except (State α × List Byte) (List Byte × State α)) : Prop :=
  match word with
  | .error e => res = .error e
  | .ok e =>
    res = .error (e, if isNil then unsetMessage name nul else e.dest.drop dest.length)

/-- What a substitution means; `word` is the expansion of its word. -/
def Meant (op : Op) (nul quoted : Bool) (name : List Byte) (isNil : Bool) (p : List Byte)
    (flag : Flags) (s : State α) (word : Flags → Except (State α × List Byte) (State α))
    (res : Except (State α × List Byte) (List Byte × State α)) : Prop :=
  match op, used nul (value name s.env) with
  | .plus, none => Gives p s.dest s.env res
  | .plus, some _ => Substitutes p (word flag) res
  | .minus, none => Substitutes p (word flag) res
  | .assign, none => Assigns p name quoted flag s.dest (word Flags.none) res
  | .question, none => Complains name nul isNil s.dest (word Flags.none) res
  | _, some _ => Gives p (s.dest ++ inserted name quoted flag s.env) s.env res

/-- `evalvar` does what the substitution means, whatever its word is. -/
def Right (w : World α) (op : Op) (nul quoted : Bool) (name : List Byte) (flag : Flags)
    (s : State α) : Prop :=
  ∀ (inner : Word α) (p : List Byte), inner.marks <+: s.argbackq →
    ∃ turns, ∀ n ≥ turns, ∃ word res,
      (∀ f, argstr w (evalvar w n) n (inner.text ++ ctlendvar :: p) f s = some (word f)) ∧
      evalvar w (n + 1) (varflags op.code nul quoted ::
        (name ++ 61 :: (inner.text ++ ctlendvar :: p))) flag s = some res ∧
      Meant op nul quoted name inner.isNil p flag s word res

section

variable {name : List Byte}

theorem Parameter.named (h : Parameter name) : Named name := by
  refine h.imp_right fun ⟨c, hname, hc⟩ => ⟨c, ?_, hname⟩
  rcases hc with ⟨h₁, h₂⟩ | rfl | rfl
  · have h₀ : (48 : Byte) ≤ c := UInt8.le_trans (by decide) h₁
    simp [isSpecial, isDigit, h₀, h₂]
  · rfl
  · rfl

theorem Parameter.special (h : Parameter name) (hs : isName (name.headD 0) = false) :
    ∃ c, name = [c] ∧ ((49 ≤ c ∧ c ≤ 57) ∨ c = 64 ∨ c = 42) :=
  h.resolve_left fun h => absurd h.1 (by rw [hs]; exact Bool.false_ne_true)

theorem digit_ne {c : Byte} (h : 49 ≤ c ∧ c ≤ 57) :
    ¬ (c = 64 ∨ c = 42) ∧ c ≠ 48 ∧ c ≠ 33 := by
  obtain ⟨h₁, h₂⟩ := h
  refine ⟨?_, ?_, ?_⟩
  · rintro (rfl | rfl)
    · exact absurd h₂ (by decide)
    · exact absurd h₁ (by decide)
  · rintro rfl
    exact absurd h₁ (by decide)
  · rintro rfl
    exact absurd h₁ (by decide)

theorem digit_toNat {c : Byte} (h : 49 ≤ c ∧ c ≤ 57) : 49 ≤ c.toNat :=
  UInt8.le_iff_toNat_le.1 h.1

theorem value_digit {c : Byte} (hc : 49 ≤ c ∧ c ≤ 57) (hs : isName c = false) (env : Env) :
    value [c] env = env.params[c.toNat - 49]? := by
  have hne : ¬ ([c] = [64] ∨ [c] = [42]) := by simpa using (digit_ne hc).1
  simp only [value, List.headD_cons, hs, Bool.false_eq_true, if_false, if_neg hne]

theorem value_all {name : List Byte} (h : name = [64] ∨ name = [42]) (env : Env) :
    value name env = if env.params = [] then none else some ([32].intercalate env.params) := by
  have hs : ¬ isName (name.headD 0) = true := by rcases h with rfl | rfl <;> decide
  rw [value, if_neg hs, if_pos h]

theorem isset_special (h : Parameter name) (hs : isName (name.headD 0) = false) (nul : Bool)
    (env : Env) : isset name nul env = (value name env).isSome := by
  have hspecial : isset name nul env = varisset (name.headD 0) env := by
    rw [isset, if_neg (by rw [hs]; exact Bool.false_ne_true)]
  rw [hspecial]
  obtain ⟨c, rfl, hc⟩ := h.special hs
  rcases hc with hc | hc
  · obtain ⟨hne, -, hbang⟩ := digit_ne hc
    have hnat := digit_toNat hc
    rw [value_digit hc hs, List.headD_cons, varisset, if_neg hbang, if_neg hne, if_pos hc]
    cases hget : env.params[c.toNat - 49]? with
    | none =>
      have := List.getElem?_eq_none_iff.1 hget
      exact decide_eq_false (by omega)
    | some v =>
      obtain ⟨hlt, -⟩ := List.getElem?_eq_some_iff.1 hget
      exact decide_eq_true (by omega)
  · have hbang : c ≠ 33 := by rcases hc with rfl | rfl <;> decide
    rw [value_all (by simpa using hc), List.headD_cons, varisset, if_neg hbang, if_pos hc]
    cases env.params <;> rfl

theorem inserted_null (h : Parameter name) (hs : isName (name.headD 0) = false) {env : Env}
    (hv : value name env = some []) (quoted : Bool) (flag : Flags) :
    inserted name quoted flag env = [] := by
  rw [inserted, if_neg (by rw [hs]; exact Bool.false_ne_true)]
  obtain ⟨c, rfl, hc⟩ := h.special hs
  rw [List.headD_cons]
  rcases hc with hc | hc
  · obtain ⟨hne, hzero, -⟩ := digit_ne hc
    rw [value_digit hc hs] at hv
    simp only [varvalue, if_neg hne, if_neg hzero, if_pos hc, List.getD_eq_getElem?_getD, hv]
    rfl
  · rw [value_all (by simpa using hc)] at hv
    simp only [varvalue, if_pos hc]
    -- two parameters or more have a separator between them
    match hparams : env.params with
    | [] => rfl
    | [v] =>
      obtain rfl : v = [] := by simpa [hparams] using hv
      rfl
    | v :: v' :: vs => simp [hparams, List.intercalate_cons_cons] at hv

theorem isset_eq (h : Parameter name) (nul : Bool) (env : Env)
    (hok : ¬ (isName (name.headD 0) = false ∧ nul = true ∧ value name env = some [])) :
    isset name nul env = (used nul (value name env)).isSome := by
  cases hs : isName (name.headD 0) with
  | true =>
    simp only [isset, value, used, hs, if_true]
    cases env.vars name with
    | none => simp
    | some v => cases nul <;> cases v <;> simp
  | false =>
    have hkeep : used nul (value name env) = value name env :=
      if_neg fun hnul => hok ⟨hs, hnul.1, hnul.2⟩
    rw [hkeep, isset_special h hs]

theorem isset_null (h : Parameter name) {nul : Bool} {env : Env}
    (hbad : isName (name.headD 0) = false ∧ nul = true ∧ value name env = some []) :
    isset name nul env = true ∧ used nul (value name env) = none := by
  obtain ⟨hs, rfl, hv⟩ := hbad
  rw [isset_special h hs, hv]
  exact ⟨rfl, rfl⟩

end

section

variable (w : World α) {op : Op} {nul quoted : Bool} {name : List Byte} {flag : Flags} {s : State α}

theorem before_eq (ht : ¬ op.takes (isset name nul s.env) = true) :
    Word.before op nul quoted name flag s = s := by
  have hput : ¬ (isset name nul s.env = true ∧ op.code ≠ vsplus) := by
    cases op <;> simp_all [Op.takes, Op.code, vsplus, vsminus, vsquestion, vsassign]
  have hset : ¬ ((if op.code = vsplus then !isset name nul s.env else isset name nul s.env) = true ∨
      op.code = vsnormal) := by
    rintro (h | h)
    · cases op <;> simp_all [Op.takes, Op.code, vsplus, vsminus, vsquestion, vsassign]
    · exact op.code_ne h
  rw [Word.before, putvalue]
  simp only [if_neg hput, hset, and_false, if_false]

theorem argstr_word (inner : Word α) (p : List Byte) (hmarks : inner.marks <+: s.argbackq) {n : Nat}
    (hn : inner.size ≤ n) : ∃ word : Flags → Except (State α × List Byte) (State α),
      (∀ f, argstr w (evalvar w n) n (inner.text ++ ctlendvar :: p) f s = some (word f)) ∧
      ∀ f e, word f = .ok e → s.dest <+: e.dest := by
  have h : ∀ f, ∃ res, argstr w (evalvar w n) n (inner.text ++ ctlendvar :: p) f s = some res ∧
      ∀ e, res = .ok e → s.dest <+: e.dest := fun f => by
    obtain ⟨res, hres, hf⟩ := follows w inner f n n true (ctlendvar :: p) s hn hn (Or.inr rfl)
      hmarks.length_le
    exact ⟨res, (argstr_text w _ n inner _ (Or.inr rfl) f s).trans hres, hf.dest⟩
  choose word hword hdest using h
  exact ⟨word, hword, hdest⟩

theorem evalvar_word (op : Op) (nul quoted : Bool) (flag : Flags) (hname : Named name)
    (inner : Word α) (p : List Byte) (hmarks : inner.marks <+: s.argbackq) {n : Nat}
    {word : Flags → Except (State α × List Byte) (State α)}
    (hword : ∀ f, argstr w (evalvar w n) n (inner.text ++ ctlendvar :: p) f s = some (word f)) :
    evalvar w (n + 1) (varflags op.code nul quoted ::
        (name ++ 61 :: (inner.text ++ ctlendvar :: p))) flag s =
      if op.takes (isset name nul s.env) then
        some (.ok (p, Word.pass (Word.before op nul quoted name flag s) inner))
      else if op = .minus ∨ op = .plus then
        some ((word flag).map fun e => (p, e))
      else
        match word Flags.none with
        | .error e => some (.error e)
        | .ok e =>
          if op = .assign then
            match e.env.setvar name (e.dest.drop s.dest.length) with
            | .error m => some (.error (e, m))
            | .ok env => some (.ok (p, Word.reassigned op quoted name flag
                (e.dest.take s.dest.length) env { e with argbackq := s.argbackq }))
          else some (.error (e, if inner.isNil then unsetMessage name nul
            else e.dest.drop s.dest.length)) := by
  rw [evalvar, evalvarStep_var _ hname]
  simp only [head_text_isNil]
  by_cases ht : op.takes (isset name nul s.env) = true
  · rw [if_pos ht, if_pos ht, finish_text op false inner _ _ (fun _ => by
      rw [Word.before, putvalue_argbackq]
      exact hmarks.length_le)]
    rfl
  · rw [if_neg ht, if_neg ht, before_eq ht, hword, hword]
    by_cases hop : op = .minus ∨ op = .plus
    · rw [if_pos hop, if_pos hop]
      cases word flag with
      | error e => rfl
      | ok e => exact finish_text op true inner p e (fun h => by cases h)
    · rw [if_neg hop, if_neg hop]
      cases word Flags.none with
      | error e => rfl
      | ok e =>
        simp only [Res.andThen]
        split
        · cases e.env.setvar name (e.dest.drop s.dest.length) with
          | error m => rfl
          | ok env => exact finish_text op true inner p _ (fun h => by cases h)
        · rfl

theorem gives_before (op : Op) (nul quoted : Bool) (name : List Byte) (flag : Flags) (s : State α)
    (inner : Word α) (p : List Byte) :
    Gives p (s.dest ++ if isset name nul s.env = true ∧ op.code ≠ vsplus
        then inserted name quoted flag s.env else []) s.env
      (.ok (p, Word.pass (Word.before op nul quoted name flag s) inner)) := by
  obtain ⟨-, -, henv, hdest⟩ :=
    putvalue_frame name op.code quoted (isset name nul s.env) flag s
  exact ⟨_, rfl, hdest, henv⟩

theorem substitutes_map (p : List Byte) (word : Except (State α × List Byte) (State α)) :
    Substitutes p word (word.map fun e => (p, e)) := by
  cases word with
  | error e => rfl
  | ok e => exact ⟨e, rfl, rfl, rfl⟩

theorem complains_error (name : List Byte) (nul isNil : Bool) (dest : List Byte)
    (word : Except (State α × List Byte) (State α)) :
    ∃ res : Except (State α × List Byte) (List Byte × State α),
      (match word with
        | .error e => some (.error e)
        | .ok e => some (.error
            (e, if isNil then unsetMessage name nul else e.dest.drop dest.length))) = some res ∧
      Complains name nul isNil dest word res := by
  cases word with
  | error e => exact ⟨_, rfl, rfl⟩
  | ok e => exact ⟨_, rfl, rfl⟩

theorem setvar_eq (hname : Parameter name) (text : List Byte) (env : Env) :
    (isName (name.headD 0) = true ∧ env.refused name = none →
      env.setvar name text = .ok (env.assigned name text)) ∧
    (¬ (isName (name.headD 0) = true ∧ env.refused name = none) →
      ∃ m, env.setvar name text = .error m) := by
  refine ⟨fun ⟨hs, href⟩ => ?_, fun h => ?_⟩
  · have hgood : name.all isInName = true := by
      rcases hname with ⟨-, h⟩ | ⟨c, rfl, hc⟩
      · exact List.all_eq_true.2 h
      · simp [isInName, show isName c = true from hs]
    rw [Env.setvar, if_neg (not_not_intro ⟨hs, hgood⟩), href]
    rfl
  · rw [Env.setvar]
    by_cases hgood : isName (name.headD 0) = true ∧ name.all isInName = true
    · rw [if_neg (not_not_intro hgood)]
      cases href : env.refused name with
      | none => exact absurd ⟨hgood.1, href⟩ h
      | some m => exact ⟨m, rfl⟩
    · rw [if_pos hgood]
      exact ⟨_, rfl⟩

theorem assigns_setvar (quoted : Bool) (flag : Flags) (hname : Parameter name) (p : List Byte)
    {word : Except (State α × List Byte) (State α)}
    (hdest : ∀ e, word = .ok e → s.dest <+: e.dest) :
    ∃ res, (match word with
        | .error e => some (.error e)
        | .ok e =>
          match e.env.setvar name (e.dest.drop s.dest.length) with
          | .error m => some (.error (e, m))
          | .ok env => some (.ok (p, Word.reassigned .assign quoted name flag
              (e.dest.take s.dest.length) env { e with argbackq := s.argbackq }))) = some res ∧
      Assigns p name quoted flag s.dest word res := by
  cases word with
  | error e => exact ⟨.error e, rfl, rfl⟩
  | ok e =>
    have hkeep : e.dest.take s.dest.length = s.dest :=
      (List.prefix_iff_eq_take.1 (hdest e rfl)).symm
    obtain ⟨hset, hrefuse⟩ := setvar_eq hname (e.dest.drop s.dest.length) e.env
    simp only [Assigns]
    by_cases h : isName (name.headD 0) = true ∧ e.env.refused name = none
    · simp only [hset h, if_pos h, hkeep]
      refine ⟨_, rfl, _, rfl, ?_, ?_⟩
      · obtain ⟨-, -, -, hput⟩ := putvalue_frame name Op.assign.code quoted (isset name false
          (e.env.assigned name (e.dest.drop s.dest.length))) flag
          { e with
            dest := s.dest
            argbackq := s.argbackq
            env := e.env.assigned name (e.dest.drop s.dest.length) }
        refine hput.trans ?_
        have hvars : (e.env.assigned name (e.dest.drop s.dest.length)).vars name =
            some (e.dest.drop s.dest.length) := if_pos rfl
        rw [isset, inserted, if_pos h.1, if_pos h.1, hvars, if_pos ⟨rfl, by decide⟩]
        rfl
      · exact (putvalue_frame _ _ _ _ _ _).2.2.1
    · obtain ⟨m, hm⟩ := hrefuse h
      simp only [hm, if_neg h]
      exact ⟨_, rfl, m, rfl⟩

theorem right_of_ok (hname : Parameter name)
    (hok : ¬ (isName (name.headD 0) = false ∧ nul = true ∧ value name s.env = some [])) :
    Right w op nul quoted name flag s := by
  intro inner p hmarks
  refine ⟨inner.size, fun n hn => ?_⟩
  obtain ⟨word, hword, hdest⟩ := argstr_word w inner p hmarks hn
  have heval := evalvar_word w op nul quoted flag hname.named inner p hmarks hword
  have hset := isset_eq hname nul s.env hok
  have hgives := gives_before op nul quoted name flag s inner p
  cases hused : used nul (value name s.env) with
  | none =>
    rw [hused, Option.isSome_none] at hset
    rw [hset] at heval hgives
    cases op with
    | minus =>
      exact ⟨word, _, hword, heval, by simpa only [Meant, hused] using substitutes_map p _⟩
    | plus =>
      refine ⟨word, _, hword, heval, ?_⟩
      simpa [Meant, hused] using hgives
    | question =>
      obtain ⟨res, hres, hcomplains⟩ :=
        complains_error name nul inner.isNil s.dest (word Flags.none)
      exact ⟨word, res, hword, heval.trans hres, by simpa only [Meant, hused] using hcomplains⟩
    | assign =>
      obtain ⟨res, hres, hassigns⟩ := assigns_setvar quoted flag hname p (hdest Flags.none)
      exact ⟨word, res, hword, heval.trans hres, by simpa only [Meant, hused] using hassigns⟩
  | some v =>
    rw [hused, Option.isSome_some] at hset
    rw [hset] at heval hgives
    cases op with
    | plus =>
      exact ⟨word, _, hword, heval, by simpa only [Meant, hused] using substitutes_map p _⟩
    | minus =>
      rw [if_pos ⟨rfl, by decide⟩] at hgives
      exact ⟨word, _, hword, heval, by simpa only [Meant, hused] using hgives⟩
    | question =>
      rw [if_pos ⟨rfl, by decide⟩] at hgives
      exact ⟨word, _, hword, heval, by simpa only [Meant, hused] using hgives⟩
    | assign =>
      rw [if_pos ⟨rfl, by decide⟩] at hgives
      exact ⟨word, _, hword, heval, by simpa only [Meant, hused] using hgives⟩

def letter : Word α := .lit 120 (by decide) .nil

theorem run_letter (flag : Flags) {n : Nat} (hn : 2 ≤ n) (p : List Byte) :
    argstr w (evalvar w n) n ((letter : Word α).text ++ ctlendvar :: p) flag s =
      some (.ok (s.put [120])) := by
  obtain ⟨n, rfl⟩ := Nat.exists_eq_add_of_le' hn
  rw [argstr_text w _ _ _ _ (Or.inr rfl)]
  exact (argloop_lit _ _ _ _ _ _ _ (by decide)
    (head_text (.nil : Word α) (ctlendvar :: p) (Or.inr rfl))).trans
    (argloop_end _ _ _ _ _ _ _ (Or.inr rfl))

theorem not_right (hname : Parameter name)
    (hbad : isName (name.headD 0) = false ∧ nul = true ∧ value name s.env = some []) :
    ¬ Right w op nul quoted name flag s := by
  intro h
  obtain ⟨turns, h⟩ := h letter [] List.nil_prefix
  obtain ⟨word, res, hword, heval, hmeant⟩ := h (max turns 2) (Nat.le_max_left _ _)
  have hletter : ∀ f, word f = .ok (s.put [120]) := fun f =>
    Option.some.inj ((hword f).symm.trans (run_letter w f (Nat.le_max_right _ _) []))
  rw [evalvar_word w op nul quoted flag hname.named letter [] List.nil_prefix hword] at heval
  obtain ⟨hset, hnone⟩ := isset_null hname hbad
  have hgives := gives_before op nul quoted name flag s letter []
  rw [hset] at heval hgives
  rw [Meant.eq_def, hnone] at hmeant
  cases op with
  | minus =>
    obtain rfl := Option.some.inj heval
    simp only [hletter] at hmeant
    obtain ⟨s', hs', hdest, -⟩ := hmeant
    obtain ⟨s'', hs'', hdest', -⟩ := hgives
    obtain rfl : s' = s'' := (Prod.mk.inj (Except.ok.inj (hs'.symm.trans hs''))).2
    rw [inserted_null hname hbad.1 hbad.2.2, ite_self, List.append_nil] at hdest'
    rw [hdest'] at hdest
    simp [State.put] at hdest
  | plus =>
    obtain rfl := Option.some.inj heval
    obtain ⟨s', hs', hdest, -⟩ := hmeant
    rw [hletter] at hs'
    obtain rfl : s.put [120] = s' := (Prod.mk.inj (Except.ok.inj hs')).2
    simp [State.put] at hdest
  | question =>
    obtain rfl := Option.some.inj heval
    simp only [hletter, Complains] at hmeant
    exact absurd hmeant (by simp)
  | assign =>
    obtain rfl := Option.some.inj heval
    simp only [hletter, Assigns, hbad.1, Bool.false_eq_true, false_and, if_false] at hmeant
    obtain ⟨m, hm⟩ := hmeant
    cases hm

end

end Bsdi.Sh.Param
