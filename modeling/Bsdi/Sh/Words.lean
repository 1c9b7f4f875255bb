import Bsdi.Sh.Evalvar

/-!
# Words and their texts

A word is a tree of characters, command substitutions and parameters with operators. Its text is
what the parser leaves in `narg.text`, with a mark for each command substitution; the commands are
a list beside it.
-/

namespace Bsdi.Sh.Param

variable {α : Type}

/-- `${v-w}`, `${v+w}`, `${v?w}` and `${v=w}`. -/
inductive Op
  | minus
  | plus
  | question
  | assign
  deriving DecidableEq, Repr

def Op.code : Op → Byte
  | .minus => vsminus
  | .plus => vsplus
  | .question => vsquestion
  | .assign => vsassign

def Op.takes (op : Op) (set : Bool) : Bool := if op = .plus then !set else set

/-- The byte after `CTLVAR`. -/
def varflags (subtype : Byte) (nul quoted : Bool) : Byte :=
  subtype ||| (if nul then vsnul else 0) ||| (if quoted then vsquote else 0)

def markByte (quoted : Bool) : Byte := if quoted then ctlbackq ||| ctlquote else ctlbackq

/-- A byte of the text without a meaning to `argstr`. -/
def Plain (c : Byte) : Prop :=
  c ∉ [0, ctlesc, ctlvar, ctlendvar, ctlbackq, ctlbackq ||| ctlquote, ctlendari, tilde]

instance (c : Byte) : Decidable (Plain c) := inferInstanceAs (Decidable (c ∉ _))

def Named (name : List Byte) : Prop :=
  (isName (name.headD 0) = true ∧ ∀ c ∈ name, isInName c = true) ∨
    ∃ c, isSpecial c = true ∧ name = [c]

/-- A word: characters, escaped characters, command substitutions, `${name}`, and `${name op inner}`
with or without a colon. -/
inductive Word (α : Type)
  | nil
  | lit (c : Byte) (hc : Plain c) (rest : Word α)
  | esc (c : Byte) (rest : Word α)
  | mark (quoted : Bool) (cmd : α) (rest : Word α)
  | simple (quoted : Bool) (name : List Byte) (hname : Named name) (rest : Word α)
  | var (op : Op) (nul quoted : Bool) (name : List Byte) (hname : Named name)
    (inner rest : Word α)

namespace Word

/-- `narg.text`. -/
def text : Word α → List Byte
  | .nil => []
  | .lit c _ rest => c :: rest.text
  | .esc c rest => ctlesc :: c :: rest.text
  | .mark quoted _ rest => markByte quoted :: rest.text
  | .simple quoted name _ rest =>
    ctlvar :: varflags vsnormal false quoted :: (name ++ 61 :: rest.text)
  | .var op nul quoted name _ inner rest =>
    ctlvar :: varflags op.code nul quoted :: (name ++ 61 :: (inner.text ++ ctlendvar :: rest.text))

/-- `narg.backquote`. -/
def marks : Word α → List α
  | .nil => []
  | .lit _ _ rest => rest.marks
  | .esc _ rest => rest.marks
  | .mark _ cmd rest => cmd :: rest.marks
  | .simple _ _ _ rest => rest.marks
  | .var _ _ _ _ _ inner rest => inner.marks ++ rest.marks

def size : Word α → Nat
  | .nil => 1
  | .lit _ _ rest => rest.size + 1
  | .esc _ rest => rest.size + 1
  | .mark _ _ rest => rest.size + 1
  | .simple _ _ _ rest => rest.size + 1
  | .var _ _ _ _ _ inner rest => inner.size + rest.size + 2

def isNil : Word α → Bool
  | .nil => true
  | _ => false

def pass (s : State α) (word : Word α) : State α :=
  { s with argbackq := s.argbackq.drop word.marks.length }

def before (op : Op) (nul quoted : Bool) (name : List Byte) (flag : Flags) (s : State α) :
    State α :=
  putvalue name op.code quoted (isset name nul s.env) flag s

/-- The state in which the rest of the word is expanded after `${name=...}` has assigned. -/
def reassigned (op : Op) (quoted : Bool) (name : List Byte) (flag : Flags) (dest : List Byte)
    (env : Env) (e : State α) : State α :=
  putvalue name op.code quoted (isset name false env) flag { e with dest := dest, env := env }

end Word

theorem Plain.ne {c : Byte} (h : Plain c) : c ≠ ctlesc ∧ c ≠ ctlvar ∧ c ≠ ctlendvar ∧
    ¬ (c = ctlbackq ∨ c = ctlbackq ||| ctlquote) ∧ c ≠ ctlendari ∧ c ≠ tilde := by
  simp only [Plain, List.mem_cons, not_or, List.not_mem_nil, not_false_eq_true, and_true] at h
  obtain ⟨-, h₁, h₂, h₃, h₄, h₅, h₆, h₇⟩ := h
  exact ⟨h₁, h₂, h₃, fun h => h.elim h₄ h₅, h₆, h₇⟩

theorem plain_of_isInName {c : Byte} (h : isInName c = true ∨ isSpecial c = true) :
    Plain c ∧ c ≠ 61 := by
  refine ⟨fun hc => ?_, fun hc => ?_⟩
  · simp only [List.mem_cons, List.not_mem_nil, or_false] at hc
    rcases hc with rfl | rfl | rfl | rfl | rfl | rfl | rfl | rfl <;> exact absurd h (by decide)
  · subst hc
    exact absurd h (by decide)

theorem Named.plain {name : List Byte} (h : Named name) : ∀ c ∈ name, Plain c ∧ c ≠ 61 := by
  intro c hc
  rcases h with ⟨-, h⟩ | ⟨d, hd, rfl⟩
  · exact plain_of_isInName (Or.inl (h c hc))
  · obtain rfl := List.mem_singleton.1 hc
    exact plain_of_isInName (Or.inr hd)

section skipping

variable (scanned : Bool) (n : Nat) (c : Byte) (p : List Byte) (argbackq : List α)

theorem skip_lit (h : Plain c) : skip scanned n (c :: p) argbackq = skip scanned n p argbackq := by
  obtain ⟨h₁, h₂, h₃, h₄, -⟩ := h.ne
  rw [skip.eq_def]
  simp only [if_neg h₁, if_neg h₄, if_neg h₂, if_neg h₃]

theorem skip_esc :
    skip scanned n (ctlesc :: c :: p) argbackq = skip scanned n p argbackq := by
  rw [skip.eq_def]
  simp only [if_true]

theorem skip_mark (quoted : Bool) (cmd : α) : skip scanned n (markByte quoted :: p)
    (cmd :: argbackq) = skip scanned n p (if scanned then cmd :: argbackq else argbackq) := by
  rw [skip.eq_def]
  cases quoted <;> cases scanned <;> rfl

theorem skip_scanned_mark (quoted : Bool) :
    skip true n (markByte quoted :: p) argbackq = skip true n p argbackq := by
  rw [skip.eq_def]
  cases quoted <;> rfl

theorem skip_var (f : Byte) : skip scanned n (ctlvar :: f :: p) argbackq =
    skip scanned (if f &&& vstype ≠ vsnormal then n + 1 else n) p argbackq := by
  rw [skip.eq_def]
  rfl

theorem skip_endvar : skip scanned n (ctlendvar :: p) argbackq =
    if n = 1 then some (p, argbackq) else skip scanned (n - 1) p argbackq := by
  rw [skip.eq_def]
  rfl

end skipping

theorem skip_plain {l : List Byte} (h : ∀ c ∈ l, Plain c) (scanned : Bool) (n : Nat)
    (p : List Byte) (argbackq : List α) :
    skip scanned n (l ++ p) argbackq = skip scanned n p argbackq := by
  induction l with
  | nil => rfl
  | cons c l ih =>
    obtain ⟨hc, hl⟩ := List.forall_mem_cons.1 h
    rw [List.cons_append, skip_lit _ _ _ _ _ hc, ih hl]

theorem skip_name {name : List Byte} (h : Named name) (scanned : Bool) (n : Nat) (p : List Byte)
    (argbackq : List α) :
    skip scanned n (name ++ 61 :: p) argbackq = skip scanned n p argbackq := by
  rw [List.append_cons]
  refine skip_plain (fun c hc => ?_) scanned n p argbackq
  rcases List.mem_append.1 hc with hc | hc
  · exact (h.plain c hc).1
  · obtain rfl := List.mem_singleton.1 hc
    decide

@[simp] theorem varflags_type (op : Op) (nul quoted : Bool) :
    varflags op.code nul quoted &&& vstype = op.code := by
  cases op <;> cases nul <;> cases quoted <;> rfl

@[simp] theorem varflags_normal (quoted : Bool) :
    varflags vsnormal false quoted &&& vstype = vsnormal := by
  cases quoted <;> rfl

theorem Op.code_ne (op : Op) : op.code ≠ vsnormal := by
  cases op <;> decide

theorem skip_text (word : Word α) (scanned : Bool) {n : Nat} (hn : 0 < n) (p : List Byte)
    (argbackq : List α) (h : scanned = false → word.marks.length ≤ argbackq.length) :
    skip scanned n (word.text ++ p) argbackq =
      skip scanned n p (argbackq.drop (if scanned then 0 else word.marks.length)) := by
  induction word generalizing n p argbackq with
  | nil => simp [Word.text, Word.marks]
  | lit c hc rest ih => exact (skip_lit _ _ _ _ _ hc).trans (ih hn p argbackq h)
  | esc c rest ih => exact (skip_esc _ _ _ _ _).trans (ih hn p argbackq h)
  | mark quoted cmd rest ih =>
    cases scanned with
    | true => exact (skip_scanned_mark _ _ _ _).trans (ih hn p argbackq fun h => by cases h)
    | false =>
      cases argbackq with
      | nil => exact absurd (h rfl) (by simp [Word.marks])
      | cons first argbackq =>
        exact (skip_mark _ _ _ _ _ _).trans
          (ih hn p argbackq fun _ => Nat.le_of_succ_le_succ (h rfl))
  | simple quoted name hname rest ih =>
    simp only [Word.text, List.cons_append, List.append_assoc]
    rw [skip_var, varflags_normal, skip_name hname]
    exact ih hn p argbackq h
  | var op nul quoted name hname inner rest ihi ihr =>
    simp only [Word.text, List.cons_append, List.append_assoc]
    simp only [Word.marks, List.length_append] at h ⊢
    rw [skip_var, varflags_type, if_pos op.code_ne, skip_name hname,
      ihi (Nat.succ_pos n) _ _ (fun hs => by have := h hs; omega), skip_endvar,
      if_neg (by omega), Nat.succ_sub_one, ihr hn _ _ (fun hs => by
        have := h hs
        simp only [hs, Bool.false_eq_true, if_false, List.length_drop]
        omega)]
    cases scanned <;> simp [List.drop_drop]

section texts

variable {op : Op} {nul quoted : Bool} {name : List Byte}

theorem takeWhile_name (h : Named name) (p : List Byte) :
    (name ++ 61 :: p).takeWhile (· ≠ 61) = name ∧
      ((name ++ 61 :: p).dropWhile (· ≠ 61)).tail = p := by
  have hall : ∀ c ∈ name, (decide (c ≠ 61)) = true := fun c hc => by
    simpa using (h.plain c hc).2
  constructor
  · rw [List.takeWhile_append_of_pos hall]
    simp
  · rw [List.dropWhile_append_of_pos hall]
    simp

theorem evalvarStep_var (arg : List Byte → Flags → State α → Res α (State α)) (h : Named name)
    (p : List Byte) (flag : Flags) (s : State α) :
    evalvarStep arg (varflags op.code nul quoted :: (name ++ 61 :: p)) flag s =
      let s' := Word.before op nul quoted name flag s
      if op.takes (isset name nul s.env) then finish op.code false p s'
      else if op = .minus ∨ op = .plus then Res.andThen (arg p flag s') (finish op.code true p)
      else Res.andThen (arg p Flags.none s') fun e =>
        let startp := e.dest.drop s.dest.length
        if op = .assign then
          match e.env.setvar name startp with
          | .error m => some (.error (e, m))
          | .ok env => finish op.code true p
            (Word.reassigned op quoted name flag (e.dest.take s.dest.length) env
              { e with argbackq := s.argbackq })
        else some (.error
          (e, if p.head? = some ctlendvar then unsetMessage name nul else startp)) := by
  obtain ⟨htake, hdrop⟩ := takeWhile_name h p
  have hnul : (varflags op.code nul quoted &&& vsnul != 0) = nul := by
    cases op <;> cases nul <;> cases quoted <;> rfl
  have hquoted : (varflags op.code nul quoted &&& vsquote != 0) = quoted := by
    cases op <;> cases nul <;> cases quoted <;> rfl
  rw [evalvarStep]
  simp only [List.headD_cons, List.tail_cons, htake, hdrop, varflags_type]
  rw [hnul, hquoted, if_neg (fun h => op.code_ne h.2.2)]
  simp only [op.code_ne, or_false]
  cases op with
  | minus => rfl
  | plus => rfl
  | assign => rfl
  | question =>
    by_cases hp : p.head? = some ctlendvar
    · simp only [if_pos hp]
      rfl
    · simp only [if_neg hp]
      rfl

theorem evalvarStep_simple (arg : List Byte → Flags → State α → Res α (State α)) (h : Named name)
    (p : List Byte) (flag : Flags) (s : State α) :
    evalvarStep arg (varflags vsnormal false quoted :: (name ++ 61 :: p)) flag s =
      if s.env.uflag ∧ ¬ isset name false s.env then
        some (.error (s, unboundMessage name))
      else some (.ok (p, putvalue name vsnormal quoted (isset name false s.env) flag s)) := by
  obtain ⟨htake, hdrop⟩ := takeWhile_name h p
  have hnul : (varflags vsnormal false quoted &&& vsnul != 0) = false := by cases quoted <;> rfl
  have hquoted : (varflags vsnormal false quoted &&& vsquote != 0) = quoted := by
    cases quoted <;> rfl
  rw [evalvarStep]
  simp only [List.headD_cons, List.tail_cons, htake, hdrop, varflags_normal]
  rw [hnul, hquoted]
  simp only [and_true, or_true, if_true, finish]

theorem head_text (word : Word α) (tail : List Byte)
    (htail : tail = [] ∨ tail.head? = some ctlendvar) : (word.text ++ tail).head? ≠ some tilde := by
  cases word with
  | nil =>
    rcases htail with rfl | h
    · simp [Word.text]
    · rw [Word.text, List.nil_append, h]
      decide
  | lit c hc rest => simpa [Word.text] using hc.ne.2.2.2.2.2
  | esc c rest => simp [Word.text, ctlesc, tilde]
  | mark quoted cmd rest => cases quoted <;> simp [Word.text, markByte] <;> decide
  | simple quoted name hname rest => simp [Word.text, ctlvar, tilde]
  | var op nul quoted name hname inner rest => simp [Word.text, ctlvar, tilde]

theorem argstr_text (w : World α)
    (ev : List Byte → Flags → State α → Res α (List Byte × State α)) (n : Nat) (word : Word α)
    (tail : List Byte) (htail : tail = [] ∨ tail.head? = some ctlendvar) (flag : Flags)
    (s : State α) :
    argstr w ev n (word.text ++ tail) flag s = argloop w ev flag n true (word.text ++ tail) s := by
  rw [argstr, if_neg (fun h => head_text word tail htail h.1)]

theorem head_text_isNil (word : Word α) (p : List Byte) :
    (word.text ++ ctlendvar :: p).head? = some ctlendvar ↔ word.isNil = true := by
  cases word with
  | nil => simp [Word.text, Word.isNil]
  | lit c hc rest => simpa [Word.text, Word.isNil] using hc.ne.2.2.1
  | esc c rest => simp [Word.text, Word.isNil, ctlesc, ctlendvar]
  | mark quoted cmd rest => cases quoted <;> simp [Word.text, Word.isNil, markByte] <;> decide
  | simple quoted name hname rest => simp [Word.text, Word.isNil, ctlvar, ctlendvar]
  | var op nul quoted name hname inner rest => simp [Word.text, Word.isNil, ctlvar, ctlendvar]

theorem finish_text (op : Op) (scanned : Bool) (inner : Word α) (p : List Byte) (s : State α)
    (h : scanned = false → inner.marks.length ≤ s.argbackq.length) :
    finish op.code scanned (inner.text ++ ctlendvar :: p) s =
      some (.ok (p, if scanned then s else Word.pass s inner)) := by
  rw [finish, if_neg op.code_ne, skip_text inner scanned Nat.one_pos _ _ h, skip_endvar, if_pos rfl]
  cases scanned <;> rfl

end texts

end Bsdi.Sh.Param
