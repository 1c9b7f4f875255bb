import Bsdi.Sh.Readtoken
import Mathlib.Data.List.Pairwise

/-!
# Local variables

The variable table of `var.c` with `mklocal` and `poplocalvars`. The table maps names to records; a
text is an address in memory that is not used again after it has been freed, and the pointer in
`struct localvar` is a name and a number. A command can end in an error, with the state it leaves;
where a record has been freed that is pointed to there is no result.
-/

namespace Bsdi.Sh.Local

structure Flags where
  vexport : Bool
  vreadonly : Bool
  vstrfixed : Bool
  vtextfixed : Bool
  vstack : Bool
  vunset : Bool
  deriving DecidableEq, Repr

def Flags.zero : Flags := ⟨false, false, false, false, false, false⟩

def Flags.or (f g : Flags) : Flags :=
  ⟨f.vexport || g.vexport, f.vreadonly || g.vreadonly, f.vstrfixed || g.vstrfixed,
    f.vtextfixed || g.vtextfixed, f.vstack || g.vstack, f.vunset || g.vunset⟩

def Flags.owned (f : Flags) : Bool := !f.vtextfixed && !f.vstack

structure Var where
  id : Nat
  flags : Flags
  text : Nat
  deriving DecidableEq, Repr

structure Localvar where
  name : List Byte
  vp : Nat
  flags : Flags
  text : Option Nat
  deriving DecidableEq, Repr

/-- A text is a name and a value. -/
structure Shell where
  mem : Nat → Option (List Byte × List Byte)
  brk : Nat
  vartab : List Byte → Option Var
  ids : Nat
  localvars : List Localvar
  vexport : Bool
  rflag : Bool

/-- The state that a command leaves, and whether it has ended without an error. -/
abbrev Res := Shell × Bool

def pathName : List Byte := [80, 65, 84, 72]
def shellName : List Byte := [83, 72, 69, 76, 76]

def restricted (name : List Byte) (s : Shell) : Bool :=
  s.rflag && (name = pathName || name = shellName)

def goodName (name : List Byte) : Bool := isName (name.headD 0) && name.all isInName

namespace Shell

def ckfree (a : Nat) (s : Shell) : Shell :=
  { s with mem := fun b => if b = a then none else s.mem b }

def set (name : List Byte) (v : Option Var) (s : Shell) : Shell :=
  { s with vartab := fun n => if n = name then v else s.vartab n }

/-- `ckmalloc` and `savestr`, for a text. -/
def alloc (name value : List Byte) (s : Shell) : Shell :=
  { s with mem := fun b => if b = s.brk then some (name, value) else s.mem b, brk := s.brk + 1 }

/-- `setvareq`, with the text that it is given. -/
def setvareq (name value : List Byte) (flags : Flags) (s : Shell) : Res :=
  let a := s.brk
  let s := s.alloc name value
  match s.vartab name with
  | some vp =>
    if vp.flags.vreadonly || restricted name s then (s, false)
    else
      let s := if vp.flags.owned then s.ckfree vp.text else s
      let kept := { vp.flags with vtextfixed := false, vstack := false, vunset := false }
      (s.set name (some { vp with flags := kept.or flags, text := a }), true)
  | none => ({ s.set name (some ⟨s.ids, flags, a⟩) with ids := s.ids + 1 }, true)

def setvar (name : List Byte) (val : Option (List Byte)) (flags : Flags) (s : Shell) : Res :=
  if restricted name s then (s, false)
  else if ¬ goodName name then (s, false)
  else s.setvareq name (val.getD []) { flags with vunset := flags.vunset || val.isNone }

/-- The end of `unsetvar`: a record that is not fixed goes. -/
def drop (name : List Byte) (s : Shell) : Shell :=
  match s.vartab name with
  | none => s
  | some vp =>
    if vp.flags.vstrfixed then
      s.set name (some { vp with flags := { vp.flags with vexport := false, vunset := true } })
    else (if vp.flags.vtextfixed then s else s.ckfree vp.text).set name none

/-- `unsetvar`, whose value is 1 for a variable that is read only. -/
def unsetvar (name : List Byte) (s : Shell) : Res :=
  match s.vartab name with
  | none => (s, true)
  | some vp =>
    if vp.flags.vreadonly then (s, true)
    else if ((s.mem vp.text).map (·.2)).getD [] ≠ [] then
      -- `setvar` is given the text, and does not find a restricted name in front of the `=`
      if goodName name then
        let (s, ok) := s.setvareq name [] Flags.zero
        (if ok then s.drop name else s, ok)
      else (s, false)
    else (s.drop name, true)

/-- `exportcmd` and `readonlycmd` for one argument. -/
def exportcmd (flag : Flags) (name : List Byte) (val : Option (List Byte)) (s : Shell) : Res :=
  match val, s.vartab name with
  | none, some vp => (s.set name (some { vp with flags := vp.flags.or flag }), true)
  | val, _ => s.setvar name val flag

/-- The end of `mklocal`, where no error has been raised. -/
def link (lvp : Localvar) : Res → Res
  | (s, true) => ({ s with localvars := lvp :: s.localvars }, true)
  | (s, false) => (s, false)

def mklocal (name : List Byte) (val : Option (List Byte)) (s : Shell) : Res :=
  let new : Flags := { Flags.zero with vexport := s.vexport, vstrfixed := true }
  match s.vartab name with
  | none =>
    link ⟨name, s.ids, { Flags.zero with vunset := true }, none⟩ (match val with
      | some val => s.setvareq name val new
      | none => s.setvar name none new)
  | some vp =>
    let s := s.set name (some { vp with flags := vp.flags.or { new with vtextfixed := true } })
    link ⟨name, vp.id, vp.flags, some vp.text⟩ (match val with
      | some val => s.setvareq name val Flags.zero
      | none => (s, true))

/-- One turn of the loop of `poplocalvars`; an error comes back to the loop. -/
def poplocal (lvp : Localvar) (s : Shell) : Option Res :=
  match s.vartab lvp.name with
  | none => none
  | some vp =>
    if vp.id ≠ lvp.vp then none
    else if lvp.flags.vunset && !lvp.flags.vstrfixed then some (s.unsetvar lvp.name)
    else
      match lvp.text with
      | none => none
      | some text =>
        let s := if vp.flags.vtextfixed then s else s.ckfree vp.text
        some (s.set lvp.name (some { vp with flags := lvp.flags, text := text }), true)

def poplocalvars : List Localvar → Shell → Option Res
  | [], s => some ({ s with localvars := [] }, true)
  | lvp :: rest, s =>
    match s.poplocal lvp with
    | none => none
    | some (s, ok) =>
      match poplocalvars rest s with
      | none => none
      | some (s, ok') => some (s, ok && ok')

end Shell

inductive Cmd
  | makeLocal (name : List Byte) (val : Option (List Byte))
  | assign (name val : List Byte)
  | export (readonly : Bool) (name : List Byte) (val : Option (List Byte))
  | unset (name : List Byte)
  deriving DecidableEq, Repr

/-- A function body: commands and calls of other functions. Variables that are set for a call are
local to it, and stand at the start of its body. -/
inductive Body
  | nil
  | cmd (c : Cmd) (rest : Body)
  | call (inner rest : Body)

def Cmd.run : Cmd → Shell → Res
  | .makeLocal name val, s => s.mklocal name val
  | .assign name val, s => s.setvareq name val { Flags.zero with vexport := s.vexport }
  | .export readonly name val, s =>
    s.exportcmd { Flags.zero with vreadonly := readonly, vexport := !readonly } name val
  | .unset name, s => s.unsetvar name

def Shell.leave (s : Shell) (localvars : List Localvar) : Option Res :=
  match s.poplocalvars s.localvars with
  | none => none
  | some (s, ok) => some ({ s with localvars := localvars }, ok)

def Body.run : Body → Shell → Option Res
  | .nil, s => some (s, true)
  | .cmd c rest, s =>
    let (s, ok) := c.run s
    if ok then rest.run s else some (s, false)
  | .call inner rest, s =>
    match inner.run { s with localvars := [] } with
    | none => none
    | some (s', ok) =>
      match s'.leave s.localvars with
      | none => none
      | some (s', ok') => if ok && ok' then rest.run s' else some (s', false)

/-! ### What can be seen

A saved record covers older ones of the same name as the live record does: the text that is freed
with it is not theirs. -/

/-- What can be seen of a variable. -/
@[ext]
structure View where
  value : Option (List Byte)
  exported : Bool
  readonly : Bool
  deriving DecidableEq, Repr

def View.absent : View := ⟨none, false, false⟩

def viewOf (mem : Nat → Option (List Byte × List Byte)) (flags : Flags) (text : Nat) : View :=
  ⟨if flags.vunset then none else (mem text).map (·.2), flags.vexport, flags.vreadonly⟩

namespace Shell

def view (s : Shell) (name : List Byte) : View :=
  match s.vartab name with
  | none => .absent
  | some v => viewOf s.mem v.flags v.text

def saved (s : Shell) (lvp : Localvar) : View :=
  match lvp.text with
  | none => .absent
  | some text => viewOf s.mem lvp.flags text

end Shell

/-- A record with the text and the flags of `v` is in use over a saved one. -/
structure Covers (v : Var) (lvp : Localvar) : Prop where
  id : v.id = lvp.vp
  fixed : v.flags.vstrfixed = true
  stack : v.flags.vtextfixed = false → v.flags.vstack = false
  owned : v.flags.owned = true → lvp.text ≠ some v.text
  readonly : lvp.flags.vreadonly = true → v.flags.vreadonly = true

/-- The table, and the saved records of all calls, the newest first. -/
structure Inv (s : Shell) (saved : List Localvar) : Prop where
  fresh : ∀ a, s.brk ≤ a → s.mem a = none
  live : ∀ n v, s.vartab n = some v → (s.mem v.text).map (·.1) = some n
  covers : ∀ lvp ∈ saved, ∃ v, s.vartab lvp.name = some v ∧ Covers v lvp
  texts : ∀ lvp ∈ saved, ∀ a, lvp.text = some a → (s.mem a).map (·.1) = some lvp.name
  absent : ∀ lvp ∈ saved, lvp.text = none → lvp.flags = { Flags.zero with vunset := true }
  pairs : saved.Pairwise fun lvp older => lvp.name = older.name →
    ∃ a, lvp.text = some a ∧ Covers ⟨lvp.vp, lvp.flags, a⟩ older

/-- What a command on the variable `n` does not touch. -/
structure Frame (s s' : Shell) (saved : List Localvar) (n : List Byte) : Prop where
  inv : Inv s' saved
  texts : ∀ lvp ∈ saved, ∀ a, lvp.text = some a → s'.mem a = s.mem a
  view : ∀ m, m ≠ n → s'.view m = s.view m
  vartab : ∀ m, m ≠ n → s'.vartab m = s.vartab m
  rflag : s'.rflag = s.rflag
  localvars : s'.localvars = s.localvars

section

variable {s s' s'' : Shell} {saved : List Localvar} {n : List Byte}

theorem Frame.refl (h : Inv s saved) : Frame s s saved n :=
  ⟨h, fun _ _ _ _ => rfl, fun _ _ => rfl, fun _ _ => rfl, rfl, rfl⟩

theorem Frame.trans (h : Frame s s' saved n) (h' : Frame s' s'' saved n) :
    Frame s s'' saved n where
  inv := h'.inv
  texts lvp hl a ha := (h'.texts lvp hl a ha).trans (h.texts lvp hl a ha)
  view m hm := (h'.view m hm).trans (h.view m hm)
  vartab m hm := (h'.vartab m hm).trans (h.vartab m hm)
  rflag := h'.rflag.trans h.rflag
  localvars := h'.localvars.trans h.localvars

theorem frame_of (h : Inv s saved) (hfresh : ∀ a, s'.brk ≤ a → s'.mem a = none)
    (hother : ∀ m, m ≠ n → s'.vartab m = s.vartab m)
    (hmem : ∀ b x, s.mem b = some x → s'.mem b = some x ∨
      x.1 = n ∧ ∀ lvp ∈ saved, lvp.name = n → lvp.text ≠ some b)
    (hlive : ∀ v, s'.vartab n = some v → (s'.mem v.text).map (·.1) = some n)
    (hcovers : ∀ lvp ∈ saved, lvp.name = n → ∃ v, s'.vartab n = some v ∧ Covers v lvp)
    (hrflag : s'.rflag = s.rflag) (hlocalvars : s'.localvars = s.localvars) :
    Frame s s' saved n := by
  have hkept : ∀ b m, m ≠ n → (s.mem b).map (·.1) = some m → s'.mem b = s.mem b := by
    intro b m hm hb
    obtain ⟨x, hx, rfl⟩ := Option.map_eq_some_iff.1 hb
    rw [hx]
    exact (hmem b x hx).resolve_right fun hfree => hm hfree.1
  have htexts : ∀ lvp ∈ saved, ∀ a, lvp.text = some a → s'.mem a = s.mem a := by
    intro lvp hl a ha
    obtain ⟨x, hx, hname⟩ := Option.map_eq_some_iff.1 (h.texts lvp hl a ha)
    rw [hx]
    exact (hmem a x hx).resolve_right fun hfree =>
      hfree.2 lvp hl (hname.symm.trans hfree.1) ha
  refine ⟨⟨hfresh, ?_, ?_, ?_, h.absent, h.pairs⟩, htexts, ?_, hother, hrflag, hlocalvars⟩
  · intro m v hv
    by_cases hm : m = n
    · subst hm
      exact hlive v hv
    · rw [hother m hm] at hv
      rw [hkept _ m hm (h.live m v hv)]
      exact h.live m v hv
  · intro lvp hl
    by_cases hm : lvp.name = n
    · rw [hm]
      exact hcovers lvp hl hm
    · rw [hother _ hm]
      exact h.covers lvp hl
  · intro lvp hl a ha
    rw [htexts lvp hl a ha]
    exact h.texts lvp hl a ha
  · intro m hm
    rw [Shell.view, Shell.view, hother m hm]
    cases hv : s.vartab m with
    | none => rfl
    | some v => simp only [viewOf, hkept _ m hm (h.live m v hv)]

theorem Covers.flags {v : Var} {lvp : Localvar} (h : Covers v lvp) {flags : Flags}
    (hfixed : v.flags.vstrfixed = true → flags.vstrfixed = true)
    (htext : flags.vtextfixed = true ∨
      flags.vtextfixed = v.flags.vtextfixed ∧ flags.vstack = v.flags.vstack)
    (hreadonly : v.flags.vreadonly = true → flags.vreadonly = true) :
    Covers { v with flags := flags } lvp where
  id := h.id
  fixed := hfixed h.fixed
  stack hf := by
    rcases htext with ht | ⟨ht, hs⟩
    · exact absurd (ht.symm.trans hf) (by decide)
    · exact hs.trans (h.stack (ht.symm.trans hf))
  owned ho := by
    rcases htext with ht | ⟨ht, hs⟩
    · simp [Flags.owned, ht] at ho
    · exact h.owned (by simpa [Flags.owned, ht, hs] using ho)
  readonly hr := hreadonly (h.readonly hr)

theorem frame_flags (h : Inv s saved) {v : Var} (hv : s.vartab n = some v) {flags : Flags}
    (hfixed : v.flags.vstrfixed = true → flags.vstrfixed = true)
    (htext : flags.vtextfixed = true ∨
      flags.vtextfixed = v.flags.vtextfixed ∧ flags.vstack = v.flags.vstack)
    (hreadonly : v.flags.vreadonly = true → flags.vreadonly = true) :
    Frame s (s.set n (some { v with flags := flags })) saved n := by
  have hset : (s.set n (some { v with flags := flags })).vartab n =
      some { v with flags := flags } := if_pos rfl
  refine frame_of h h.fresh (fun m hm => if_neg hm) (fun b x hx => Or.inl hx) ?_ ?_ rfl rfl
  · intro w hw
    obtain rfl := Option.some.inj (hset.symm.trans hw)
    exact h.live n v hv
  · intro lvp hl hm
    obtain ⟨w, hw, hc⟩ := h.covers lvp hl
    rw [hm, hv] at hw
    obtain rfl := Option.some.inj hw
    exact ⟨_, hset, hc.flags hfixed htext hreadonly⟩

theorem frame_alloc (h : Inv s saved) (name value : List Byte) :
    Frame s (s.alloc name value) saved n := by
  have hmem : ∀ b x, s.mem b = some x → (s.alloc name value).mem b = some x := by
    intro b x hx
    have hb : b ≠ s.brk := by
      rintro rfl
      rw [h.fresh _ (Nat.le_refl _)] at hx
      cases hx
    simp only [Shell.alloc, if_neg hb, hx]
  refine frame_of h ?_ (fun _ _ => rfl) (fun b x hx => Or.inl (hmem b x hx)) ?_ ?_ rfl rfl
  · intro a ha
    have hle : s.brk + 1 ≤ a := ha
    simp only [Shell.alloc, if_neg (by omega : a ≠ s.brk)]
    exact h.fresh a (by omega)
  · intro v hv
    obtain ⟨x, hx, hname⟩ := Option.map_eq_some_iff.1 (h.live n v hv)
    rw [hmem _ x hx]
    exact congrArg some hname
  · intro lvp hl hm
    rw [← hm]
    exact h.covers lvp hl

theorem frame_setvareq (h : Inv s saved) (value : List Byte) {flags : Flags}
    (hflags : flags.vstack = false ∧ flags.vtextfixed = false) :
    Frame s (s.setvareq n value flags).1 saved n := by
  have halloc : Frame s (s.alloc n value) saved n := frame_alloc h n value
  have hbrk : (s.alloc n value).mem s.brk = some (n, value) := if_pos rfl
  unfold Shell.setvareq
  dsimp only
  cases hv : (s.alloc n value).vartab n with
  | none =>
    dsimp only
    refine halloc.trans (frame_of halloc.inv halloc.inv.fresh (fun m hm => if_neg hm)
      (fun b x hx => Or.inl hx) ?_ ?_ rfl rfl)
    · intro v hw
      have hset : some (⟨(s.alloc n value).ids, flags, s.brk⟩ : Var) = some v := by
        rw [← hw]
        exact (if_pos rfl).symm
      obtain rfl := Option.some.inj hset
      exact congrArg _ hbrk
    · intro lvp hl hm
      obtain ⟨w, hw, -⟩ := halloc.inv.covers lvp hl
      rw [hm, hv] at hw
      cases hw
  | some vp =>
    dsimp only
    split
    · exact halloc
    · have hne : vp.text ≠ s.brk := by
        intro heq
        have hlive := h.live n vp hv
        rw [heq, h.fresh _ (Nat.le_refl _)] at hlive
        cases hlive
      refine halloc.trans (frame_of halloc.inv ?_ ?_ ?_ ?_ ?_ ?_ ?_)
      · intro a ha
        cases howned : vp.flags.owned with
        | true =>
          rw [howned] at ha
          simp only [if_true, Shell.set, Shell.ckfree]
          split
          · rfl
          · exact halloc.inv.fresh a ha
        | false =>
          rw [howned] at ha
          exact halloc.inv.fresh a ha
      · intro m hm
        cases vp.flags.owned <;> exact if_neg hm
      · intro b x hx
        cases howned : vp.flags.owned with
        | false => exact Or.inl hx
        | true =>
          by_cases hb : b = vp.text
          · subst hb
            obtain ⟨y, hy, hname⟩ := Option.map_eq_some_iff.1 (halloc.inv.live n vp hv)
            obtain rfl := Option.some.inj (hx.symm.trans hy)
            refine Or.inr ⟨hname, fun lvp hl hm => ?_⟩
            obtain ⟨w, hw, hc⟩ := halloc.inv.covers lvp hl
            rw [hm, hv] at hw
            obtain rfl := Option.some.inj hw
            exact hc.owned howned
          · refine Or.inl ?_
            simp only [if_true, Shell.set, Shell.ckfree, if_neg hb]
            exact hx
      · intro w hw
        have hset : some ({ vp with
            flags := ({ vp.flags with vtextfixed := false, vstack := false, vunset := false } :
              Flags).or flags, text := s.brk } : Var) = some w := by
          rw [← hw]
          cases vp.flags.owned <;> exact (if_pos rfl).symm
        obtain rfl := Option.some.inj hset
        cases howned : vp.flags.owned with
        | false => exact congrArg _ hbrk
        | true =>
          simp only [if_true, Shell.set, Shell.ckfree, if_neg hne.symm, hbrk]
          rfl
      · intro lvp hl hm
        obtain ⟨w, hw, hc⟩ := halloc.inv.covers lvp hl
        rw [hm, hv] at hw
        obtain rfl := Option.some.inj hw
        refine ⟨{ vp with
            flags := ({ vp.flags with vtextfixed := false, vstack := false, vunset := false } :
              Flags).or flags, text := s.brk },
          by cases vp.flags.owned <;> exact if_pos rfl, hc.id, ?_, ?_, ?_, ?_⟩
        · simp [Flags.or, hc.fixed]
        · simp [Flags.or, hflags.1]
        · intro _ hbad
          have htext := h.texts lvp hl _ hbad
          rw [h.fresh _ (Nat.le_refl _)] at htext
          cases htext
        · intro hr
          simp [Flags.or, hc.readonly hr]
      · cases vp.flags.owned <;> rfl
      · cases vp.flags.owned <;> rfl

end

end Bsdi.Sh.Local
