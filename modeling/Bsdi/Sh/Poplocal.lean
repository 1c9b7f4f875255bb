import Bsdi.Sh.Mklocal

/-!
# Function calls restore their local variables

The oldest record of a variable is the last to be put back.
-/

namespace Bsdi.Sh.Local

section

variable {s s' : Shell} {saved : List Localvar} {n : List Byte}

def oldest (n : List Byte) : List Localvar → Option Localvar
  | [] => none
  | lvp :: older => (oldest n older).or (if lvp.name = n then some lvp else none)

@[simp]
theorem oldest_append (n : List Byte) (new old : List Localvar) :
    oldest n (new ++ old) = (oldest n old).or (oldest n new) := by
  induction new with
  | nil => simp [oldest]
  | cons lvp new ih => simp [oldest, ih, Option.or_assoc]

theorem oldest_eq_none {l : List Localvar} :
    oldest n l = none ↔ ∀ lvp ∈ l, lvp.name ≠ n := by
  induction l with
  | nil => simp [oldest]
  | cons lvp l ih =>
    by_cases hn : lvp.name = n
    · simp [oldest, hn]
    · simp [oldest, hn, ih]

theorem oldest_mem {l : List Localvar} {lvp : Localvar} (h : oldest n l = some lvp) :
    lvp ∈ l ∧ lvp.name = n := by
  induction l with
  | nil => cases h
  | cons x l ih =>
    cases hl : oldest n l with
    | some y =>
      rw [oldest, hl] at h
      obtain ⟨hm, hname⟩ := ih (hl.trans h)
      exact ⟨List.mem_cons_of_mem x hm, hname⟩
    | none =>
      rw [oldest, hl, Option.none_or] at h
      split at h
      · obtain rfl := Option.some.inj h
        exact ⟨List.mem_cons_self, ‹_›⟩
      · cases h

/-- A record that is put back by `unsetvar`. -/
def Localvar.unsets (lvp : Localvar) : Bool := lvp.flags.vunset && !lvp.flags.vstrfixed

/-- The variable can be unset. -/
structure Unsettable (s : Shell) (n : List Byte) : Prop where
  readonly : (s.view n).readonly = false
  restricted : restricted n s = false
  name : goodName n = true

theorem poplocal_spec {lvp : Localvar} (h : Inv s (lvp :: saved)) :
    ∃ s' ok, s.poplocal lvp = some (s', ok) ∧ Frame s s' saved lvp.name ∧
      (lvp.unsets = false → s'.view lvp.name = s.saved lvp) ∧
      (lvp.unsets = true → Unsettable s lvp.name → s'.view lvp.name = .absent) := by
  obtain ⟨vp, hv, hc⟩ := h.covers lvp List.mem_cons_self
  have hid : ¬ vp.id ≠ lvp.vp := fun hne => hne hc.id
  unfold Shell.poplocal
  simp only [hv, if_neg hid]
  cases hu : lvp.unsets with
  | true =>
    have hu' : (lvp.flags.vunset && !lvp.flags.vstrfixed) = true := hu
    rw [if_pos hu']
    refine ⟨_, _, rfl, frame_unsetvar h.tail, fun hf => ?_, fun _ hs => ?_⟩
    · cases hf
    · exact view_unsetvar hs.readonly hs.restricted hs.name
  | false =>
    have hu' : ¬ (lvp.flags.vunset && !lvp.flags.vstrfixed) = true := by
      rw [show (lvp.flags.vunset && !lvp.flags.vstrfixed) = false from hu]
      decide
    rw [if_neg hu']
    cases ht : lvp.text with
    | none =>
      have hflags := h.absent lvp List.mem_cons_self ht
      rw [Localvar.unsets, hflags] at hu
      cases hu
    | some text =>
      have hfree : vp.flags.vtextfixed = false → text ≠ vp.text ∧
          ∀ older ∈ saved, older.name = lvp.name → older.text ≠ some vp.text := by
        intro hf
        have howned : vp.flags.owned = true := by simp [Flags.owned, hf, hc.stack hf]
        refine ⟨fun heq => hc.owned howned (by rw [ht, heq]), fun older hl hm => ?_⟩
        obtain ⟨w, hw, hcw⟩ := h.covers older (List.mem_cons_of_mem lvp hl)
        rw [hm, hv] at hw
        obtain rfl := Option.some.inj hw
        exact hcw.owned howned
      have hmem : ∀ b, (vp.flags.vtextfixed = false → b ≠ vp.text) →
          (if vp.flags.vtextfixed then s else s.ckfree vp.text).mem b = s.mem b := by
        intro b hb
        cases hf : vp.flags.vtextfixed with
        | true => rfl
        | false => exact if_neg (hb hf)
      have htext := hmem text fun hf => (hfree hf).1
      refine ⟨_, true, rfl, ?_, fun _ => ?_, fun hf => absurd hf Bool.false_ne_true⟩
      · refine frame_of h.tail ?_ ?_ ?_ ?_ ?_ ?_ ?_
        · intro a ha
          cases hf : vp.flags.vtextfixed with
          | true =>
            rw [hf] at ha
            exact h.fresh a ha
          | false =>
            rw [hf] at ha
            simp only [Shell.set, Shell.ckfree, Bool.false_eq_true, if_false]
            split
            · rfl
            · exact h.fresh a ha
        · intro m hm
          cases vp.flags.vtextfixed <;> exact if_neg hm
        · intro b x hx
          by_cases hb : vp.flags.vtextfixed = false → b ≠ vp.text
          · exact Or.inl ((hmem b hb).trans hx)
          · obtain ⟨hf, hb⟩ := not_forall.1 hb
            obtain rfl := not_ne_iff.1 hb
            obtain ⟨y, hy, hname⟩ := Option.map_eq_some_iff.1 (h.live _ vp hv)
            obtain rfl := Option.some.inj (hx.symm.trans hy)
            exact Or.inr ⟨hname, (hfree hf).2⟩
        · intro v hw
          have hset : some ({ vp with flags := lvp.flags, text := text } : Var) = some v := by
            rw [← hw]
            exact (if_pos rfl).symm
          obtain rfl := Option.some.inj hset
          exact (congrArg _ htext).trans (h.texts lvp List.mem_cons_self text ht)
        · intro older hl hm
          obtain ⟨a, ha, hca⟩ := (List.pairwise_cons.1 h.pairs).1 older hl hm.symm
          obtain rfl := Option.some.inj (ht.symm.trans ha)
          refine ⟨{ vp with flags := lvp.flags, text := text }, if_pos rfl, ?_⟩
          exact ⟨hc.id.trans hca.id, hca.fixed, hca.stack, hca.owned, hca.readonly⟩
        · cases vp.flags.vtextfixed <;> rfl
        · cases vp.flags.vtextfixed <;> rfl
      · simp only [Shell.view, Shell.saved, Shell.set, if_true, ht, viewOf, htext]

theorem readonly_saved {lvp : Localvar} (h : Inv s saved) (hl : lvp ∈ saved)
    (hr : (s.view lvp.name).readonly = false) : (s.saved lvp).readonly = false := by
  obtain ⟨v, hv, hc⟩ := h.covers lvp hl
  simp only [Shell.view, hv, viewOf] at hr
  have hflags : lvp.flags.vreadonly = false := by
    by_contra hne
    rw [hc.readonly (eq_true_of_ne_false hne)] at hr
    cases hr
  unfold Shell.saved
  cases lvp.text with
  | none => rfl
  | some text => exact hflags

theorem poplocalvars_spec (new : List Localvar) : ∀ s : Shell, Inv s (new ++ saved) →
    ∃ s' ok, s.poplocalvars new = some (s', ok) ∧ Inv s' saved ∧
      (∀ lvp ∈ saved, ∀ a, lvp.text = some a → s'.mem a = s.mem a) ∧ s'.rflag = s.rflag ∧
      ∀ n, match oldest n new with
        | none => s'.view n = s.view n
        | some lvp => (lvp.unsets = false → s'.view n = s.saved lvp) ∧
          (lvp.unsets = true → Unsettable s n → s'.view n = .absent) := by
  induction new with
  | nil =>
    intro s h
    exact ⟨{ s with localvars := [] }, true, rfl,
      ⟨h.fresh, h.live, h.covers, h.texts, h.absent, h.pairs⟩, fun _ _ _ _ => rfl, rfl,
      fun _ => rfl⟩
  | cons lvp new ih =>
    intro s h
    obtain ⟨s₁, ok₁, hpop, hf, hput, hunset⟩ := poplocal_spec h
    obtain ⟨s', ok', hrest, hinv, htexts, hrflag, hview⟩ := ih s₁ hf.inv
    refine ⟨s', ok₁ && ok', ?_, hinv, fun older hl a ha => ?_, hrflag.trans hf.rflag, fun n => ?_⟩
    · simp only [Shell.poplocalvars, hpop, hrest]
    · exact (htexts older hl a ha).trans (hf.texts older (List.mem_append_right new hl) a ha)
    · have hview := hview n
      cases hold : oldest n new with
      | none =>
        simp only [hold] at hview
        by_cases hn : lvp.name = n
        · subst hn
          simp only [oldest, hold, Option.none_or, if_true, hview]
          exact ⟨hput, hunset⟩
        · simp only [oldest, hold, Option.none_or, if_neg hn, hview]
          exact hf.view n (Ne.symm hn)
      | some r =>
        simp only [hold] at hview
        simp only [oldest, hold, Option.some_or]
        obtain ⟨hr, hname⟩ := oldest_mem hold
        have hmem : r ∈ new ++ saved := List.mem_append_left saved hr
        refine ⟨fun hu => (hview.1 hu).trans ?_, fun hu hs => hview.2 hu ⟨?_, ?_, hs.name⟩⟩
        · unfold Shell.saved
          cases ht : r.text with
          | none => rfl
          | some a => simp only [viewOf, hf.texts r hmem a ht]
        · by_cases hn : n = lvp.name
          · subst hn
            -- a record over an older one is not put back by `unsetvar`
            obtain ⟨a, -, hc⟩ := (List.pairwise_cons.1 h.pairs).1 r hmem hname.symm
            have hfixed : lvp.flags.vstrfixed = true := hc.fixed
            rw [hput (by simp [Localvar.unsets, hfixed])]
            exact readonly_saved h List.mem_cons_self hs.readonly
          · rw [hf.view n hn]
            exact hs.readonly
        · rw [← hs.restricted, restricted, restricted, hf.rflag]

/-- The state in which a body first makes `n` local. -/
def Body.before (n : List Byte) : Body → Shell → Option Shell
  | .nil, _ => none
  | .cmd c rest, s =>
    if (c.run s).2 then if c.makes = some n then some s else rest.before n (c.run s).1
    else none
  | .call inner rest, s =>
    match inner.run { s with localvars := [] } with
    | none => none
    | some (s', ok) =>
      match s'.leave s.localvars with
      | none => none
      | some (s', ok') => if ok && ok' then rest.before n s' else none

/-- What a body saves of `n` is what it finds when it first makes `n` local. -/
def Saves (before : Option Shell) (s : Shell) (n : List Byte) (new : List Localvar) : Prop :=
  match before with
  | none => oldest n new = none
  | some sx => ∃ lvp, oldest n new = some lvp ∧ Record sx s n lvp

theorem Record.ran {sx : Shell} {lvp : Localvar} {new : List Localvar} (h : Record sx s n lvp)
    (hl : lvp ∈ saved) (hran : Ran s s' saved new) : Record sx s' n lvp where
  name := h.name
  new := h.new
  old v hv := by
    obtain ⟨hflags, htext, hmem⟩ := h.old v hv
    exact ⟨hflags, htext, (hran.texts lvp hl _ htext).trans hmem⟩

theorem Record.view {sx : Shell} {lvp : Localvar} (h : Record sx s n lvp) :
    s.saved lvp = sx.view n := by
  unfold Shell.saved Shell.view
  cases hv : sx.vartab n with
  | none => rw [(h.new hv).1]
  | some v =>
    obtain ⟨hflags, htext, hmem⟩ := h.old v hv
    simp only [htext, hflags, viewOf, hmem]

theorem leave_spec {new : List Localvar} {s₀ : Shell} (h : Ran s₀ s saved new)
    (hnil : s₀.localvars = []) (caller : List Localvar) :
    ∃ s' ok, s.leave caller = some (s', ok) ∧ Inv s' saved ∧
      (∀ lvp ∈ saved, ∀ a, lvp.text = some a → s'.mem a = s₀.mem a) ∧ s'.rflag = s₀.rflag ∧
      s'.localvars = caller ∧
      ∀ n, match oldest n new with
        | none => s'.view n = s.view n
        | some lvp => (lvp.unsets = false → s'.view n = s.saved lvp) ∧
          (lvp.unsets = true → Unsettable s n → s'.view n = .absent) := by
  obtain ⟨s', ok, hpop, hinv, htexts, hrflag, hview⟩ := poplocalvars_spec new s h.inv
  have hlocalvars : s.localvars = new := by rw [h.localvars, hnil, List.append_nil]
  refine ⟨{ s' with localvars := caller }, ok, ?_, ⟨hinv.fresh, hinv.live, hinv.covers, hinv.texts,
    hinv.absent, hinv.pairs⟩, fun lvp hl a ha => ?_, hrflag.trans h.rflag, rfl, hview⟩
  · rw [Shell.leave, hlocalvars, hpop]
  · exact (htexts lvp hl a ha).trans (h.texts lvp hl a ha)

theorem Body.run_spec (b : Body) : ∀ (s : Shell) (saved : List Localvar), Inv s saved →
    ∃ s' ok new, b.run s = some (s', ok) ∧ Ran s s' saved new ∧
      ∀ n, Saves (b.before n s) s' n new := by
  induction b with
  | nil =>
    intro s saved h
    exact ⟨s, true, [], rfl, (Frame.refl (n := []) h).ran, fun _ => rfl⟩
  | cmd c rest ih =>
    intro s saved h
    obtain ⟨new, hran, hmakes⟩ := ran_cmd h c
    cases hok : (c.run s).2 with
    | false =>
      refine ⟨(c.run s).1, false, new, ?_, hran, fun n => ?_⟩
      · simp only [Body.run, hok, Bool.false_eq_true, if_false]
      · have hnone : oldest n new = none := by
          refine oldest_eq_none.2 fun lvp hl => ?_
          have hnew := hmakes n
          simp only [Saved, hok, Bool.false_eq_true, if_false] at hnew
          split at hnew
          · rw [hnew] at hl
            exact absurd hl List.not_mem_nil
          · exact hnew lvp hl
        simp only [Body.before, hok, Bool.false_eq_true, if_false]
        exact hnone
    | true =>
      obtain ⟨s', ok, new', hrun, hran', hsaves⟩ := ih _ _ hran.inv
      refine ⟨s', ok, new' ++ new, ?_, hran.trans hran', fun n => ?_⟩
      · simp only [Body.run, hok, if_true, hrun]
      · have hnew := hmakes n
        simp only [Saved, hok, if_true] at hnew
        simp only [Body.before, hok, if_true]
        by_cases hm : c.makes = some n
        · rw [if_pos hm] at hnew ⊢
          obtain ⟨lvp, rfl, hrecord⟩ := hnew
          refine ⟨lvp, ?_, hrecord.ran (List.mem_cons_self ..) hran'⟩
          simp [oldest, hrecord.name]
        · rw [if_neg hm] at hnew ⊢
          have hnone : oldest n new = none := oldest_eq_none.2 hnew
          have hsaves := hsaves n
          unfold Saves at hsaves ⊢
          simp only [oldest_append, hnone, Option.none_or]
          exact hsaves
  | call inner rest ihi ihr =>
    intro s saved h
    have h₀ : Inv { s with localvars := [] } saved :=
      ⟨h.fresh, h.live, h.covers, h.texts, h.absent, h.pairs⟩
    obtain ⟨s₁, ok₁, new, hrun, hran, -⟩ := ihi _ saved h₀
    obtain ⟨s₂, ok₂, hleave, hinv, htexts, hrflag, hlocalvars, -⟩ := leave_spec hran rfl s.localvars
    have hcall : Ran s s₂ saved [] := ⟨hinv, htexts, hrflag, hlocalvars⟩
    cases hok : ok₁ && ok₂ with
    | false =>
      refine ⟨s₂, false, [], ?_, hcall, fun n => ?_⟩
      · simp only [Body.run, hrun, hleave, hok, Bool.false_eq_true, if_false]
      · simp only [Body.before, hrun, hleave, hok, Bool.false_eq_true, if_false]
        rfl
    | true =>
      obtain ⟨s', ok, new', hrest, hran', hsaves⟩ := ihr s₂ saved hinv
      refine ⟨s', ok, new', ?_, ?_, fun n => ?_⟩
      · simp only [Body.run, hrun, hleave, hok, if_true, hrest]
      · have htrans := hcall.trans hran'
        rwa [List.append_nil] at htrans
      · simp only [Body.before, hrun, hleave, hok, if_true]
        exact hsaves n

/-- What is put back by `unsetvar` had no value and was not exported, and can be unset when the
body ends. -/
def Restorable (sx s : Shell) (n : List Byte) : Prop :=
  (sx.view n).value = none → (∀ v, sx.vartab n = some v → v.flags.vstrfixed = false) →
    (sx.view n).exported = false ∧ Unsettable s n

/-- A call restores the variables that it has made local, as they were when they were first made
local, and leaves the others as the body has left them. -/
theorem call_restores {outer : List Localvar} (h : Inv s outer) (body : Body) :
    ∃ s₁ ok₁ s₂ ok₂, body.run { s with localvars := [] } = some (s₁, ok₁) ∧
      s₁.leave s.localvars = some (s₂, ok₂) ∧ s₂.localvars = s.localvars ∧ Inv s₂ outer ∧
      ∀ n, match body.before n { s with localvars := [] } with
        | none => s₂.view n = s₁.view n
        | some sx => Restorable sx s₁ n → s₂.view n = sx.view n := by
  have h₀ : Inv { s with localvars := [] } outer :=
    ⟨h.fresh, h.live, h.covers, h.texts, h.absent, h.pairs⟩
  obtain ⟨s₁, ok₁, new, hrun, hran, hsaves⟩ := body.run_spec _ outer h₀
  obtain ⟨s₂, ok₂, hleave, hinv, -, -, hlocalvars, hview⟩ := leave_spec hran rfl s.localvars
  refine ⟨s₁, ok₁, s₂, ok₂, hrun, hleave, hlocalvars, hinv, fun n => ?_⟩
  have hview := hview n
  have hsaves := hsaves n
  unfold Saves at hsaves
  cases hx : body.before n { s with localvars := [] } with
  | none =>
    rw [hx] at hsaves
    simp only [hsaves] at hview
    exact hview
  | some sx =>
    rw [hx] at hsaves
    obtain ⟨lvp, hold, hrecord⟩ := hsaves
    simp only [hold] at hview
    intro hrestorable
    cases hu : lvp.unsets with
    | false => exact (hview.1 hu).trans hrecord.view
    | true =>
      obtain ⟨hunset, hfixed⟩ : lvp.flags.vunset = true ∧ lvp.flags.vstrfixed = false := by
        simpa [Localvar.unsets] using hu
      have hvalue : (sx.view n).value = none := by
        unfold Shell.view
        cases hv : sx.vartab n with
        | none => rfl
        | some v =>
          rw [(hrecord.old v hv).1] at hunset
          exact if_pos hunset
      obtain ⟨hexported, hs⟩ := hrestorable hvalue fun v hv => (hrecord.old v hv).1 ▸ hfixed
      have hreadonly : (sx.view n).readonly = false := by
        rw [← hrecord.view]
        refine readonly_saved hran.inv (List.mem_append_left _ (oldest_mem hold).1) ?_
        rw [hrecord.name]
        exact hs.readonly
      rw [hview.2 hu hs]
      exact (View.ext hvalue hexported hreadonly).symm

end

/-- The shell after `x=1`. -/
def oneVariable : Shell where
  mem a := if a = 0 then some ([120], [49]) else none
  brk := 1
  vartab n := if n = [120] then some ⟨0, Flags.zero, 0⟩ else none
  ids := 1
  localvars := []
  vexport := false
  rflag := false

theorem inv_oneVariable : Inv oneVariable [] where
  fresh a ha := if_neg (Nat.ne_of_gt ha)
  live n v hv := by
    have hset : (if n = [120] then some (⟨0, Flags.zero, 0⟩ : Var) else none) = some v := hv
    split at hset
    · obtain rfl := Option.some.inj hset
      subst n
      rfl
    · cases hset
  covers _ hl := absurd hl List.not_mem_nil
  texts _ hl := absurd hl List.not_mem_nil
  absent _ hl := absurd hl List.not_mem_nil
  pairs := List.Pairwise.nil

/-- `local x=5; unset x`. -/
theorem call_restores_x : ∃ s₁ ok₁ s₂ ok₂,
    (Body.cmd (.makeLocal [120] (some [53])) (.cmd (.unset [120]) .nil)).run
      { oneVariable with localvars := [] } = some (s₁, ok₁) ∧
    s₁.leave oneVariable.localvars = some (s₂, ok₂) ∧ s₂.view [120] = oneVariable.view [120] := by
  obtain ⟨s₁, ok₁, s₂, ok₂, hrun, hleave, -, -, hview⟩ := call_restores inv_oneVariable
    (Body.cmd (.makeLocal [120] (some [53])) (.cmd (.unset [120]) .nil))
  exact ⟨s₁, ok₁, s₂, ok₂, hrun, hleave, hview [120] fun hvalue => by cases hvalue⟩

/-- After `x=5; local x` the variable keeps the new value. -/
theorem local_after_assign : ∃ (s s₁ s₂ : Shell) (body : Body),
    Inv s [] ∧ body.run { s with localvars := [] } = some (s₁, true) ∧
      s₁.leave s.localvars = some (s₂, true) ∧
      (body.before [120] { s with localvars := [] }).isSome = true ∧
      s₂.view [120] ≠ s.view [120] :=
  ⟨oneVariable, _, _, .cmd (.assign [120] [53]) (.cmd (.makeLocal [120] none) .nil),
    inv_oneVariable, rfl, rfl, rfl, by decide⟩

end Bsdi.Sh.Local
