import Bsdi.Sh.Var

/-!
# What the commands of a function body save
-/

namespace Bsdi.Sh.Local

section Commands

variable {s s' : Shell} {saved : List Localvar} {n : List Byte}

theorem Inv.tail {lvp : Localvar} (h : Inv s (lvp :: saved)) : Inv s saved where
  fresh := h.fresh
  live := h.live
  covers older hl := h.covers older (List.mem_cons_of_mem lvp hl)
  texts older hl := h.texts older (List.mem_cons_of_mem lvp hl)
  absent older hl := h.absent older (List.mem_cons_of_mem lvp hl)
  pairs := (List.pairwise_cons.1 h.pairs).2

theorem frame_drop (h : Inv s saved) : Frame s (s.drop n) saved n := by
  unfold Shell.drop
  cases hv : s.vartab n with
  | none => exact Frame.refl h
  | some vp =>
    dsimp only
    split
    · exact frame_flags h hv id (Or.inr ⟨rfl, rfl⟩) id
    · rename_i hfixed
      have hnone : ∀ lvp ∈ saved, lvp.name ≠ n := by
        intro lvp hl hm
        obtain ⟨w, hw, hc⟩ := h.covers lvp hl
        rw [hm, hv] at hw
        obtain rfl := Option.some.inj hw
        exact hfixed hc.fixed
      refine frame_of h ?_ ?_ ?_ ?_ (fun lvp hl hm => absurd hm (hnone lvp hl)) ?_ ?_
      · intro a ha
        cases hf : vp.flags.vtextfixed with
        | true =>
          rw [hf] at ha
          exact h.fresh a ha
        | false =>
          rw [hf] at ha
          simp only [Shell.set, Shell.ckfree, Bool.false_eq_true, if_false]
          split
          · rfl
          · exact h.fresh a ha
      · intro m hm
        cases vp.flags.vtextfixed <;> exact if_neg hm
      · intro b x hx
        by_cases hb : b = vp.text
        · subst hb
          obtain ⟨y, hy, hname⟩ := Option.map_eq_some_iff.1 (h.live n vp hv)
          obtain rfl := Option.some.inj (hx.symm.trans hy)
          exact Or.inr ⟨hname, fun lvp hl hm => absurd hm (hnone lvp hl)⟩
        · refine Or.inl ?_
          cases vp.flags.vtextfixed with
          | true => exact hx
          | false => exact (if_neg hb).trans hx
      · intro v hw
        have hgone : (none : Option Var) = some v := by
          rw [← hw]
          cases vp.flags.vtextfixed <;> exact (if_pos rfl).symm
        cases hgone
      · cases vp.flags.vtextfixed <;> rfl
      · cases vp.flags.vtextfixed <;> rfl

theorem frame_unsetvar (h : Inv s saved) : Frame s (s.unsetvar n).1 saved n := by
  unfold Shell.unsetvar
  cases hv : s.vartab n with
  | none => exact Frame.refl h
  | some vp =>
    dsimp only
    split
    · exact Frame.refl h
    · split
      · split
        · have hset : Frame s (s.setvareq n [] Flags.zero).1 saved n :=
            frame_setvareq h [] ⟨rfl, rfl⟩
          cases (s.setvareq n [] Flags.zero).2 with
          | true => exact hset.trans (frame_drop hset.inv)
          | false => exact hset
        · exact Frame.refl h
      · exact frame_drop h

theorem frame_setvar (h : Inv s saved) (val : Option (List Byte)) {flags : Flags}
    (hflags : flags.vstack = false ∧ flags.vtextfixed = false) :
    Frame s (s.setvar n val flags).1 saved n := by
  unfold Shell.setvar
  split
  · exact Frame.refl h
  · split
    · exact Frame.refl h
    · exact frame_setvareq h _ hflags

theorem frame_exportcmd (h : Inv s saved) (val : Option (List Byte)) {flag : Flags}
    (hflag : flag.vstack = false ∧ flag.vtextfixed = false) :
    Frame s (s.exportcmd flag n val).1 saved n := by
  unfold Shell.exportcmd
  split
  · rename_i vp hv
    refine frame_flags h hv (fun hf => ?_) (Or.inr ?_) (fun hr => ?_)
    · simp [Flags.or, hf]
    · simp [Flags.or, hflag.1, hflag.2]
    · simp [Flags.or, hr]
  · exact frame_setvar h _ hflag

theorem view_drop (hr : ∀ v, s.vartab n = some v → v.flags.vreadonly = false) :
    (s.drop n).view n = .absent := by
  unfold Shell.drop
  cases hv : s.vartab n with
  | none => simp only [Shell.view, hv]
  | some vp =>
    dsimp only
    split
    · simp only [Shell.view, Shell.set, if_true, viewOf, hr vp hv]
      rfl
    · simp only [Shell.view, Shell.set, if_true]

theorem view_unsetvar (hr : (s.view n).readonly = false) (hrestricted : restricted n s = false)
    (hname : goodName n = true) : (s.unsetvar n).1.view n = .absent := by
  unfold Shell.unsetvar
  cases hv : s.vartab n with
  | none => simp only [Shell.view, hv]
  | some vp =>
    have hreadonly : vp.flags.vreadonly = false := by
      simpa only [Shell.view, hv, viewOf] using hr
    have hr' : ∀ v, s.vartab n = some v → v.flags.vreadonly = false := by
      intro v hw
      obtain rfl := Option.some.inj (hv.symm.trans hw)
      exact hreadonly
    have hset : ∃ v, s.setvareq n [] Flags.zero = (v, true) ∧
        ∀ w, v.vartab n = some w → w.flags.vreadonly = false := by
      have hrestricted' : restricted n (s.alloc n []) = false := hrestricted
      have hv' : (s.alloc n []).vartab n = some vp := hv
      simp only [Shell.setvareq, hv', hreadonly, hrestricted', Bool.or_self, Bool.false_eq_true,
        if_false]
      refine ⟨_, rfl, fun w hw => ?_⟩
      simp only [Shell.set, if_true, Option.some.injEq] at hw
      subst hw
      simp [Flags.or, Flags.zero]
    obtain ⟨v, hsv, hw⟩ := hset
    simp only [hreadonly, Bool.false_eq_true, if_false, hname, if_true, hsv]
    split
    · exact view_drop hw
    · exact view_drop hr'

/-- `lvp` keeps the variable `n` as it was in `sx`. -/
structure Record (sx s : Shell) (n : List Byte) (lvp : Localvar) : Prop where
  name : lvp.name = n
  new : sx.vartab n = none → lvp.text = none ∧ lvp.flags = { Flags.zero with vunset := true }
  old : ∀ v, sx.vartab n = some v →
    lvp.flags = v.flags ∧ lvp.text = some v.text ∧ s.mem v.text = sx.mem v.text

/-- What a command leaves that has saved the records `new`. -/
structure Ran (s s' : Shell) (saved new : List Localvar) : Prop where
  inv : Inv s' (new ++ saved)
  texts : ∀ lvp ∈ saved, ∀ a, lvp.text = some a → s'.mem a = s.mem a
  rflag : s'.rflag = s.rflag
  localvars : s'.localvars = new ++ s.localvars

theorem Frame.ran (h : Frame s s' saved n) : Ran s s' saved [] :=
  ⟨h.inv, h.texts, h.rflag, h.localvars⟩

theorem Ran.trans {s'' : Shell} {new new' : List Localvar} (h : Ran s s' saved new)
    (h' : Ran s' s'' (new ++ saved) new') : Ran s s'' saved (new' ++ new) where
  inv := by
    rw [List.append_assoc]
    exact h'.inv
  texts lvp hl a ha :=
    (h'.texts lvp (List.mem_append_right new hl) a ha).trans (h.texts lvp hl a ha)
  rflag := h'.rflag.trans h.rflag
  localvars := by rw [h'.localvars, h.localvars, List.append_assoc]

/-- What `mklocal` saves: one record, or none after an error. -/
def Saved (s : Shell) (n : List Byte) (r : Res) (new : List Localvar) : Prop :=
  if r.2 then ∃ lvp, new = [lvp] ∧ Record s r.1 n lvp else new = []

theorem ran_link {r : Res} {lvp : Localvar} (hr : Frame s r.1 saved n)
    (hinv : r.2 = true → Inv r.1 (lvp :: saved) ∧ Record s r.1 n lvp) :
    ∃ new, Ran s (Shell.link lvp r).1 saved new ∧ Saved s n (Shell.link lvp r) new := by
  obtain ⟨r, ok⟩ := r
  cases ok with
  | false => exact ⟨[], hr.ran, rfl⟩
  | true =>
    obtain ⟨hi, hrecord⟩ := hinv rfl
    refine ⟨[lvp], ⟨⟨hi.fresh, hi.live, hi.covers, hi.texts, hi.absent, hi.pairs⟩, hr.texts,
      hr.rflag, congrArg _ hr.localvars⟩, lvp, rfl, ?_⟩
    exact ⟨hrecord.name, hrecord.new, hrecord.old⟩

theorem ran_mklocal_old (h : Inv s saved) {vp : Var} (hv : s.vartab n = some vp)
    (val : Option (List Byte)) :
    ∃ new, Ran s (s.mklocal n val).1 saved new ∧ Saved s n (s.mklocal n val) new := by
  let flags := vp.flags.or ⟨s.vexport, false, true, true, false, false⟩
  let lvp : Localvar := ⟨n, vp.id, vp.flags, some vp.text⟩
  have hfixed : flags.vstrfixed = true := Bool.or_true _
  have htext : flags.vtextfixed = true := Bool.or_true _
  have hframe : Frame s (s.set n (some { vp with flags := flags })) saved n :=
    frame_flags h hv (fun _ => hfixed) (Or.inl htext) fun hr => by simp [flags, Flags.or, hr]
  have hset : (s.set n (some { vp with flags := flags })).vartab n =
      some { vp with flags := flags } := if_pos rfl
  have hinv : Inv (s.set n (some { vp with flags := flags })) (lvp :: saved) := by
    refine ⟨hframe.inv.fresh, hframe.inv.live, ?_, ?_, ?_, ?_⟩
    · intro older hl
      rcases List.mem_cons.1 hl with rfl | hl
      · refine ⟨_, hset, rfl, hfixed, fun hf => ?_, fun ho => ?_, fun hr => ?_⟩
        · exact absurd (htext.symm.trans hf) (by decide)
        · simp [Flags.owned, htext] at ho
        · have hr' : vp.flags.vreadonly = true := hr
          simp [flags, Flags.or, hr']
      · exact hframe.inv.covers older hl
    · intro older hl a ha
      rcases List.mem_cons.1 hl with rfl | hl
      · obtain rfl := Option.some.inj ha
        exact h.live n vp hv
      · exact hframe.inv.texts older hl a ha
    · intro older hl ht
      rcases List.mem_cons.1 hl with rfl | hl
      · cases ht
      · exact h.absent older hl ht
    · refine List.pairwise_cons.2 ⟨fun older hl hm => ⟨vp.text, rfl, ?_⟩, h.pairs⟩
      obtain ⟨w, hw, hc⟩ := h.covers older hl
      have hname : n = older.name := hm
      rw [← hname, hv] at hw
      obtain rfl := Option.some.inj hw
      exact hc
  have hlink : ∀ r : Res, Frame (s.set n (some { vp with flags := flags })) r.1 (lvp :: saved) n →
      Frame s r.1 saved n ∧ (r.2 = true → Inv r.1 (lvp :: saved) ∧ Record s r.1 n lvp) := by
    intro r hr
    have hweak : Frame (s.set n (some { vp with flags := flags })) r.1 saved n :=
      ⟨hr.inv.tail, fun older hl => hr.texts older (List.mem_cons_of_mem lvp hl), hr.view,
        hr.vartab, hr.rflag, hr.localvars⟩
    refine ⟨hframe.trans hweak, fun _ => ⟨hr.inv, rfl, fun hn => ?_, fun w hw => ?_⟩⟩
    · rw [hv] at hn
      cases hn
    · obtain rfl := Option.some.inj (hv.symm.trans hw)
      exact ⟨rfl, rfl, hr.texts lvp List.mem_cons_self vp.text rfl⟩
  unfold Shell.mklocal
  simp only [hv]
  cases val with
  | none =>
    obtain ⟨hf, hi⟩ := hlink (_, true) (Frame.refl hinv)
    exact ran_link hf hi
  | some val =>
    have hzero : Flags.zero.vstack = false ∧ Flags.zero.vtextfixed = false := ⟨rfl, rfl⟩
    obtain ⟨hf, hi⟩ := hlink _ (frame_setvareq hinv val hzero)
    exact ran_link hf hi

theorem setvar_of_ok {val : Option (List Byte)} {flags : Flags}
    (h : (s.setvar n val flags).2 = true) : s.setvar n val flags =
      s.setvareq n (val.getD []) { flags with vunset := flags.vunset || val.isNone } := by
  unfold Shell.setvar at h ⊢
  by_cases hr : restricted n s = true
  · rw [if_pos hr] at h
    cases h
  · rw [if_neg hr] at h ⊢
    by_cases hn : ¬ goodName n = true
    · rw [if_pos hn] at h
      cases h
    · rw [if_neg hn]

theorem ran_mklocal_new (h : Inv s saved) (hv : s.vartab n = none) (val : Option (List Byte)) :
    ∃ new, Ran s (s.mklocal n val).1 saved new ∧ Saved s n (s.mklocal n val) new := by
  let lvp : Localvar := ⟨n, s.ids, { Flags.zero with vunset := true }, none⟩
  have hnone : ∀ older ∈ saved, older.name ≠ n := by
    intro older hl hm
    obtain ⟨w, hw, -⟩ := h.covers older hl
    rw [hm, hv] at hw
    cases hw
  have hinv : ∀ s', Frame s s' saved n → (∃ v, s'.vartab n = some v ∧ Covers v lvp) →
      Inv s' (lvp :: saved) ∧ Record s s' n lvp := by
    intro s' hf hc
    refine ⟨⟨hf.inv.fresh, hf.inv.live, ?_, ?_, ?_, ?_⟩, rfl, fun _ => ⟨rfl, rfl⟩, ?_⟩
    · intro older hl
      rcases List.mem_cons.1 hl with rfl | hl
      · exact hc
      · exact hf.inv.covers older hl
    · intro older hl a ha
      rcases List.mem_cons.1 hl with rfl | hl
      · cases ha
      · exact hf.inv.texts older hl a ha
    · intro older hl ht
      rcases List.mem_cons.1 hl with rfl | hl
      · rfl
      · exact h.absent older hl ht
    · exact List.pairwise_cons.2 ⟨fun older hl hm => absurd hm.symm (hnone older hl), h.pairs⟩
    · intro w hw
      rw [hv] at hw
      cases hw
  have hnew : ∀ value flags, flags.vstrfixed = true → flags.vstack = false →
      ∃ v, (s.setvareq n value flags).1.vartab n = some v ∧ Covers v lvp := by
    intro value flags hfixed hstack
    have hv' : (s.alloc n value).vartab n = none := hv
    refine ⟨⟨s.ids, flags, s.brk⟩, ?_, rfl, hfixed, fun _ => hstack, fun _ => ?_, fun hr => ?_⟩
    · simp only [Shell.setvareq, hv', Shell.set, if_true]
      rfl
    · exact (Option.some_ne_none _).symm
    · cases hr
  unfold Shell.mklocal
  simp only [hv]
  cases val with
  | none =>
    refine ran_link (frame_setvar h none ⟨rfl, rfl⟩) fun hok => ?_
    refine hinv _ (frame_setvar h none ⟨rfl, rfl⟩) ?_
    rw [setvar_of_ok hok]
    exact hnew _ _ rfl rfl
  | some val =>
    refine ran_link (frame_setvareq h val ⟨rfl, rfl⟩) fun _ => ?_
    exact hinv _ (frame_setvareq h val ⟨rfl, rfl⟩) (hnew _ _ rfl rfl)

theorem ran_mklocal (h : Inv s saved) (val : Option (List Byte)) :
    ∃ new, Ran s (s.mklocal n val).1 saved new ∧ Saved s n (s.mklocal n val) new := by
  cases hv : s.vartab n with
  | none => exact ran_mklocal_new h hv val
  | some vp => exact ran_mklocal_old h hv val

def Cmd.makes : Cmd → Option (List Byte)
  | .makeLocal name _ => some name
  | _ => none

theorem ran_cmd (h : Inv s saved) (c : Cmd) : ∃ new, Ran s (c.run s).1 saved new ∧
    ∀ m, if c.makes = some m then Saved s m (c.run s) new else ∀ lvp ∈ new, lvp.name ≠ m := by
  have hothers : ∀ m (c : Cmd), c.makes = none → Frame s (c.run s).1 saved m →
      ∃ new, Ran s (c.run s).1 saved new ∧
        ∀ m, if c.makes = some m then Saved s m (c.run s) new
          else ∀ lvp ∈ new, lvp.name ≠ m := by
    intro m c hc hf
    refine ⟨[], hf.ran, fun m => ?_⟩
    rw [hc, if_neg (Option.some_ne_none m).symm]
    exact fun _ hl => absurd hl List.not_mem_nil
  cases c with
  | makeLocal n val =>
    obtain ⟨new, hran, hsaved⟩ := ran_mklocal h val
    refine ⟨new, hran, fun m => ?_⟩
    by_cases hm : n = m
    · subst hm
      exact (if_pos rfl).mpr hsaved
    · refine (if_neg (fun heq => hm (Option.some.inj heq))).mpr fun l hl => ?_
      unfold Saved at hsaved
      split at hsaved
      · obtain ⟨lvp, rfl, hr⟩ := hsaved
        obtain rfl := List.mem_singleton.1 hl
        exact hr.name.trans_ne hm
      · subst hsaved
        exact absurd hl List.not_mem_nil
  | assign n val => exact hothers n _ rfl (frame_setvareq h val ⟨rfl, rfl⟩)
  | «export» readonly n val => exact hothers n _ rfl (frame_exportcmd h val ⟨rfl, rfl⟩)
  | unset n => exact hothers n _ rfl (frame_unsetvar h)

end Commands

end Bsdi.Sh.Local
