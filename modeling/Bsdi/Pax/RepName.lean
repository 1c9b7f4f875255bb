import Bsdi.Pax.Rename

/-!
# The names `rep_name` makes

The list of replacement strings is walked to the first expression that matches, and the outcome
of its inner loop is put beside what `ed` makes of the name.
-/

namespace Bsdi.Pax

section
variable {reps : List Replace} {line junk inpt out s : List Chr} {pt : Replace} {fuel : Nat}

def Substituted.outcome : Substituted → Outcome
  | .refused => .skip .error
  | .upTo _ inpt out => repTail inpt out

theorem repTail_fits (h : out.length ≤ paxpathlen) : (repTail inpt out).Fits := by
  rw [repTail]
  split
  · trivial
  · next hroom =>
    rw [newName]
    split
    · trivial
    · rw [Outcome.Fits, List.length_append]
      omega

theorem repTail_of_eq (h : out ++ str inpt = s) (hs : s.length ≤ paxpathlen) :
    repTail inpt out = newName s := by
  subst h
  rw [List.length_append] at hs
  rw [repTail, if_neg (by omega)]

theorem newName_inj {s t : List Chr} (h : newName s = newName t) : s = t := by
  simp only [newName] at h
  split at h <;> split at h
  · next hs ht => rw [hs, ht]
  · cases h
  · cases h
  · exact Outcome.name.inj h

theorem newName_ne {why : Refusal} (h : why ≠ .empty) : Outcome.skip why ≠ newName s := by
  rw [newName]
  split
  · exact fun heq => h (Outcome.skip.inj heq)
  · exact Outcome.noConfusion

theorem newName_fits : (newName s).Fits ↔ s.length ≤ paxpathlen := by
  rw [newName]
  split
  · next hs => simp [Outcome.Fits, hs]
  · exact Iff.rfl

theorem eq_of_repTail (h : repTail inpt out = newName s) : out ++ str inpt = s := by
  rw [repTail] at h
  split at h
  · exact absurd h (newName_ne (by decide))
  · exact newName_inj h

theorem repLoop_inv {found found' : Bool} {inpt' out' : List Chr} (hout : out.length ≤ paxpathlen)
    (h : repLoop pt fuel found inpt out = some (.upTo found' inpt' out')) :
    out'.length ≤ paxpathlen ∧ (found = true → found' = true) := by
  induction fuel generalizing found inpt out with
  | zero => cases h
  | succ fuel ih =>
    cases hm : pt.rcmp.regexec (str inpt) 0 with
    | none =>
      rw [repLoop_none rfl hm] at h
      cases h
      exact ⟨hout, id⟩
    | some m =>
      rw [repLoop_some rfl hm] at h
      have hpre : (out ++ inpt.take (min m.so (paxpathlen - out.length))).length ≤ paxpathlen := by
        rw [List.length_append, List.length_take]
        omega
      simp only at h
      split at h
      · cases h
        exact ⟨hpre, fun _ => rfl⟩
      split at h
      · cases h
      next res hres =>
      have hlen := length_resub hres
      have hres' : (out ++ inpt.take (min m.so (paxpathlen - out.length)) ++ res).length ≤
          paxpathlen := by
        rw [List.length_append]
        omega
      split at h
      · cases h
        exact ⟨hres', fun _ => rfl⟩
      split at h
      · exact ⟨(ih hres' h).1, fun _ => (ih hres' h).2 rfl⟩
      · cases h
        exact ⟨hres', fun _ => rfl⟩

theorem repList_fits {o : Outcome} (hlen : line.length ≤ paxpathlen)
    (hout : out.length ≤ paxpathlen)
    (h : repList fuel line reps inpt out = some o) : o.Fits := by
  induction reps generalizing inpt out with
  | nil =>
    cases h
    exact hlen
  | cons pt reps ih =>
    rw [repList] at h
    split at h
    · cases h
    · cases h
      trivial
    · next hloop =>
      cases h
      exact repTail_fits (repLoop_inv hout hloop).1
    · next hloop => exact ih (repLoop_inv hout hloop).1 h

theorem repName_fits {o : Outcome} (hlen : line.length ≤ paxpathlen)
    (h : repName fuel reps line junk = some o) : o.Fits :=
  repList_fits hlen (Nat.zero_le _) h

theorem repLoop_found {rest : List Chr} {m : RegMatch rest 0} (hstr : str inpt = rest)
    (h : pt.rcmp.regexec rest 0 = some m) :
    repLoop pt fuel false inpt out = repLoop pt fuel true inpt out := by
  cases fuel with
  | zero => rfl
  | succ fuel => rw [repLoop_some hstr h, repLoop_some hstr h]

theorem applied_some (h : applied reps line = some pt) :
    ∃ m, pt.rcmp.regexec line 0 = some m :=
  Option.isSome_iff_exists.mp
    (List.find?_some (p := fun pt : Replace => (pt.rcmp.regexec line 0).isSome) h)

theorem str_name (hnz : 0 ∉ line) : str (line ++ 0 :: junk) = line := by
  rw [str_append hnz, str_zero, List.append_nil]

theorem repName_applied (hnz : 0 ∉ line) (h : applied reps line = some pt) :
    repName fuel reps line junk =
      (repLoop pt fuel true (line ++ 0 :: junk) []).map Substituted.outcome := by
  rw [repName]
  cases fuel with
  | zero =>
    cases reps with
    | nil => cases h
    | cons head reps => rfl
  | succ fuel =>
  induction reps with
  | nil => cases h
  | cons head reps ih =>
    rw [applied, List.find?_cons] at h
    split at h
    · next hmatch =>
      cases h
      obtain ⟨m, hm⟩ := Option.isSome_iff_exists.mp hmatch
      rw [repList, repLoop_found (str_name hnz) hm]
      split
      · next hrun => rw [hrun]; rfl
      · next hrun => rw [hrun]; rfl
      · next hrun => rw [hrun]; rfl
      · next hrun => exact absurd ((repLoop_inv (Nat.zero_le _) hrun).2 rfl) Bool.noConfusion
    · next hmatch =>
      have hm : head.rcmp.regexec line 0 = none := by simpa using hmatch
      rw [repList, repLoop_none (str_name hnz) hm]
      exact ih h

theorem repName_unmatched (hnz : 0 ∉ line) (h : applied reps line = none) :
    repName (fuel + 1) reps line junk = some (.name line) := by
  rw [repName]
  induction reps with
  | nil => rfl
  | cons head reps ih =>
    rw [applied, List.find?_cons] at h
    split at h
    · cases h
    · next hmatch =>
      have hm : head.rcmp.regexec line 0 = none := by simpa using hmatch
      rw [repList, repLoop_none (str_name hnz) hm]
      exact ih h

end

/-- A file name: it ends at its zero, and has room in the array of an `ARCHD`. -/
structure FileName where
  chars : List Chr
  nonzero : 0 ∉ chars
  fits : chars.length ≤ paxpathlen

/-- Where `rep_name` does what `ed` does. The first match comes at once and the next ones adjoin;
or it starts where the name ends and the buffer is full; or there is just one substitution, and
what it makes is too long. -/
def Safe (reps : List Replace) (line : List Chr) : Prop :=
  ∀ pt m, applied reps line = some pt → pt.rcmp.regexec line 0 = some m →
    Adjoining pt line 0 0 ∨ m.so = paxpathlen ∨
      pt.glob = false ∧ ∀ s, edFrom pt line 0 = some s → paxpathlen < s.length

section
variable {reps : List Replace} {line junk inpt s : List Chr} {pt : Replace} {fuel : Nat}

theorem edName_applied (h : applied reps line = some pt) :
    edName reps line = (edFrom pt line 0).map newName := by
  rw [edName, h]

theorem repLoop_once {rest : List Chr} {m : RegMatch rest 0} (out : List Chr) (found : Bool)
    (hglob : pt.glob = false) (hstr : str inpt = rest) (h : pt.rcmp.regexec rest 0 = some m) :
    ∃ r, ∀ fuel, repLoop pt (fuel + 1) found inpt out = some r := by
  simp only [repLoop_some hstr h, hglob, Bool.false_eq_true, if_false, ite_self]
  split
  · exact ⟨_, fun _ => rfl⟩
  split
  · exact ⟨_, fun _ => rfl⟩
  · exact ⟨_, fun _ => rfl⟩

theorem asEd_of_outcome {r : Substituted} (hnz : 0 ∉ line) (hlen : line.length ≤ paxpathlen)
    (happ : applied reps line = some pt)
    (hrun : repLoop pt fuel true (line ++ 0 :: junk) [] = some r)
    (hres : ∀ s, edFrom pt line 0 = some s → s.length ≤ paxpathlen → r.outcome = newName s) :
    ∃ fuel o, repName fuel reps line junk = some o ∧ o.Fits ∧
      ∀ r, edName reps line = some r → r.Fits → o = r := by
  have hname : repName fuel reps line junk = some r.outcome := by
    rw [repName_applied hnz happ, hrun]
    rfl
  refine ⟨fuel, _, hname, repName_fits hlen hname, fun o ho hfits => ?_⟩
  rw [edName_applied happ] at ho
  obtain ⟨s, hs, rfl⟩ := Option.map_eq_some_iff.mp ho
  exact hres s hs (newName_fits.mp hfits)

theorem repLoop_full {m : RegMatch line 0} (hnz : 0 ∉ line) (hlen : line.length ≤ paxpathlen)
    (hm : pt.rcmp.regexec line 0 = some m) (hso : m.so = paxpathlen) :
    repLoop pt 1 true (line ++ 0 :: junk) [] = some (.upTo true (0 :: junk) line) := by
  have hmlen : m.so ≤ line.length := m.so_le.trans m.eo_le
  have hline : line.length = paxpathlen := by omega
  rw [repLoop_some (str_name hnz) hm]
  simp only [hso, List.length_nil, Nat.sub_zero, Nat.min_self, List.nil_append, ← hline,
    List.take_left, List.drop_left, if_true]

theorem edFrom_full {m : RegMatch line 0} (hlen : line.length ≤ paxpathlen)
    (hm : pt.rcmp.regexec line 0 = some m) (hso : m.so = paxpathlen)
    (hs : edFrom pt line 0 = some s) (hfits : s.length ≤ paxpathlen) : s = line := by
  have hmlen : m.so ≤ line.length := m.so_le.trans m.eo_le
  obtain ⟨text, tail, -, rfl, -, -⟩ := edFrom_inv hm hs
  have hwhole : window line (0, m.so) = line := by
    rw [window, List.drop_zero, Nat.sub_zero, List.take_of_length_le (by simp only; omega)]
  rw [hwhole, List.length_append, List.length_append] at hfits
  have htext : text = [] := List.length_eq_zero_iff.mp (by omega)
  have htail : tail = [] := List.length_eq_zero_iff.mp (by omega)
  rw [hwhole, htext, htail, List.append_nil, List.append_nil]

theorem asEd_of_safe (hnz : 0 ∉ line) (hlen : line.length ≤ paxpathlen) (h : Safe reps line) :
    AsEd reps line := by
  intro junk
  cases happ : applied reps line with
  | none =>
    refine ⟨1, _, repName_unmatched hnz happ, hlen, fun r hr _ => ?_⟩
    rw [edName, happ] at hr
    exact Option.some.inj hr
  | some pt =>
    obtain ⟨m, hm⟩ := applied_some happ
    rcases h pt m happ hm with hadj | hfull | ⟨hglob, hlong⟩
    · obtain ⟨fuel, r, hrun, hr⟩ := hadj.repLoop junk [] hnz (Nat.zero_le _) (by decide)
      refine asEd_of_outcome hnz hlen happ hrun fun s hs hfits => ?_
      obtain ⟨inpt, out, rfl, heq⟩ := hr rfl s hs (by omega)
      exact repTail_of_eq heq hfits
    · refine asEd_of_outcome hnz hlen happ (repLoop_full hnz hlen hm hfull) fun s hs hfits => ?_
      obtain rfl := edFrom_full hlen hm hfull hs hfits
      exact repTail_of_eq (by rw [str_zero, List.append_nil]) hfits
    · have hstr : str (line ++ 0 :: junk) = line := str_name hnz
      obtain ⟨r, hrun⟩ := repLoop_once [] true hglob hstr hm
      refine asEd_of_outcome hnz hlen happ (hrun 0) fun s hs hfits => ?_
      exact absurd hfits (Nat.not_le.mpr (hlong s hs))

theorem AsEd.written {m : RegMatch line 0} (hnz : 0 ∉ line) (happ : applied reps line = some pt)
    (hm : pt.rcmp.regexec line 0 = some m) (hglob : pt.glob = false)
    (hs : edFrom pt line 0 = some s) (hfits : s.length ≤ paxpathlen) (hso : m.so < paxpathlen)
    (h : AsEd reps line) :
    ∃ res, resub pt.rcmp.nsub m.pm pt.nstr (paxpathlen - m.so) (pieces pt.nstr) = some res ∧
      ∀ junk, line.take m.so ++ res ++ str ((line ++ 0 :: junk).drop (m.so + m.eo)) = s := by
  have hrun : ∀ junk, ∃ fuel r, repLoop pt (fuel + 1) true (line ++ 0 :: junk) [] = some r ∧
      r.outcome = newName s := by
    intro junk
    obtain ⟨fuel, o, hname, -, hed⟩ := h junk
    rw [repName_applied hnz happ] at hname
    obtain ⟨r, hr, rfl⟩ := Option.map_eq_some_iff.mp hname
    cases fuel with
    | zero => cases hr
    | succ fuel =>
      refine ⟨fuel, r, hr, hed _ ?_ (newName_fits.mpr hfits)⟩
      rw [edName_applied happ, hs]
      rfl
  have hmlen : m.so ≤ line.length := m.so_le.trans m.eo_le
  have hpass : ∀ junk fuel, repLoop pt (fuel + 1) true (line ++ 0 :: junk) [] =
      some ((resub pt.rcmp.nsub m.pm pt.nstr (paxpathlen - m.so) (pieces pt.nstr)).elim .refused
        fun res => .upTo true ((line ++ 0 :: junk).drop (m.so + m.eo)) (line.take m.so ++ res)) := by
    intro junk fuel
    have htake : (line ++ 0 :: junk).take m.so = line.take m.so :=
      List.take_append_of_le_length hmlen
    have hlen : (line.take m.so).length = m.so := List.length_take_of_le hmlen
    rw [repLoop_some (str_name hnz) hm]
    simp only [List.length_nil, Nat.sub_zero, Nat.min_eq_left hso.le, List.nil_append, htake, hlen,
      hso.ne, if_false, hglob, Bool.false_eq_true, ite_self, List.drop_drop]
    cases resub pt.rcmp.nsub m.pm pt.nstr (paxpathlen - m.so) (pieces pt.nstr) <;> rfl
  cases hresub : resub pt.rcmp.nsub m.pm pt.nstr (paxpathlen - m.so) (pieces pt.nstr) with
  | none =>
    obtain ⟨fuel, r, hr, hout⟩ := hrun []
    rw [hpass, hresub] at hr
    cases hr
    exact absurd hout (newName_ne (by decide))
  | some res =>
    refine ⟨res, rfl, fun junk => ?_⟩
    obtain ⟨fuel, r, hr, hout⟩ := hrun junk
    rw [hpass, hresub] at hr
    cases hr
    exact eq_of_repTail hout

theorem inPlace_of_asEd {m : RegMatch line 0} (hnz : 0 ∉ line) (hlen : line.length ≤ paxpathlen)
    (happ : applied reps line = some pt) (hm : pt.rcmp.regexec line 0 = some m)
    (hglob : pt.glob = false) (hs : edFrom pt line 0 = some s) (hfits : s.length ≤ paxpathlen)
    (h : AsEd reps line) : m.so = paxpathlen ∨ pt.InPlace m := by
  have hso := m.so_le
  have heo := m.eo_le
  rcases Nat.lt_or_ge m.so paxpathlen with hlt | hge
  swap
  · exact .inl (by omega)
  obtain ⟨res, hres, hall⟩ := h.written hnz happ hm hglob hs hfits hlt
  obtain ⟨text, tail, htext, rfl, -, htail⟩ := edFrom_inv hm hs
  have hpre : window line (0, m.so) = line.take m.so := by
    rw [window, List.drop_zero, Nat.sub_zero]
  have hprelen : (line.take m.so).length = m.so := List.length_take_of_le (by omega)
  rw [hpre, htail fun hcon => absurd hcon (by rw [hglob]; exact Bool.false_ne_true)] at hall hfits
  simp only [List.length_append, hprelen, List.length_drop] at hfits
  obtain ⟨hreslen, hagree⟩ := resub_inv m.within htext (by omega) hres
  have hrest : ∀ junk, (str ((line ++ 0 :: junk).drop (m.so + m.eo))).length =
      line.length - m.eo := by
    intro junk
    have heq := congrArg List.length (hall junk)
    simp only [List.length_append, List.length_drop] at heq
    omega
  -- what is dropped twice is missing, unless it is read from behind the name
  have hzero : m.so = 0 := by
    by_contra hne
    rcases heo.lt_or_eq with hmore | hend
    · have hnone := hrest []
      have hdrop : str ((line ++ [0]).drop (m.so + m.eo)) = line.drop (m.so + m.eo) := by
        rcases Nat.lt_or_ge line.length (m.so + m.eo) with hbeyond | hwithin
        · rw [List.drop_of_length_le (by simpa using Nat.succ_le_of_lt hbeyond),
            List.drop_of_length_le hbeyond.le]
          rfl
        · exact str_drop hnz hwithin
      rw [hdrop, List.length_drop] at hnone
      omega
    · have hjunk := hrest (List.replicate m.so 1)
      obtain ⟨k, hk⟩ : ∃ k, m.so = k + 1 := ⟨m.so - 1, by omega⟩
      have hdrop : (line ++ 0 :: List.replicate m.so 1).drop (m.so + m.eo) = [1] := by
        rw [hend, Nat.add_comm, ← List.drop_drop, List.drop_left, hk, List.drop_succ_cons,
          List.drop_replicate, Nat.add_sub_cancel_left]
        rfl
      rw [hdrop, hend, Nat.sub_self] at hjunk
      cases hjunk
  have hfirst := hall []
  rw [hzero, Nat.zero_add, str_drop hnz heo] at hfirst
  exact .inr ⟨hzero, hagree (List.append_cancel_right hfirst)⟩

end

/-- `rep_name` does what `ed` does where the matches adjoin; a single substitution it gets right
only there. -/
theorem repName_asEd (reps : List Replace) (name : FileName) :
    (Safe reps name.chars → AsEd reps name.chars) ∧
      ((∀ pt, applied reps name.chars = some pt → pt.glob = false) →
        (AsEd reps name.chars ↔ Safe reps name.chars)) := by
  refine ⟨asEd_of_safe name.nonzero name.fits, fun hglob => ⟨fun h pt m happ hm => ?_,
    asEd_of_safe name.nonzero name.fits⟩⟩
  have hg := hglob pt happ
  by_cases hfit : ∃ s, edFrom pt name.chars 0 = some s ∧ s.length ≤ paxpathlen
  · obtain ⟨s, hs, hfits⟩ := hfit
    rcases inPlace_of_asEd name.nonzero name.fits happ hm hg hs hfits h with hfull | hplace
    · exact .inr (.inl hfull)
    · refine .inl (.last hm hm m.shifts_zero hplace fun hcon => ?_)
      exact absurd hcon (by rw [hg]; exact Bool.false_ne_true)
  · refine .inr (.inr ⟨hg, fun s hs => ?_⟩)
    exact Nat.lt_of_not_le fun hle => hfit ⟨s, hs, hle⟩

def charRegex (ch : Chr) : RegexT where
  nsub := 0
  regexec line start :=
    let i := start + (line.drop start).findIdx (· == ch)
    if h : i < line.length then
      some {
        so := i
        eo := i + 1
        sub := fun _ => none
        start_le := Nat.le_add_right _ _
        so_le := Nat.le_succ i
        eo_le := h
        sub_le := fun h => by cases h }
    else none

/-- With `/b/X/` the name `abcd` becomes `aXd`, where `ed` makes `aXcd` of it. -/
theorem repName_drops :
    ∃ pt, repAdd (fun old => old.head?.map charRegex) [47, 98, 47, 88, 47] [] = some pt ∧
      repName 1 [pt] [97, 98, 99, 100] [] = some (.name [97, 88, 100]) ∧
      edName [pt] [97, 98, 99, 100] = some (.name [97, 88, 99, 100]) ∧
      ¬ AsEd [pt] [97, 98, 99, 100] := by
  have happ : applied [⟨charRegex 98, [88, 0, 0], false, false⟩] [97, 98, 99, 100] =
      some ⟨charRegex 98, [88, 0, 0], false, false⟩ := rfl
  have hed : edFrom ⟨charRegex 98, [88, 0, 0], false, false⟩ [97, 98, 99, 100] 0 =
      some [97, 88, 99, 100] := by
    rw [edFrom]
    rfl
  have hm : (charRegex 98).regexec [97, 98, 99, 100] 0 = some ⟨1, 2, fun _ => none, by decide,
      by decide, by decide, fun h => by cases h⟩ := rfl
  refine ⟨⟨charRegex 98, [88, 0, 0], false, false⟩, rfl, by decide, ?_, fun h => ?_⟩
  · rw [edName_applied happ, hed]
    rfl
  rcases inPlace_of_asEd (by decide) (by decide) happ hm rfl hed (by decide) h with hfull | hplace
  · exact absurd hfull (by decide)
  · exact absurd hplace.1 (by decide)

end Bsdi.Pax
