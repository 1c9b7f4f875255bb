import Bsdi.Pax.Replace

/-!
# Substitutions in names

The substitutions that `rep_name` is to make are those of `ed`. The inner loop counts the start of a
match twice, looks for what `&` and `\1` stand for in the replacement text, and takes each rest of
the name for a line of its own.
-/

namespace Bsdi.Pax

/-- A replacement text, with the groups `pm` of the line: `none` if it refers to a subexpression
that the regular expression does not have. -/
def expand (nsub : Nat) (pm : Nat → Option (Nat × Nat)) (line : List Chr) :
    List Piece → Option (List Chr)
  | [] => some []
  | .chr c :: ps => (expand nsub pm line ps).map (c :: ·)
  | .ref n :: ps =>
    if nsub < n then none
    else (expand nsub pm line ps).map (((pm n).elim [] (window line)) ++ ·)

/-- The substitution in a line, from the offset `p` on. After a match of the empty string one
character is passed over. -/
def edFrom (pt : Replace) (line : List Chr) (p : Nat) : Option (List Chr) :=
  match pt.rcmp.regexec line p with
  | none => some (line.drop p)
  | some m =>
    match expand pt.rcmp.nsub m.pm line (pieces pt.nstr) with
    | none => none
    | some text =>
      if pt.glob ∧ m.eo < line.length then
        if m.so < m.eo then
          (edFrom pt line m.eo).map (window line (p, m.so) ++ text ++ ·)
        else
          (edFrom pt line (m.eo + 1)).map
            (window line (p, m.so) ++ text ++ window line (m.eo, m.eo + 1) ++ ·)
      else some (window line (p, m.so) ++ text ++ line.drop m.eo)
termination_by line.length + 1 - p
decreasing_by
  · have hstart := m.start_le
    omega
  · have hle := m.start_le.trans m.so_le
    omega

def applied (reps : List Replace) (line : List Chr) : Option Replace :=
  reps.find? fun pt => (pt.rcmp.regexec line 0).isSome

def edName (reps : List Replace) (line : List Chr) : Option Outcome :=
  match applied reps line with
  | none => some (.name line)
  | some pt => (edFrom pt line 0).map newName

def Outcome.Fits : Outcome → Prop
  | .name s => s.length ≤ paxpathlen
  | .skip _ => True

/-- `rep_name` comes back, whatever is behind the name in its buffer, with a name that is not too
long, and with what `ed` makes of the name if that is not too long. -/
def AsEd (reps : List Replace) (line : List Chr) : Prop :=
  ∀ junk, ∃ fuel o, repName fuel reps line junk = some o ∧ o.Fits ∧
    ∀ r, edName reps line = some r → r.Fits → o = r

section
variable {line junk : List Chr} {p : Nat}

theorem str_append (h : 0 ∉ line) (rest : List Chr) : str (line ++ rest) = line ++ str rest :=
  takeWhile_nonzero rest h

@[simp] theorem str_zero (rest : List Chr) : str (0 :: rest) = [] := by simp [str]

theorem str_of_nonzero (h : 0 ∉ line) : str line = line := by
  simpa [str] using str_append h []

theorem nonzero_drop (h : 0 ∉ line) : 0 ∉ line.drop p := fun hmem => h (List.mem_of_mem_drop hmem)

theorem nonzero_window {g : Nat × Nat} (h : 0 ∉ line) : 0 ∉ window line g :=
  fun hmem => h (List.mem_of_mem_drop (List.mem_of_mem_take hmem))

theorem str_drop (h : 0 ∉ line) (hp : p ≤ line.length) :
    str ((line ++ 0 :: junk).drop p) = line.drop p := by
  rw [List.drop_append_of_le_length hp, str_append (nonzero_drop h), str_zero, List.append_nil]

theorem length_window {g : Nat × Nat} (h : g.2 ≤ line.length) :
    (window line g).length = g.2 - g.1 := by
  simp only [window, List.length_take, List.length_drop]
  omega

theorem window_drop (g : Nat × Nat) :
    window (line.drop p) g = window line (g.1 + p, g.2 + p) := by
  simp only [window, List.drop_drop]
  congr 1
  · omega
  · rw [Nat.add_comm]

end

section
variable {nsub room : Nat} {pm : Nat → Option (Nat × Nat)} {line src text s : List Chr}
  {ps : List Piece}

/-- Where the text refers to a group, the characters at `src` are those of the line. -/
def Agree (pm : Nat → Option (Nat × Nat)) (line src : List Chr) (ps : List Piece) : Prop :=
  ∀ n g, Piece.ref n ∈ ps → pm n = some g → g.1 < g.2 → window src g = window line g

theorem Agree.tail {piece : Piece} (h : Agree pm line src (piece :: ps)) : Agree pm line src ps :=
  fun n g hmem => h n g (List.mem_cons_of_mem _ hmem)

theorem length_resub (h : resub nsub pm src room ps = some s) : s.length ≤ room := by
  fun_induction resub nsub pm src room ps generalizing s with
  | case1 | case2 =>
    cases h
    simp
  | case3 room c spt ih =>
    obtain ⟨t, ht, rfl⟩ := Option.map_eq_some_iff.mp h
    exact Nat.succ_le_succ (ih ht)
  | case4 => cases h
  | case5 room n spt _ _ ih => exact ih h
  | case6 room n spt _ _ _ _ _ ih => exact ih h
  | case7 room n spt _ so eo _ _ len copied hlen =>
    rename_i ih
    obtain ⟨t, ht, rfl⟩ := Option.map_eq_some_iff.mp h
    have hle := ih ht
    have hmin : len ≤ room + 1 := Nat.min_le_right _ _
    rw [List.length_append, hlen]
    omega
  | case8 => cases h

theorem expand_ref {n : Nat} (h : expand nsub pm line (.ref n :: ps) = some text) :
    ¬ nsub < n ∧ ∃ rest, expand nsub pm line ps = some rest ∧
      text = (pm n).elim [] (window line) ++ rest := by
  rw [expand] at h
  split at h
  · cases h
  · next hn =>
    obtain ⟨rest, hrest, rfl⟩ := Option.map_eq_some_iff.mp h
    exact ⟨hn, rest, hrest, rfl⟩

def Within (pm : Nat → Option (Nat × Nat)) (line : List Chr) : Prop :=
  ∀ n g, pm n = some g → g.2 ≤ line.length

theorem window_empty {g : Nat × Nat} (h : g.2 ≤ g.1) : window line g = [] := by
  simp [window, Nat.sub_eq_zero_of_le h]

theorem length_window_le (s : List Chr) (g : Nat × Nat) : (window s g).length ≤ g.2 - g.1 :=
  List.length_take_le _ _

theorem resub_ref {n : Nat} (hn : ¬ nsub < n) (hin : Within pm line)
    (hroom : ((pm n).elim [] (window line)).length ≤ room) :
    resub nsub pm src room (.ref n :: ps) =
      if ((pm n).elim [] fun g => str (window src g)).length =
          ((pm n).elim [] (window line)).length then
        (resub nsub pm src (room - ((pm n).elim [] (window line)).length) ps).map
          (((pm n).elim [] fun g => str (window src g)) ++ ·)
      else none := by
  rcases hpm : pm n with _ | ⟨so, eo⟩
  · cases room <;> simp [resub, hn, hpm]
  rw [hpm] at hroom
  have hlen : (window line (so, eo)).length = eo - so := length_window (hin n _ hpm)
  simp only [Option.elim_some, hlen] at hroom ⊢
  rcases Nat.lt_or_ge so eo with hlt | hge
  · obtain ⟨k, rfl⟩ : ∃ k, room = k + 1 := ⟨room - 1, by omega⟩
    have hmin : min (eo - so) (k + 1) = eo - so := Nat.min_eq_left hroom
    have hend : so + (eo - so) = eo := by omega
    simp only [resub, if_neg hn, hpm, if_neg (Nat.not_le.mpr hlt), hmin, hend]
  · have hempty : window src (so, eo) = [] := window_empty hge
    cases room <;> simp [resub, hn, hpm, hge, hempty, str]

theorem resub_of_agree (hnz : 0 ∉ line) (hin : Within pm line)
    (hexp : expand nsub pm line ps = some text) (hroom : text.length ≤ room)
    (hagree : Agree pm line src ps) : resub nsub pm src room ps = some text := by
  induction ps generalizing room text with
  | nil =>
    cases hexp
    cases room <;> rfl
  | cons piece ps ih =>
    cases piece with
    | chr c =>
      obtain ⟨rest, hrest, rfl⟩ := Option.map_eq_some_iff.mp hexp
      obtain ⟨k, rfl⟩ := Nat.exists_eq_add_one.mpr (Nat.lt_of_lt_of_le (Nat.succ_pos _) hroom)
      rw [resub, ih hrest (Nat.le_of_succ_le_succ hroom) hagree.tail]
      rfl
    | ref n =>
      obtain ⟨hn, rest, hrest, rfl⟩ := expand_ref hexp
      rw [List.length_append] at hroom
      have hcopied : ((pm n).elim [] fun g => str (window src g)) =
          (pm n).elim [] (window line) := by
        rcases hpm : pm n with _ | g
        · rfl
        · rcases Nat.lt_or_ge g.1 g.2 with hlt | hge
          · simp only [Option.elim_some]
            rw [hagree n g List.mem_cons_self hpm hlt, str_of_nonzero (nonzero_window hnz)]
          · simp [window_empty hge, str]
      rw [resub_ref hn hin (by omega), hcopied, if_pos rfl, ih hrest (by omega) hagree.tail]
      rfl

theorem resub_inv (hin : Within pm line) (hexp : expand nsub pm line ps = some text)
    (hroom : text.length ≤ room) (h : resub nsub pm src room ps = some s) :
    s.length = text.length ∧ (s = text → Agree pm line src ps) := by
  induction ps generalizing room text s with
  | nil =>
    cases hexp
    have hs : s = [] := by cases room <;> exact (Option.some.inj h).symm
    exact ⟨by rw [hs], fun _ n g hmem => absurd hmem (by simp)⟩
  | cons piece ps ih =>
    cases piece with
    | chr c =>
      obtain ⟨rest, hrest, rfl⟩ := Option.map_eq_some_iff.mp hexp
      obtain ⟨k, rfl⟩ := Nat.exists_eq_add_one.mpr (Nat.lt_of_lt_of_le (Nat.succ_pos _) hroom)
      obtain ⟨t, ht, rfl⟩ := Option.map_eq_some_iff.mp h
      obtain ⟨hlen, hagree⟩ := ih hrest (Nat.le_of_succ_le_succ hroom) ht
      refine ⟨by simp [hlen], fun heq n g hmem => ?_⟩
      rcases List.mem_cons.mp hmem with hchr | hmem
      · cases hchr
      · exact hagree (List.cons.inj heq).2 n g hmem
    | ref n =>
      obtain ⟨hn, rest, hrest, rfl⟩ := expand_ref hexp
      rw [List.length_append] at hroom
      rw [resub_ref hn hin (by omega)] at h
      split at h
      · next hcopied =>
        obtain ⟨t, ht, rfl⟩ := Option.map_eq_some_iff.mp h
        obtain ⟨hlen, hagree⟩ := ih hrest (by omega) ht
        refine ⟨by simp [hlen, hcopied], fun heq i g hmem hpm hlt => ?_⟩
        obtain ⟨hhead, htail⟩ := List.append_inj heq hcopied
        rcases List.mem_cons.mp hmem with hi | hmem
        · obtain rfl : i = n := by simpa using hi
          rw [hpm] at hhead hcopied
          simp only [Option.elim_some] at hhead hcopied
          -- the copied string is as long as the window, so that no zero has ended it
          have hfull : str (window src g) = window src g := by
            refine (List.takeWhile_prefix _).eq_of_length_le ?_
            have hle := length_window_le src g
            rw [length_window (hin i g hpm)] at hcopied
            exact hle.trans hcopied.ge
          rw [← hhead, hfull]
        · exact hagree htail i g hmem hpm hlt
      · cases h

end

section
variable {line junk : List Chr} {p n : Nat} {pt : Replace}

theorem RegMatch.within (m : RegMatch line p) : Within m.pm line := by
  intro i g hg
  cases i with
  | zero =>
    obtain rfl : (m.so, m.eo) = g := Option.some.inj hg
    exact m.eo_le
  | succ i => exact (m.sub_le hg).2.2.trans m.eo_le

/-- A match in the line is the match `m'` in the rest of the line. -/
def RegMatch.Shifts (m : RegMatch line p) (m' : RegMatch (line.drop p) 0) : Prop :=
  ∀ i, m.pm i = (m'.pm i).map fun g => (g.1 + p, g.2 + p)

theorem RegMatch.Shifts.so {m : RegMatch line p} {m' : RegMatch (line.drop p) 0}
    (h : m.Shifts m') : m.so = m'.so + p :=
  congrArg Prod.fst (Option.some.inj (h 0))

theorem RegMatch.Shifts.eo {m : RegMatch line p} {m' : RegMatch (line.drop p) 0}
    (h : m.Shifts m') : m.eo = m'.eo + p :=
  congrArg Prod.snd (Option.some.inj (h 0))

theorem RegMatch.shifts_zero (m : RegMatch line 0) : m.Shifts m := by
  intro i
  simp only [Nat.add_zero]
  exact Option.map_id'.symm

theorem RegMatch.Shifts.expand {m : RegMatch line p} {m' : RegMatch (line.drop p) 0}
    (h : m.Shifts m') (nsub : Nat) (ps : List Piece) :
    expand nsub m.pm line ps = expand nsub m'.pm (line.drop p) ps := by
  induction ps with
  | nil => rfl
  | cons piece ps ih =>
    cases piece with
    | chr c => rw [Pax.expand, Pax.expand, ih]
    | ref i =>
      rw [Pax.expand, Pax.expand, ih, h i]
      cases m'.pm i with
      | none => rfl
      | some g => rw [Option.map_some, Option.elim_some, Option.elim_some, window_drop]

/-- In the rest of the line a match comes at once, and the replacement text has at the offsets of
the groups it refers to the characters that the rest has there. -/
def Replace.InPlace (pt : Replace) {rest : List Chr} (m : RegMatch rest 0) : Prop :=
  m.so = 0 ∧ Agree m.pm rest pt.nstr (pieces pt.nstr)

def Replace.newLength (pt : Replace) (m : RegMatch line p) : Nat :=
  ((expand pt.rcmp.nsub m.pm line (pieces pt.nstr)).getD []).length

/-- From `p` on, with `n` characters written, each match comes at once and is followed by the
next one. In the rest of the line the expression finds what it finds in the line, and no match of
the empty string is followed by more. -/
inductive Adjoining (pt : Replace) (line : List Chr) : Nat → Nat → Prop
  | none {p n : Nat} (hline : pt.rcmp.regexec line p = none)
      (hrest : pt.rcmp.regexec (line.drop p) 0 = none) : Adjoining pt line p n
  | last {p n : Nat} {m : RegMatch line p} {m' : RegMatch (line.drop p) 0}
      (hline : pt.rcmp.regexec line p = some m)
      (hrest : pt.rcmp.regexec (line.drop p) 0 = some m') (hshift : m.Shifts m')
      (hplace : pt.InPlace m') (hend : pt.glob = true → m.eo = line.length) :
      Adjoining pt line p n
  | next {p n : Nat} {m : RegMatch line p} {m' : RegMatch (line.drop p) 0}
      (hline : pt.rcmp.regexec line p = some m)
      (hrest : pt.rcmp.regexec (line.drop p) 0 = some m') (hshift : m.Shifts m')
      (hplace : pt.InPlace m') (hglob : pt.glob = true) (hlt : m.eo < line.length)
      (hne : p < m.eo) (hfull : n + pt.newLength m ≠ paxpathlen)
      (htail : Adjoining pt line m.eo (n + pt.newLength m)) : Adjoining pt line p n

theorem headD_drop (hnz : 0 ∉ line) (hp : p ≤ line.length) :
    ((line ++ 0 :: junk).drop p).headD 0 = 0 ↔ p = line.length := by
  rw [List.headD_eq_head?_getD, List.head?_drop]
  rcases Nat.lt_or_ge p line.length with hlt | hge
  · rw [List.getElem?_append_left hlt, List.getElem?_eq_getElem hlt, Option.getD_some]
    refine ⟨fun hzero => absurd (hzero ▸ List.getElem_mem hlt) hnz, fun heq => ?_⟩
    omega
  · obtain rfl : p = line.length := by omega
    simp

theorem repLoop_inPlace {m' : RegMatch (line.drop p) 0} (junk out : List Chr) (fuel : Nat)
    (found : Bool) (hnz : 0 ∉ line) (hp : p ≤ line.length) (hout : out.length < paxpathlen)
    (hrest : pt.rcmp.regexec (line.drop p) 0 = some m') (hso : m'.so = 0) :
    repLoop pt (fuel + 1) found ((line ++ 0 :: junk).drop p) out =
      match resub pt.rcmp.nsub m'.pm pt.nstr (paxpathlen - out.length) (pieces pt.nstr) with
      | none => some .refused
      | some res =>
        if (out ++ res).length = paxpathlen ∨ m'.eo + p = line.length then
          some (.upTo true ((line ++ 0 :: junk).drop (m'.eo + p)) (out ++ res))
        else if pt.glob then
          repLoop pt fuel true ((line ++ 0 :: junk).drop (m'.eo + p)) (out ++ res)
        else some (.upTo true ((line ++ 0 :: junk).drop (m'.eo + p)) (out ++ res)) := by
  have heo := m'.eo_le
  rw [List.length_drop] at heo
  have hend : m'.eo + p ≤ line.length := by omega
  rw [repLoop_some (str_drop hnz hp) hrest]
  simp only [hso, Nat.zero_min, List.take_zero, List.append_nil, List.drop_zero, hout.ne, if_false]
  rw [List.drop_drop, Nat.add_comm p]
  cases resub pt.rcmp.nsub m'.pm pt.nstr (paxpathlen - out.length) (pieces pt.nstr) with
  | none => rfl
  | some res => simp only [headD_drop hnz hend]

theorem edFrom_none (hline : pt.rcmp.regexec line p = none) :
    edFrom pt line p = some (line.drop p) := by
  rw [edFrom, hline]

theorem edFrom_inv {m : RegMatch line p} {s : List Chr} (hline : pt.rcmp.regexec line p = some m)
    (h : edFrom pt line p = some s) :
    ∃ text tail, expand pt.rcmp.nsub m.pm line (pieces pt.nstr) = some text ∧
      s = window line (p, m.so) ++ text ++ tail ∧
      (pt.glob = true → p < m.eo → m.eo < line.length → m.so < m.eo →
        edFrom pt line m.eo = some tail) ∧
      ((pt.glob = true → m.eo = line.length) → tail = line.drop m.eo) := by
  rw [edFrom, hline] at h
  simp only at h
  split at h
  · cases h
  next text htext =>
  split at h
  · next hglob =>
    have hend : ¬ (pt.glob = true → m.eo = line.length) := fun hend => hglob.2.ne (hend hglob.1)
    split at h
    · obtain ⟨tail, htail, rfl⟩ := Option.map_eq_some_iff.mp h
      exact ⟨text, tail, htext, rfl, fun _ _ _ _ => htail, fun hcon => absurd hcon hend⟩
    · next hlt =>
      obtain ⟨tail, htail, rfl⟩ := Option.map_eq_some_iff.mp h
      exact ⟨text, _, htext, List.append_assoc _ _ _, fun _ _ _ hcon => absurd hcon hlt,
        fun hcon => absurd hcon hend⟩
  · next hglob =>
    cases h
    exact ⟨text, _, htext, rfl, fun hg _ hlt _ => absurd ⟨hg, hlt⟩ hglob, fun _ => rfl⟩

theorem Replace.InPlace.resub {m : RegMatch line p} {m' : RegMatch (line.drop p) 0} {room : Nat}
    {text : List Chr} (hplace : pt.InPlace m') (hnz : 0 ∉ line) (hshift : m.Shifts m')
    (htext : expand pt.rcmp.nsub m.pm line (pieces pt.nstr) = some text)
    (hroom : text.length ≤ room) :
    resub pt.rcmp.nsub m'.pm pt.nstr room (pieces pt.nstr) = some text := by
  rw [hshift.expand] at htext
  exact resub_of_agree (nonzero_drop hnz) m'.within htext hroom hplace.2

theorem Adjoining.repLoop (h : Adjoining pt line p n) (junk out : List Chr) (hnz : 0 ∉ line)
    (hp : p ≤ line.length) (hout : out.length < paxpathlen) :
    ∃ fuel r, repLoop pt (fuel + 1) true ((line ++ 0 :: junk).drop p) out = some r ∧
      (out.length = n → ∀ s, edFrom pt line p = some s → n + s.length ≤ paxpathlen →
        ∃ inpt out', r = .upTo true inpt out' ∧ out' ++ str inpt = out ++ s) := by
  induction h generalizing out with
  | none hline hrest =>
    refine ⟨0, _, repLoop_none (str_drop hnz hp) hrest, fun _ s hs _ => ?_⟩
    rw [edFrom_none hline] at hs
    cases hs
    exact ⟨_, _, rfl, by rw [str_drop hnz hp]⟩
  | @last p n m m' hline hrest hshift hplace hend =>
    have hpass := repLoop_inPlace junk out 0 true hnz hp hout hrest hplace.1
    have hso : m.so = p := by rw [hshift.so, hplace.1, Nat.zero_add]
    cases hresub : resub pt.rcmp.nsub m'.pm pt.nstr (paxpathlen - out.length) (pieces pt.nstr) with
    | none =>
      rw [hresub] at hpass
      refine ⟨0, _, hpass, fun hn s hs hlen => ?_⟩
      obtain ⟨text, tail, htext, rfl, -, -⟩ := edFrom_inv hline hs
      simp only [List.length_append] at hlen
      rw [hplace.resub hnz hshift htext (by omega)] at hresub
      cases hresub
    | some res =>
      rw [hresub] at hpass
      have hdone : Pax.repLoop pt 1 true ((line ++ 0 :: junk).drop p) out =
          some (.upTo true ((line ++ 0 :: junk).drop (m'.eo + p)) (out ++ res)) := by
        rw [hpass]
        simp only
        split
        · rfl
        · next hmore =>
          have hglob : ¬ pt.glob = true := fun hglob =>
            hmore (.inr (hshift.eo ▸ hend hglob))
          rw [if_neg hglob]
      refine ⟨0, _, hdone, fun hn s hs hlen => ⟨_, _, rfl, ?_⟩⟩
      obtain ⟨text, tail, htext, rfl, -, htail⟩ := edFrom_inv hline hs
      simp only [List.length_append] at hlen
      rw [hplace.resub hnz hshift htext (by omega)] at hresub
      obtain rfl : text = res := Option.some.inj hresub
      rw [← hshift.eo, str_drop hnz m.eo_le, htail hend, hso, window_empty (Nat.le_refl _),
        List.nil_append, List.append_assoc]
  | @next p n m m' hline hrest hshift hplace hglob hlt hne hfull htail ih =>
    have hso : m.so = p := by rw [hshift.so, hplace.1, Nat.zero_add]
    have hpass := fun fuel => repLoop_inPlace junk out fuel true hnz hp hout hrest hplace.1
    cases hresub : resub pt.rcmp.nsub m'.pm pt.nstr (paxpathlen - out.length) (pieces pt.nstr) with
    | none =>
      have hrun := hpass 0
      rw [hresub] at hrun
      refine ⟨0, _, hrun, fun hn s hs hlen => ?_⟩
      obtain ⟨text, tail, htext, rfl, -, -⟩ := edFrom_inv hline hs
      simp only [List.length_append] at hlen
      rw [hplace.resub hnz hshift htext (by omega)] at hresub
      cases hresub
    | some res =>
      simp only [hresub, ← hshift.eo, hlt.ne, or_false, hglob, if_true] at hpass
      -- what has been written, where there is room
      have hwritten : out.length = n → ∀ s, edFrom pt line p = some s →
          n + s.length ≤ paxpathlen →
            res.length = pt.newLength m ∧
              ∃ tail, edFrom pt line m.eo = some tail ∧ s = res ++ tail := by
        intro hn s hs hlen
        obtain ⟨text, tail, htext, rfl, hmore, -⟩ := edFrom_inv hline hs
        simp only [List.length_append] at hlen
        rw [hplace.resub hnz hshift htext (by omega)] at hresub
        obtain rfl : text = res := Option.some.inj hresub
        refine ⟨by rw [Replace.newLength, htext, Option.getD_some], tail,
          hmore hglob hne hlt (by omega), ?_⟩
        rw [hso, window_empty (Nat.le_refl _), List.nil_append]
      by_cases hstop : (out ++ res).length = paxpathlen
      · have hrun := hpass 0
        rw [if_pos hstop] at hrun
        refine ⟨0, _, hrun, fun hn s hs hlen => ?_⟩
        obtain ⟨hnew, -⟩ := hwritten hn s hs hlen
        rw [List.length_append, hn, hnew] at hstop
        exact absurd hstop hfull
      · have hle := length_resub hresub
        rw [List.length_append] at hstop
        obtain ⟨fuel, r, hrun, hr⟩ := ih (out ++ res) m.eo_le
          (by rw [List.length_append]; omega)
        refine ⟨fuel + 1, r, ?_, fun hn s hs hlen => ?_⟩
        · rw [hpass, if_neg (by rwa [List.length_append]), hrun]
        · obtain ⟨hnew, tail, htail, rfl⟩ := hwritten hn s hs hlen
          rw [List.length_append] at hlen
          have hout' : (out ++ res).length = n + pt.newLength m := by
            rw [List.length_append, hn, hnew]
          rw [← List.append_assoc]
          exact hr hout' tail htail (by omega)

end

end Bsdi.Pax
